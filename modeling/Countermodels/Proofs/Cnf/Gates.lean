import Countermodels.Proofs.Cnf.Folding

/-! Gates denote what they are named for: the literal of a conjunction is true just if all its inputs
are, and no gate says anything of the variables that were there before. -/

namespace Countermodels

namespace Gates

variable {b : Basis} {f : Cnf} {g : Gates} {k : Gate} {F : Folded} {y : Lit}

/-- Every gate that was made denotes what it was made for. -/
structure Valid (g : Gates) (b : Basis) (f : Cnf) : Prop where
  top : b.Denotes f g.top fun _ => True
  ands : ∀ (xs : List Lit) (y : Lit), g.ands[xs]? = some y → b.Denotes f y fun σ => ∀ x ∈ xs, x.holds σ = true
  iffs : ∀ (x z y : Lit), g.iffs[(x, z)]? = some y → b.Denotes f y fun σ => x.holds σ = z.holds σ

/-- A use of the gates: its literal denotes `P`, and all gates are as they should be. -/
structure Defines (b : Basis) (f : Cnf) (P : (Nat → Bool) → Prop) (r : (Lit × Gates) × Cnf) : Prop where
  extend : b.Extends f r.2
  valid : r.1.2.Valid b r.2
  denotes : b.Denotes r.2 r.1.1 P

theorem Valid.mono (hg : g.Valid b f) {f' : Cnf} (hf : f ≤ f') : g.Valid b f' where
  top := hg.top.mono hf
  ands xs y hy := (hg.ands xs y hy).mono hf
  iffs x z y hy := (hg.iffs x z y hy).mono hf

theorem Valid.bot (hg : g.Valid b f) : b.Denotes f g.top.neg fun _ => False :=
  hg.top.neg.congr fun _ _ => by simp

theorem Valid.constant (hg : g.Valid b f) (value : Bool) :
    b.Denotes f (g.constant value) fun _ => value = true := by
  cases value with
  | true => exact hg.top.congr fun _ _ => by simp
  | false => exact hg.bot.congr fun _ _ => by simp

theorem Valid.holds_top (hg : g.Valid b f) {σ : Nat → Bool} (hσ : b.Sat f σ) : g.top.holds σ = true :=
  (hg.top.2 σ hσ).2 trivial

/-- A literal that is there already. -/
theorem Valid.old (hg : g.Valid b f) (hf : b.Fits f) {l : Lit} {P : (Nat → Bool) → Prop}
    (hl : b.Denotes f l P) : Defines b f P ((l, g), f) :=
  ⟨.refl hf, hg, hl⟩

theorem Valid.find (hg : g.Valid b f) (hy : g.find? k = some y) : b.Denotes f y fun σ => k.Holds σ := by
  cases k with
  | all lits => exact hg.ands lits y hy
  | same x z => exact hg.iffs x z y hy

theorem Valid.value (hg : g.Valid b f) (hF : ∀ l ∈ F.inputs, l.var < f.numVars) (hy : g.value? F = some y) :
    b.Denotes f y fun σ => F.Holds σ := by
  cases F with
  | lit l =>
    cases hy
    exact .self (hF _ List.mem_cons_self)
  | gate k negated =>
    obtain ⟨z, hz, rfl⟩ := Option.map_eq_some_iff.1 hy
    obtain ⟨hknown, hholds⟩ := hg.find hz
    refine ⟨by simpa using hknown, fun σ hσ => ?_⟩
    rw [Lit.holds_flip, hholds σ hσ]
    rfl

theorem Valid.insert (hg : g.Valid b f) (hy : b.Denotes f y fun σ => k.Holds σ) : (g.insert y k).Valid b f := by
  have hfind : ∀ k' y', (g.insert y k).find? k' = some y' → b.Denotes f y' fun σ => k'.Holds σ := by
    intro k' y' h
    rw [find?_insert] at h
    split at h
    · next he =>
      cases h
      exact he ▸ hy
    · exact hg.find h
  exact ⟨by simpa using hg.top, fun xs => hfind (.all xs), fun x z => hfind (.same x z)⟩

section gates

variable (hg : g.Valid b f) (hf : b.Fits f)
include hg hf

/-- A gate that is new gets a literal of its own. -/
theorem Valid.new (hk : ∀ l ∈ k.inputs, l.var < f.numVars) (negated : Bool) :
    Defines b f (fun σ => k.Holds σ ↔ negated = false) (((Lit.positive f.numVars).flip negated,
      g.insert (.positive f.numVars) k), f.fresh.2.addAll (k.clauses (.positive f.numVars))) := by
  obtain ⟨hext, hden⟩ := Basis.define (P := fun σ => k.Holds σ) hf (Gate.known_clauses_positive hk)
    (fun _ _ => Gate.holds_congr hk) fun σ => by rw [Gate.models_clauses, Lit.holds_positive]
  refine ⟨hext, (hg.mono hext.le).insert hden, by simpa using hden.1, fun σ hσ => ?_⟩
  rw [Lit.holds_flip, hden.2 σ hσ]

theorem Valid.realize (hF : ∀ l ∈ F.inputs, l.var < f.numVars) :
    Defines b f (fun σ => F.Holds σ) (g.realize f F) := by
  obtain ⟨y, hy, hrun⟩ | ⟨k, negated, rfl, -, hrun⟩ := g.realize_cases F
  · rw [hrun]
    exact hg.old hf (hg.value hF hy)
  · rw [hrun]
    exact hg.new hf hF negated

theorem Valid.ask {r : Request} (hr : ∀ l ∈ r.inputs, l.var < f.numVars) :
    Defines b f (fun σ => r.Holds σ) (g.ask r f) := by
  rw [ask_eq]
  have h := hg.realize hf (Request.fold_known hg.top.1 hr)
  exact ⟨h.extend, h.valid, h.denotes.congr fun σ hσ => Request.fold_holds (hg.holds_top (hσ.mono h.extend.le)) r⟩

theorem and_defines {xs : List Lit} (hxs : ∀ x ∈ xs, x.var < f.numVars) :
    Defines b f (fun σ => ∀ x ∈ xs, x.holds σ = true) (g.and xs f) :=
  hg.ask hf (r := .and xs) hxs

theorem or_defines {xs : List Lit} (hxs : ∀ x ∈ xs, x.var < f.numVars) :
    Defines b f (fun σ => ∃ x ∈ xs, x.holds σ = true) (g.or xs f) :=
  hg.ask hf (r := .or xs) hxs

theorem iff_defines {x z : Lit} (hx : x.var < f.numVars) (hz : z.var < f.numVars) :
    Defines b f (fun σ => x.holds σ = z.holds σ) (g.iff x z f) :=
  hg.ask hf (r := .iff x z) (by simp [Request.inputs, hx, hz])

end gates

end Gates

/-! The constant, written after all other clauses. -/

namespace Basis

/-- Some clauses are true, and so is a variable that is made after them. -/
def withConstant {f g : Cnf} (hf : start.Fits f) (hfg : f ≤ g) : Basis where
  numVars := g.numVars + 1
  size := g.clauses.size + 1
  holds σ := f.satisfiedBy σ ∧ σ g.numVars = true
  local_holds hστ hσ := by
    refine ⟨sat_start.1 ((sat_start.2 hσ.1).congr hf (hστ.mono (Nat.le_succ_of_le hfg.1))), ?_⟩
    rw [← hστ g.numVars (Nat.lt_succ_self _)]
    exact hσ.2

end Basis

namespace Gates

variable {f g : Cnf} (hf : Basis.start.Fits f) (hfg : f ≤ g)

theorem run_new (g : Cnf) :
    new g = ({ top := .positive g.numVars }, g.fresh.2.addAll [[.positive g.numVars]]) := rfl

theorem known_new (g : Cnf) : ∀ c ∈ [[Lit.positive g.numVars]], ∀ l ∈ c, l.var < g.fresh.2.numVars := by
  simp [Cnf.fresh]

theorem numVars_new (g : Cnf) : (new g).2.numVars = g.numVars + 1 := Cnf.numVars_addAll (known_new g)

theorem clauses_new (g : Cnf) : (new g).2.clauses.toList = g.clauses.toList ++ [[.positive g.numVars]] := by
  rw [run_new, Cnf.clauses_addAll]
  rfl

theorem fits_after_new {b : Basis} (hg : b.Fits g) : b.Fits (new g).2 := hg.fresh.addAll (known_new g)

theorem satisfiedBy_new {σ : Nat → Bool} : (new g).2.satisfiedBy σ ↔ g.satisfiedBy σ ∧ σ g.numVars = true := by
  rw [Cnf.satisfiedBy_iff, clauses_new, models_append, models_singleton, ← Cnf.satisfiedBy_iff]
  simp [Lit.anyHolds]

theorem drop_new (g : Cnf) : (new g).2.clauses.toList.drop (g.clauses.size + 1) = [] := by
  rw [clauses_new]
  simp

theorem size_new (g : Cnf) : (new g).2.clauses.size = g.clauses.size + 1 := by
  rw [← Array.length_toList, clauses_new]
  simp

theorem fits_new : (Basis.withConstant hf hfg).Fits (new g).2 where
  numVars_le := (numVars_new g).ge
  size_le := (size_new g).ge
  known := by simp [Basis.withConstant, drop_new]

theorem valid_new : (new g).1.Valid (Basis.withConstant hf hfg) (new g).2 where
  top := ⟨by rw [numVars_new, run_new, Lit.var_positive]; exact Nat.lt_succ_self _, fun σ hσ => by
    rw [run_new, Lit.holds_positive, hσ.1.2]
    simp⟩
  ands xs y hy := by simp [run_new] at hy
  iffs x z y hy := by simp [run_new] at hy

end Gates

end Countermodels
