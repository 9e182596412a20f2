import Countermodels.Proofs.Cnf.Lit

/-! How a formula grows while it is written. A basis is what stands at some moment: some variables,
some clauses, and a condition on the values of these variables. What is written later is judged
against it: which assignments satisfy the condition and the later clauses, what a literal denotes in
all of them, and whether they can be continued on variables that are added. -/

namespace Countermodels

/-- Two assignments agree on the variables below a bound. -/
def Agree (n : Nat) (σ τ : Nat → Bool) : Prop := ∀ v < n, σ v = τ v

namespace Agree

variable {n k : Nat} {σ τ υ : Nat → Bool}

theorem refl (n : Nat) (σ : Nat → Bool) : Agree n σ σ := fun _ _ => rfl

theorem mono (h : Agree n σ τ) (hk : k ≤ n) : Agree k σ τ := fun v hv => h v (Nat.lt_of_lt_of_le hv hk)

theorem trans (h : Agree n σ τ) (h' : Agree n τ υ) : Agree n σ υ := fun v hv => (h v hv).trans (h' v hv)

theorem holds {l : Lit} (h : Agree n σ τ) (hl : l.var < n) : l.holds σ = l.holds τ :=
  Lit.holds_congr (h l.var hl)

theorem anyHolds {c : List Lit} (h : Agree n σ τ) (hc : ∀ l ∈ c, l.var < n)
    (hσ : Lit.anyHolds c σ = true) : Lit.anyHolds c τ = true := by
  obtain ⟨l, hl, hlσ⟩ := Lit.anyHolds_iff.1 hσ
  exact Lit.anyHolds_iff.2 ⟨l, hl, (h.holds (hc l hl)).symm.trans hlσ⟩

theorem models {Φ : List (List Lit)} (h : Agree n σ τ) (hΦ : ∀ c ∈ Φ, ∀ l ∈ c, l.var < n)
    (hσ : Models Φ σ) : Models Φ τ := fun c hc => h.anyHolds (hΦ c hc) (hσ c hc)

theorem update (n : Nat) (σ : Nat → Bool) (x : Bool) : Agree n σ (Function.update σ n x) :=
  fun v hv => by rw [Function.update_of_ne (Nat.ne_of_lt hv)]

end Agree

namespace Cnf

/-- A formula comes before those with more variables and with more clauses after its own. -/
instance : LE Cnf := ⟨fun f g => f.numVars ≤ g.numVars ∧ f.clauses.toList <+: g.clauses.toList⟩

variable {f g h : Cnf}

theorem le_refl (f : Cnf) : f ≤ f := ⟨Nat.le_refl _, List.prefix_rfl⟩

theorem le_trans (hfg : f ≤ g) (hgh : g ≤ h) : f ≤ h :=
  ⟨Nat.le_trans hfg.1 hgh.1, hfg.2.trans hgh.2⟩

theorem size_le (hfg : f ≤ g) : f.clauses.size ≤ g.clauses.size := by
  simpa using hfg.2.length_le

theorem satisfiedBy_iff {σ : Nat → Bool} : f.satisfiedBy σ ↔ Models f.clauses.toList σ := by
  simp only [satisfiedBy, Models, Array.mem_toList_iff]

/-- Write clauses one after the other. -/
def addAll (f : Cnf) (cs : List (List Lit)) : Cnf := cs.foldl (fun f c => f.add c) f

@[simp] theorem clauses_addAll (f : Cnf) (cs : List (List Lit)) :
    (f.addAll cs).clauses.toList = f.clauses.toList ++ cs := by
  induction cs generalizing f with
  | nil => simp [addAll]
  | cons c cs ih =>
    refine (ih (f.add c)).trans ?_
    simp [add]

theorem numVars_addAll {cs : List (List Lit)} (hcs : ∀ c ∈ cs, ∀ l ∈ c, l.var < f.numVars) :
    (f.addAll cs).numVars = f.numVars := by
  induction cs generalizing f with
  | nil => rfl
  | cons c cs ih =>
    have hspan : Lit.span c ≤ f.numVars := Lit.span_le (hcs c List.mem_cons_self)
    have hadd : (f.add c).numVars = f.numVars := Nat.max_eq_left hspan
    refine (ih (f := f.add c) fun d hd => ?_).trans hadd
    rw [hadd]
    exact hcs d (List.mem_cons_of_mem _ hd)

theorem addAll_append (f : Cnf) (cs ds : List (List Lit)) :
    (f.addAll cs).addAll ds = f.addAll (cs ++ ds) := (List.foldl_append ..).symm

end Cnf

/-- A moment in the writing of a formula, with a condition on the variables there are. -/
structure Basis where
  numVars : Nat
  size : Nat
  holds : (Nat → Bool) → Prop
  local_holds : ∀ {σ τ : Nat → Bool}, Agree numVars σ τ → holds σ → holds τ

namespace Basis

variable {b : Basis} {f g h : Cnf} {σ τ : Nat → Bool}

/-- The condition and all later clauses are true. -/
def Sat (b : Basis) (f : Cnf) (σ : Nat → Bool) : Prop :=
  b.holds σ ∧ Models (f.clauses.toList.drop b.size) σ

/-- The formula was written after the moment, and its later clauses have only variables it knows. -/
structure Fits (b : Basis) (f : Cnf) : Prop where
  numVars_le : b.numVars ≤ f.numVars
  size_le : b.size ≤ f.clauses.size
  known : ∀ c ∈ f.clauses.toList.drop b.size, ∀ l ∈ c, l.var < f.numVars

/-- The literal is known, and in every assignment under consideration it is true just if `P` holds. -/
def Denotes (b : Basis) (f : Cnf) (l : Lit) (P : (Nat → Bool) → Prop) : Prop :=
  l.var < f.numVars ∧ ∀ σ, b.Sat f σ → (l.holds σ = true ↔ P σ)

/-- The second formula says of the variables of the first what the first says, and `C`. -/
structure Restricts (b : Basis) (C : (Nat → Bool) → Prop) (f g : Cnf) : Prop where
  le : f ≤ g
  fits : b.Fits g
  sound : ∀ τ, b.Sat g τ → C τ
  complete : ∀ σ, b.Sat f σ → C σ → ∃ τ, Agree f.numVars σ τ ∧ b.Sat g τ

/-- The second formula says of the variables of the first nothing more than the first. -/
abbrev Extends (b : Basis) (f g : Cnf) : Prop := b.Restricts (fun _ => True) f g

namespace Sat

theorem mono (hσ : b.Sat g σ) (hfg : f ≤ g) : b.Sat f σ := by
  obtain ⟨new, hnew⟩ := hfg.2
  refine ⟨hσ.1, fun c hc => hσ.2 c ?_⟩
  rw [← hnew, List.drop_append]
  exact List.mem_append_left _ hc

theorem congr (hf : b.Fits f) (h : Agree f.numVars σ τ) (hσ : b.Sat f σ) : b.Sat f τ :=
  ⟨b.local_holds (h.mono hf.numVars_le) hσ.1, h.models hf.known hσ.2⟩

end Sat

/-- Of a later formula, what stands in an earlier one and the clauses after it. -/
theorem sat_iff_of_le (hf : b.Fits f) (hfg : f ≤ g) :
    b.Sat g σ ↔ b.Sat f σ ∧ Models (g.clauses.toList.drop f.clauses.size) σ := by
  obtain ⟨new, hnew⟩ := hfg.2
  have hsize : b.size ≤ f.clauses.toList.length := by simpa using hf.size_le
  have hdrop : g.clauses.toList.drop f.clauses.size = new := by
    rw [← hnew, ← Array.length_toList, List.drop_left]
  rw [hdrop, Sat, Sat, ← hnew, List.drop_append_of_le_length hsize, models_append, and_assoc]

theorem Fits.fresh (hf : b.Fits f) : b.Fits f.fresh.2 where
  numVars_le := Nat.le_succ_of_le hf.numVars_le
  size_le := hf.size_le
  known c hc l hl := Nat.lt_succ_of_lt (hf.known c hc l hl)

theorem le_fresh (f : Cnf) : f ≤ f.fresh.2 := ⟨Nat.le_succ _, List.prefix_rfl⟩

section addAll

variable {cs : List (List Lit)} (hcs : ∀ c ∈ cs, ∀ l ∈ c, l.var < f.numVars)

include hcs in
theorem le_addAll : f ≤ f.addAll cs :=
  ⟨(Cnf.numVars_addAll hcs).ge, Cnf.clauses_addAll f cs ▸ List.prefix_append ..⟩

theorem drop_addAll (hf : b.Fits f) : (f.addAll cs).clauses.toList.drop b.size =
    f.clauses.toList.drop b.size ++ cs := by
  rw [Cnf.clauses_addAll, List.drop_append_of_le_length (by simpa using hf.size_le)]

include hcs in
theorem Fits.addAll (hf : b.Fits f) : b.Fits (f.addAll cs) where
  numVars_le := (Cnf.numVars_addAll hcs).symm ▸ hf.numVars_le
  size_le := Nat.le_trans hf.size_le (Cnf.size_le (le_addAll hcs))
  known := by
    rw [drop_addAll hf, Cnf.numVars_addAll hcs]
    exact List.forall_mem_append.2 ⟨hf.known, hcs⟩

theorem sat_addAll (hf : b.Fits f) : b.Sat (f.addAll cs) σ ↔ b.Sat f σ ∧ Models cs σ := by
  rw [Sat, Sat, drop_addAll hf, models_append, and_assoc]

end addAll

namespace Denotes

variable {l m : Lit} {P Q : (Nat → Bool) → Prop}

theorem mono (hl : b.Denotes f l P) (hfg : f ≤ g) : b.Denotes g l P :=
  ⟨Nat.lt_of_lt_of_le hl.1 hfg.1, fun σ hσ => hl.2 σ (hσ.mono hfg)⟩

theorem congr (hl : b.Denotes f l P) (h : ∀ σ, b.Sat f σ → (P σ ↔ Q σ)) : b.Denotes f l Q :=
  ⟨hl.1, fun σ hσ => (hl.2 σ hσ).trans (h σ hσ)⟩

theorem self (hl : l.var < f.numVars) : b.Denotes f l fun σ => l.holds σ = true :=
  ⟨hl, fun _ _ => Iff.rfl⟩

theorem neg (hl : b.Denotes f l P) : b.Denotes f l.neg fun σ => ¬ P σ := by
  refine ⟨l.var_neg ▸ hl.1, fun σ hσ => ?_⟩
  show l.neg.holds σ = true ↔ ¬ P σ
  rw [Lit.holds_neg, Bool.not_eq_true', ← hl.2 σ hσ, Bool.not_eq_true]

end Denotes

/-! Literals that denote one condition each. -/

section literals

variable {ι : Type} {K : ι → (Nat → Bool) → Prop} {xs : List ι} {ls : List Lit}

theorem known_of_denotes (h : List.Forall₂ (fun x l => b.Denotes f l (K x)) xs ls) : ∀ l ∈ ls, l.var < f.numVars := by
  induction h with
  | nil => simp
  | cons hx _ ih => exact List.forall_mem_cons.2 ⟨hx.1, ih⟩

theorem forall_holds_iff (h : List.Forall₂ (fun x l => b.Denotes f l (K x)) xs ls) (hσ : b.Sat f σ) :
    (∀ l ∈ ls, l.holds σ = true) ↔ ∀ x ∈ xs, K x σ := by
  induction h with
  | nil => simp
  | cons hx _ ih => rw [List.forall_mem_cons, List.forall_mem_cons, hx.2 σ hσ, ih]

theorem exists_holds_iff (h : List.Forall₂ (fun x l => b.Denotes f l (K x)) xs ls) (hσ : b.Sat f σ) :
    (∃ l ∈ ls, l.holds σ = true) ↔ ∃ x ∈ xs, K x σ := by
  induction h with
  | nil => simp
  | cons hx _ ih => simp only [List.mem_cons, exists_eq_or_imp, hx.2 σ hσ, ih]

end literals

namespace Restricts

variable {C D : (Nat → Bool) → Prop}

theorem refl (hf : b.Fits f) : b.Extends f f where
  le := Cnf.le_refl f
  fits := hf
  sound _ _ := trivial
  complete σ hσ _ := ⟨σ, Agree.refl _ _, hσ⟩

theorem trans (hfg : b.Restricts C f g) (hgh : b.Restricts D g h)
    (hD : ∀ σ τ, Agree f.numVars σ τ → D σ → D τ) : b.Restricts (fun σ => C σ ∧ D σ) f h where
  le := Cnf.le_trans hfg.le hgh.le
  fits := hgh.fits
  sound τ hτ := ⟨hfg.sound τ (hτ.mono hgh.le), hgh.sound τ hτ⟩
  complete σ hσ hC := by
    obtain ⟨τ, hστ, hτ⟩ := hfg.complete σ hσ hC.1
    obtain ⟨υ, hτυ, hυ⟩ := hgh.complete τ hτ (hD σ τ hστ hC.2)
    exact ⟨υ, hστ.trans (hτυ.mono hfg.le.1), hυ⟩

theorem extend (hfg : b.Extends f g) (hgh : b.Extends g h) : b.Extends f h where
  le := Cnf.le_trans hfg.le hgh.le
  fits := hgh.fits
  sound _ _ := trivial
  complete σ hσ _ := by
    obtain ⟨τ, hστ, hτ⟩ := hfg.complete σ hσ trivial
    obtain ⟨υ, hτυ, hυ⟩ := hgh.complete τ hτ trivial
    exact ⟨υ, hστ.trans (hτυ.mono hfg.le.1), hυ⟩

/-- A condition that holds anyway is none. -/
theorem extends_of (h : b.Restricts C f g) (hC : ∀ σ, b.Sat f σ → C σ) : b.Extends f g where
  le := h.le
  fits := h.fits
  sound _ _ := trivial
  complete σ hσ _ := h.complete σ hσ (hC σ hσ)

theorem congr (h : b.Restricts C f g) (hCD : ∀ σ, C σ ↔ D σ) : b.Restricts D f g where
  le := h.le
  fits := h.fits
  sound τ hτ := (hCD τ).1 (h.sound τ hτ)
  complete σ hσ hD := h.complete σ hσ ((hCD σ).2 hD)

end Restricts

/-- Nothing is written yet. -/
def start : Basis where
  numVars := 0
  size := 0
  holds _ := True
  local_holds _ _ := trivial

theorem sat_start : start.Sat f σ ↔ f.satisfiedBy σ := by
  rw [Cnf.satisfiedBy_iff]
  exact and_iff_right trivial

theorem fits_start : start.Fits ({} : Cnf) where
  numVars_le := Nat.le_refl _
  size_le := Nat.le_refl _
  known := by simp

/-- A fresh variable with clauses that tie it to a condition on the old ones is a definition: it
denotes the condition, and says nothing of the old variables. -/
theorem define (hf : b.Fits f) {cs : List (List Lit)} {P : (Nat → Bool) → Prop}
    (hcs : ∀ c ∈ cs, ∀ l ∈ c, l.var < f.numVars + 1)
    (hP : ∀ σ τ, Agree f.numVars σ τ → (P σ ↔ P τ))
    (hiff : ∀ σ, Models cs σ ↔ (σ f.numVars = true ↔ P σ)) :
    b.Extends f (f.fresh.2.addAll cs) ∧
      b.Denotes (f.fresh.2.addAll cs) (.positive f.numVars) P := by
  have hfresh : b.Fits f.fresh.2 := hf.fresh
  have hnum : (f.fresh.2.addAll cs).numVars = f.numVars + 1 := Cnf.numVars_addAll hcs
  refine ⟨⟨Cnf.le_trans (le_fresh f) (le_addAll hcs), hfresh.addAll hcs, fun _ _ => trivial,
    fun σ hσ _ => ?_⟩, by simp [hnum], fun σ hσ => ?_⟩
  · classical
    have hagree := Agree.update f.numVars σ (decide (P σ))
    have hτ := hσ.congr hf hagree
    refine ⟨_, hagree, (sat_addAll hfresh).2 ⟨hτ, (hiff _).2 ?_⟩⟩
    rw [Function.update_self, decide_eq_true_eq]
    exact hP _ _ hagree
  · rw [Lit.holds_positive]
    exact (hiff σ).1 ((sat_addAll hfresh).1 hσ).2

end Basis

end Countermodels
