import Countermodels.Cnf.Gates
import Countermodels.Proofs.Cnf.Basis

/-! What a request to the gates comes to. Folding constants, clashes and signs away leaves a literal that is there already,
or a gate: a conjunction in a fixed order, or the biconditional of two variables. Folding does not look at the tables, so
whatever holds of it holds at all times. The tables come in after it: a gate that is found gives its literal, and any other
gate gets a fresh one with the clauses that tie it to its inputs. -/

namespace Countermodels

namespace Lit

@[simp] theorem var_flip (l : Lit) (b : Bool) : (l.flip b).var = l.var := by cases b <;> simp [flip]

theorem flip_not (l : Lit) (b : Bool) : l.flip (!b) = (l.flip b).neg := by cases b <;> simp [flip]

theorem holds_flip (l : Lit) (b : Bool) (σ : Nat → Bool) :
    (l.flip b).holds σ = true ↔ (l.holds σ = true ↔ b = false) := by
  cases b <;> simp [flip]

end Lit

namespace Emit

variable (f : Cnf)

theorem run_clause (c : List Lit) : clause c f = ((), f.addAll [c]) := rfl

theorem run_implyAll (y : Lit) (xs : List Lit) :
    implyAll y xs f = ((), f.addAll (xs.map fun x => [y.neg, x])) := by
  induction xs generalizing f with
  | nil => rfl
  | cons x xs ih => exact ih (f.add [y.neg, x])

theorem run_iffAll (y : Lit) (xs : List Lit) :
    iffAll y xs f = ((), f.addAll (xs.map (fun x => [y.neg, x]) ++ [y :: xs.map Lit.neg])) := by
  rw [← Cnf.addAll_append]
  show clause _ (implyAll y xs f).2 = _
  rw [run_implyAll, run_clause]

theorem models_implyAll {y : Lit} {xs : List Lit} {σ : Nat → Bool} :
    Models (xs.map fun x => [y.neg, x]) σ ↔ (y.holds σ = true → ∀ x ∈ xs, x.holds σ = true) := by
  rw [Models, List.forall_mem_map]
  cases hy : y.holds σ <;> simp [Lit.anyHolds, hy]

theorem models_iffAll {y : Lit} {xs : List Lit} {σ : Nat → Bool} :
    Models (xs.map (fun x => [y.neg, x]) ++ [y :: xs.map Lit.neg]) σ ↔
      (y.holds σ = true ↔ ∀ x ∈ xs, x.holds σ = true) := by
  rw [models_append, models_singleton, models_implyAll,
    iff_iff_implies_and_implies (a := y.holds σ = true)]
  refine and_congr_right fun _ => ?_
  cases hy : y.holds σ <;> simp [Lit.anyHolds, hy]

theorem models_iffIff {y a c : Lit} {σ : Nat → Bool} :
    Models [[y.neg, a.neg, c], [y.neg, c.neg, a], [y, a.neg, c.neg], [y, a, c]] σ ↔
      (y.holds σ = true ↔ a.holds σ = c.holds σ) := by
  simp only [Models, List.forall_mem_cons, Lit.anyHolds, List.any_cons, List.any_nil, Lit.holds_neg]
  cases y.holds σ <;> cases a.holds σ <;> cases c.holds σ <;> simp

end Emit

/-- What a fresh literal is defined by: the conjunction of a list, or the biconditional of two literals. -/
inductive Gate where
  | all (lits : List Lit)
  | same (a b : Lit)
  deriving DecidableEq

namespace Gate

variable {k : Gate} {y : Lit} {n : Nat} {σ τ : Nat → Bool}

def inputs : Gate → List Lit
  | all lits => lits
  | same a b => [a, b]

def Holds (σ : Nat → Bool) : Gate → Prop
  | all lits => ∀ l ∈ lits, l.holds σ = true
  | same a b => a.holds σ = b.holds σ

/-- The clauses that tie a literal to a gate. -/
def clauses (y : Lit) : Gate → List (List Lit)
  | all lits => lits.map (fun l => [y.neg, l]) ++ [y :: lits.map Lit.neg]
  | same a b => [[y.neg, a.neg, b], [y.neg, b.neg, a], [y, a.neg, b.neg], [y, a, b]]

/-- The biconditional of the variables of two literals, the smaller variable first. -/
def ofVars (a b : Lit) : Gate :=
  if a.var < b.var then same (.positive a.var) (.positive b.var) else same (.positive b.var) (.positive a.var)

theorem holds_ofVars (a b : Lit) : (ofVars a b).Holds σ ↔ σ a.var = σ b.var := by
  unfold ofVars
  split
  · simp [Holds]
  · simp [Holds, eq_comm]

theorem known_ofVars {a b : Lit} (ha : a.var < n) (hb : b.var < n) : ∀ l ∈ (ofVars a b).inputs, l.var < n := by
  unfold ofVars
  split
  · simp [inputs, ha, hb]
  · simp [inputs, ha, hb]

theorem ofVars_comm {a b : Lit} (h : a.var ≠ b.var) : ofVars a b = ofVars b a := by
  unfold ofVars
  split
  · rw [if_neg (by omega)]
  · rw [if_pos (by omega)]

theorem models_clauses : Models (k.clauses y) σ ↔ (y.holds σ = true ↔ k.Holds σ) := by
  cases k with
  | all lits => exact Emit.models_iffAll
  | same a b => exact Emit.models_iffIff

theorem known_clauses (hk : ∀ l ∈ k.inputs, l.var < n) (hy : y.var < n) :
    ∀ c ∈ k.clauses y, ∀ l ∈ c, l.var < n := by
  cases k with
  | all lits =>
    simp only [inputs] at hk
    simp only [clauses, List.forall_mem_append, List.forall_mem_map, List.forall_mem_cons, Lit.var_neg, hy,
      List.not_mem_nil, IsEmpty.forall_iff, implies_true, and_true, true_and]
    exact ⟨hk, hk⟩
  | same a b =>
    simp only [inputs, List.forall_mem_cons, List.not_mem_nil, IsEmpty.forall_iff, implies_true, and_true] at hk
    simp [clauses, hk, hy]

/-- With the next variable as its literal, a gate speaks of no other new variable. -/
theorem known_clauses_positive (hk : ∀ l ∈ k.inputs, l.var < n) :
    ∀ c ∈ k.clauses (.positive n), ∀ l ∈ c, l.var < n + 1 :=
  known_clauses (fun l hl => Nat.lt_succ_of_lt (hk l hl)) (by simp)

theorem holds_congr (hk : ∀ l ∈ k.inputs, l.var < n) (h : Agree n σ τ) : k.Holds σ ↔ k.Holds τ := by
  cases k with
  | all lits => exact forall₂_congr fun l hl => by rw [h.holds (hk l hl)]
  | same a b =>
    rw [Holds, Holds, h.holds (hk a List.mem_cons_self), h.holds (hk b (List.mem_cons_of_mem _ List.mem_cons_self))]

end Gate

/-- What gates are asked for. -/
inductive Request where
  | and (xs : List Lit)
  | or (xs : List Lit)
  | iff (a b : Lit)

namespace Request

def inputs : Request → List Lit
  | and xs | or xs => xs
  | iff a b => [a, b]

def Holds (σ : Nat → Bool) : Request → Prop
  | and xs => ∀ x ∈ xs, x.holds σ = true
  | or xs => ∃ x ∈ xs, x.holds σ = true
  | iff a b => a.holds σ = b.holds σ

end Request

/-- A literal that is there, or a gate, negated or not. -/
inductive Folded where
  | lit (l : Lit)
  | gate (k : Gate) (negated : Bool)

namespace Folded

def inputs : Folded → List Lit
  | lit l => [l]
  | gate k _ => k.inputs

def neg : Folded → Folded
  | lit l => lit l.neg
  | gate k negated => gate k !negated

def Holds (σ : Nat → Bool) : Folded → Prop
  | lit l => l.holds σ = true
  | gate k negated => k.Holds σ ↔ negated = false

theorem holds_neg (F : Folded) (σ : Nat → Bool) : F.neg.Holds σ ↔ ¬ F.Holds σ := by
  cases F with
  | lit l => simp [neg, Holds]
  | gate k negated => cases negated <;> simp [neg, Holds]

end Folded

namespace Gates

section normalize

theorem normalize_eq_dedup (xs : List Lit) :
    normalize xs = (xs.mergeSort (fun l m => l.neg.code ≤ m.neg.code)).dedup :=
  Lit.eraseReps_mergeSort (fun l => l.neg.code) (fun _ _ h => Lit.neg_inj.1 (Lit.code_injective h)) xs

theorem mem_normalize {l : Lit} {xs : List Lit} : l ∈ normalize xs ↔ l ∈ xs := by
  rw [normalize_eq_dedup, List.mem_dedup, List.mem_mergeSort]

/-- The same literals in any order and number have one normal form. -/
theorem normalize_congr {xs ys : List Lit} (h : ∀ l, l ∈ xs ↔ l ∈ ys) : normalize xs = normalize ys := by
  rw [normalize_eq_dedup, normalize_eq_dedup]
  exact Lit.dedup_mergeSort_congr (fun l => l.neg.code) (fun _ _ h => Lit.neg_inj.1 (Lit.code_injective h)) h

theorem isChain_normalize (xs : List Lit) : (normalize xs).IsChain (· ≠ ·) := by
  rw [normalize_eq_dedup]
  exact (List.nodup_iff_pairwise_ne.1 (List.nodup_dedup _)).isChain

/-- Two neighbours that share a variable are a literal and its negation. -/
theorem exists_neg_of_hasClash {lits : List Lit} (hne : lits.IsChain (· ≠ ·))
    (h : hasClash lits = true) : ∃ l ∈ lits, l.neg ∈ lits := by
  fun_induction hasClash lits with
  | case1 l m ls ih =>
    rw [List.isChain_cons_cons] at hne
    rcases Bool.or_eq_true _ _ ▸ h with h | h
    · rcases Lit.eq_or_eq_neg_of_var_eq (of_decide_eq_true h) with he | he
      · exact absurd he hne.1
      · exact ⟨m, by simp, by simp [he]⟩
    · obtain ⟨k, hk, hk'⟩ := ih hne.2 h
      exact ⟨k, List.mem_cons_of_mem _ hk, List.mem_cons_of_mem _ hk'⟩
  | case2 => simp at h

end normalize

/-- What is left of a conjunction. -/
def foldAnd (top : Lit) (xs : List Lit) : Folded :=
  if top.neg ∈ xs then .lit top.neg
  else
    let lits := normalize (xs.filter (· ≠ top))
    if hasClash lits then .lit top.neg
    else
      match lits with
      | [] => .lit top
      | [x] => .lit x
      | _ => .gate (.all lits) false

/-- What is left of a biconditional. -/
def foldIff (top a b : Lit) : Folded :=
  if a = b then .lit top
  else if a = b.neg then .lit top.neg
  else if a.var = top.var then .lit (if a = top then b else b.neg)
  else if b.var = top.var then .lit (if b = top then a else a.neg)
  else .gate (.ofVars a b) (a.negated != b.negated)

end Gates

/-- What is left of a request. -/
def Request.fold (top : Lit) : Request → Folded
  | .and xs => Gates.foldAnd top xs
  | .or xs => (Gates.foldAnd top (xs.map Lit.neg)).neg
  | .iff a b => Gates.foldIff top a b

/-! Folding keeps the meaning where the constant is true. -/

section fold

variable {top : Lit} {σ : Nat → Bool} {n : Nat} {r : Request}

theorem Gates.mem_foldable {xs : List Lit} {l : Lit} :
    l ∈ normalize (xs.filter (· ≠ top)) ↔ l ∈ xs ∧ l ≠ top := by
  simp [mem_normalize]

theorem Gates.foldAnd_holds (htop : top.holds σ = true) (xs : List Lit) :
    (foldAnd top xs).Holds σ ↔ ∀ x ∈ xs, x.holds σ = true := by
  -- dropping the literal that is true changes nothing
  have hsame : (∀ l ∈ normalize (xs.filter (· ≠ top)), l.holds σ = true) ↔ ∀ x ∈ xs, x.holds σ = true := by
    refine ⟨fun h x hx => ?_, fun h l hl => h l (mem_foldable.1 hl).1⟩
    by_cases he : x = top
    · exact he ▸ htop
    · exact h x (mem_foldable.2 ⟨hx, he⟩)
  have hchain := isChain_normalize (xs.filter (· ≠ top))
  unfold foldAnd
  split
  · next hbot =>
    refine iff_of_false (by simp [Folded.Holds, htop]) fun h => ?_
    simpa [htop] using h _ hbot
  rw [← hsame]
  generalize normalize (xs.filter (· ≠ top)) = lits at hchain
  dsimp only
  split
  · next hclash =>
    obtain ⟨l, hl, hl'⟩ := exists_neg_of_hasClash hchain hclash
    refine iff_of_false (by simp [Folded.Holds, htop]) fun h => ?_
    simpa [h l hl] using h _ hl'
  split
  · simp [Folded.Holds, htop]
  · simp [Folded.Holds]
  · simp [Folded.Holds, Gate.Holds]

theorem Gates.foldIff_holds (htop : top.holds σ = true) (a b : Lit) :
    (foldIff top a b).Holds σ ↔ a.holds σ = b.holds σ := by
  have hconstant : ∀ {c l : Lit}, c.var = top.var →
      ((if c = top then l else l.neg).holds σ = true ↔ c.holds σ = l.holds σ) := by
    intro c l hc
    split
    · next h => simp [h, htop]
    · next h =>
      have hneg := (Lit.eq_or_eq_neg_of_var_eq hc).resolve_left h
      simp [hneg, htop]
  unfold foldIff
  split
  · next h => simp [Folded.Holds, h, htop]
  split
  · next h => simp [Folded.Holds, h, htop]
  split
  · next h => exact hconstant h
  split
  · next h => exact (hconstant h).trans eq_comm
  rw [Folded.Holds, Gate.holds_ofVars, Lit.holds, Lit.holds]
  cases a.negated <;> cases b.negated <;> cases σ a.var <;> cases σ b.var <;> simp

theorem Request.fold_holds (htop : top.holds σ = true) (r : Request) : (r.fold top).Holds σ ↔ r.Holds σ := by
  cases r with
  | and xs => exact Gates.foldAnd_holds htop xs
  | or xs =>
    rw [fold, Folded.holds_neg, Gates.foldAnd_holds htop]
    simp [Holds]
  | iff a b => exact Gates.foldIff_holds htop a b

/-! Folding brings in no variable but that of the constant. -/

theorem Folded.known_neg {F : Folded} (h : ∀ l ∈ F.inputs, l.var < n) : ∀ l ∈ F.neg.inputs, l.var < n := by
  cases F with
  | lit l =>
    simp only [inputs, List.forall_mem_singleton] at h
    simpa [neg, inputs] using h
  | gate k negated => exact h

theorem Gates.foldAnd_known {xs : List Lit} (htop : top.var < n) (hxs : ∀ x ∈ xs, x.var < n) :
    ∀ l ∈ (foldAnd top xs).inputs, l.var < n := by
  have hlits : ∀ l ∈ normalize (xs.filter (· ≠ top)), l.var < n := fun l hl => hxs l (mem_foldable.1 hl).1
  unfold foldAnd
  split
  · simpa [Folded.inputs] using htop
  generalize normalize (xs.filter (· ≠ top)) = lits at hlits
  dsimp only
  split
  · simpa [Folded.inputs] using htop
  split
  · simpa [Folded.inputs] using htop
  · exact hlits
  · exact hlits

theorem Gates.foldIff_known {a b : Lit} (htop : top.var < n) (ha : a.var < n) (hb : b.var < n) :
    ∀ l ∈ (foldIff top a b).inputs, l.var < n := by
  have hlit : ∀ {l : Lit}, l.var < n → ∀ l' ∈ (Folded.lit l).inputs, l'.var < n := by simp [Folded.inputs]
  unfold foldIff
  split
  · exact hlit htop
  split
  · exact hlit (by simpa using htop)
  split
  · exact hlit (by split <;> simpa using hb)
  split
  · exact hlit (by split <;> simpa using ha)
  exact Gate.known_ofVars ha hb

theorem Request.fold_known (htop : top.var < n) (hr : ∀ l ∈ r.inputs, l.var < n) :
    ∀ l ∈ (r.fold top).inputs, l.var < n := by
  cases r with
  | and xs => exact Gates.foldAnd_known htop hr
  | or xs => exact Folded.known_neg (Gates.foldAnd_known htop (by simpa [inputs] using hr))
  | iff a b =>
    simp only [inputs, List.forall_mem_cons] at hr
    exact Gates.foldIff_known htop hr.1 hr.2.1

end fold

namespace Gates

variable {σ : Type} [Sink σ] {g : Gates} {f : Cnf} {F : Folded} {k : Gate} {y : Lit}

def ask (g : Gates) : Request → StateM σ (Lit × Gates)
  | .and xs => g.and xs
  | .or xs => g.or xs
  | .iff a b => g.iff a b

/-- The literal of a gate that was made. -/
def find? (g : Gates) : Gate → Option Lit
  | .all lits => g.ands[lits]?
  | .same a b => g.iffs[(a, b)]?

def insert (g : Gates) (y : Lit) : Gate → Gates
  | .all lits => { g with ands := g.ands.insert lits y }
  | .same a b => { g with iffs := g.iffs.insert (a, b) y }

@[simp] theorem top_insert (g : Gates) (y : Lit) (k : Gate) : (g.insert y k).top = g.top := by cases k <;> rfl

theorem find?_insert (g : Gates) (y : Lit) (k k' : Gate) :
    (g.insert y k).find? k' = if k = k' then some y else g.find? k' := by
  cases k <;> cases k' <;> simp [insert, find?, Std.HashMap.getElem?_insert]

/-- The literal that there is for what is left of a request. -/
def value? (g : Gates) : Folded → Option Lit
  | .lit l => some l
  | .gate k negated => (g.find? k).map (·.flip negated)

/-- The literal for what is left of a request, with a gate that is made if it is not there. -/
def realize (g : Gates) (f : Cnf) : Folded → (Lit × Gates) × Cnf
  | .lit l => ((l, g), f)
  | .gate k negated =>
    match g.find? k with
    | some y => ((y.flip negated, g), f)
    | none =>
      let y := Lit.positive f.numVars
      ((y.flip negated, g.insert y k), f.fresh.2.addAll (k.clauses y))

/-- The opposite reply, with all else the same. -/
def opposite (r : (Lit × Gates) × Cnf) : (Lit × Gates) × Cnf := ((r.1.1.neg, r.1.2), r.2)

theorem realize_neg (g : Gates) (f : Cnf) (F : Folded) : g.realize f F.neg = opposite (g.realize f F) := by
  cases F with
  | lit l => rfl
  | gate k negated =>
    simp only [Folded.neg, realize]
    cases g.find? k with
    | some y => simp [opposite, Lit.flip_not]
    | none => simp [opposite, Lit.flip_not]

theorem and_eq (g : Gates) (xs : List Lit) (f : Cnf) : g.and xs f = g.realize f (foldAnd g.top xs) := by
  unfold and foldAnd
  by_cases hbot : g.top.neg ∈ xs
  · rw [if_pos hbot, if_pos hbot]
    rfl
  rw [if_neg hbot, if_neg hbot]
  generalize normalize (xs.filter (· ≠ g.top)) = lits
  dsimp only
  by_cases hclash : hasClash lits = true
  · rw [if_pos hclash, if_pos hclash]
    rfl
  rw [if_neg hclash, if_neg hclash]
  rcases lits with _ | ⟨x, _ | ⟨x', ls⟩⟩
  · rfl
  · rfl
  dsimp only [realize, find?]
  cases g.ands[x :: x' :: ls]? with
  | some y => rfl
  | none =>
    show ((Lit.positive f.numVars, _), (Emit.iffAll _ (x :: x' :: ls) f.fresh.2).2) = _
    rw [Emit.run_iffAll]
    rfl

theorem iffVars_eq (g : Gates) (a b : Lit) (f : Cnf) : g.iffVars a b f = g.realize f (.gate (.ofVars a b) false) := by
  obtain ⟨u, v, hkey, hgate⟩ : ∃ u v, (if a.var < b.var then (Lit.positive a.var, Lit.positive b.var)
      else (Lit.positive b.var, Lit.positive a.var)) = (u, v) ∧ Gate.ofVars a b = .same u v := by
    unfold Gate.ofVars
    split
    · exact ⟨_, _, rfl, rfl⟩
    · exact ⟨_, _, rfl, rfl⟩
  unfold iffVars
  rw [hkey, hgate]
  dsimp only [realize, find?]
  cases g.iffs[(u, v)]? with
  | some y => rfl
  | none => rfl

theorem realize_flip (g : Gates) (f : Cnf) (k : Gate) (negated : Bool) :
    (((g.realize f (.gate k false)).1.1.flip negated, (g.realize f (.gate k false)).1.2), (g.realize f (.gate k false)).2) =
      g.realize f (.gate k negated) := by
  simp only [realize]
  cases g.find? k with
  | some y => rfl
  | none => rfl

theorem iff_eq (g : Gates) (a b : Lit) (f : Cnf) : g.iff a b f = g.realize f (foldIff g.top a b) := by
  unfold iff foldIff
  by_cases hab : a = b
  · rw [if_pos hab, if_pos hab]
    rfl
  rw [if_neg hab, if_neg hab]
  by_cases hneg : a = b.neg
  · rw [if_pos hneg, if_pos hneg]
    rfl
  rw [if_neg hneg, if_neg hneg]
  by_cases ha : a.var = g.top.var
  · rw [if_pos ha, if_pos ha]
    rfl
  rw [if_neg ha, if_neg ha]
  by_cases hb : b.var = g.top.var
  · rw [if_pos hb, if_pos hb]
    rfl
  rw [if_neg hb, if_neg hb, ← realize_flip, ← iffVars_eq]
  rfl

/-- Every request is folded first, and then looked up or made. -/
theorem ask_eq (g : Gates) (r : Request) (f : Cnf) : g.ask r f = g.realize f (r.fold g.top) := by
  cases r with
  | and xs => exact and_eq g xs f
  | or xs =>
    rw [Request.fold, realize_neg, ← and_eq]
    rfl
  | iff a b => exact iff_eq g a b f

/-- What using the gates can come to: nothing is written, or one variable is made with the clauses that define it. -/
theorem realize_cases (g : Gates) (F : Folded) :
    (∃ y, g.value? F = some y ∧ ∀ f, g.realize f F = ((y, g), f)) ∨
    ∃ k negated, F = .gate k negated ∧ g.find? k = none ∧ ∀ f : Cnf, g.realize f F =
      (((Lit.positive f.numVars).flip negated, g.insert (.positive f.numVars) k),
        f.fresh.2.addAll (k.clauses (.positive f.numVars))) := by
  cases F with
  | lit l => exact .inl ⟨l, rfl, fun _ => rfl⟩
  | gate k negated =>
    cases hfind : g.find? k with
    | some y => exact .inl ⟨y.flip negated, by simp [value?, hfind], fun f => by simp [realize, hfind]⟩
    | none => exact .inr ⟨k, negated, rfl, hfind, fun f => by simp [realize, hfind]⟩

theorem realize_of_value? (hy : g.value? F = some y) : g.realize f F = ((y, g), f) := by
  obtain ⟨z, hz, hrun⟩ | ⟨k, negated, rfl, hnone, -⟩ := g.realize_cases F
  · rw [hrun, Option.some.inj (hz.symm.trans hy)]
  · simp [value?, hnone] at hy

/-- What was realized is found afterwards. -/
theorem value?_realize (g : Gates) (f : Cnf) (F : Folded) :
    (g.realize f F).1.2.value? F = some (g.realize f F).1.1 := by
  obtain ⟨y, hy, hrun⟩ | ⟨k, negated, rfl, -, hrun⟩ := g.realize_cases F
  · rw [hrun]
    exact hy
  · rw [hrun]
    simp [value?, find?_insert]

end Gates

end Countermodels
