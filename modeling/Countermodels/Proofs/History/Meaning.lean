import Countermodels.History.Meaning
import Countermodels.Proofs.Formula.Subformulas
import Countermodels.Proofs.Gives
import Countermodels.Theory

/-! What the modal and tense operators mean: truth on a history at a time, among a set of histories. The
evaluator goes through the histories and the times one by one and finds just this. -/

namespace Countermodels.History

/-- The formulas whose operators are primitive and whose letters are among the given ones. -/
inductive Sentence (letters : List Atom) : Formula → Prop
  | atom {a : Atom} (ha : a ∈ letters) : Sentence letters (.atom a)
  | top : Sentence letters .top
  | bot : Sentence letters .bot
  | neg {a : Formula} (ha : Sentence letters a) : Sentence letters (.unary .neg a)
  | box {a : Formula} (ha : Sentence letters a) : Sentence letters (.unary .box a)
  | diamond {a : Formula} (ha : Sentence letters a) : Sentence letters (.unary .diamond a)
  | future {a : Formula} (ha : Sentence letters a) : Sentence letters (.unary .future a)
  | someFuture {a : Formula} (ha : Sentence letters a) : Sentence letters (.unary .someFuture a)
  | past {a : Formula} (ha : Sentence letters a) : Sentence letters (.unary .past a)
  | somePast {a : Formula} (ha : Sentence letters a) : Sentence letters (.unary .somePast a)
  | and {a b : Formula} (ha : Sentence letters a) (hb : Sentence letters b) : Sentence letters (.binary .and a b)
  | or {a b : Formula} (ha : Sentence letters a) (hb : Sentence letters b) : Sentence letters (.binary .or a b)

theorem Sentence.of_over {letters : List Atom} {f : Formula} (h : f.Over Theory.bimodal.primitives letters) :
    Sentence letters f := by
  induction f with
  | atom a => exact .atom (Formula.over_atom.1 h)
  | top => exact .top
  | bot => exact .bot
  | unary op a ih =>
    obtain ⟨hop, ha⟩ := Formula.over_unary.1 h
    cases op with
    | neg => exact .neg (ih ha)
    | box => exact .box (ih ha)
    | diamond => exact .diamond (ih ha)
    | future => exact .future (ih ha)
    | someFuture => exact .someFuture (ih ha)
    | past => exact .past (ih ha)
    | somePast => exact .somePast (ih ha)
    | _ => exact absurd hop (by decide)
  | binary op a b iha ihb =>
    obtain ⟨hop, ha, hb⟩ := Formula.over_binary.1 h
    cases op with
    | and => exact .and (iha ha) (ihb hb)
    | or => exact .or (iha ha) (ihb hb)
    | _ => exact absurd hop (by decide)

section runs

variable {test : Nat → Except Failure Bool} {P : Nat → Prop}

/-- A test that gives an answer at every place is made at all of them, up to the first where it fails. -/
theorem allFrom_gives (i count : Nat)
    (h : ∀ j, i ≤ j → j < i + count → Gives (test j) fun b => b = true ↔ P j) :
    Gives (allFrom test i count) fun b => b = true ↔ ∀ j, i ≤ j → j < i + count → P j := by
  induction count generalizing i with
  | zero =>
    apply Gives.ok
    simp only [true_iff]
    intro j hj hlt
    omega
  | succ count ih =>
    rw [allFrom]
    apply (h i (Nat.le_refl i) (by omega)).bind
    intro b hb
    cases b with
    | false =>
      apply Gives.pure
      simp only [Bool.false_eq_true, false_iff] at hb ⊢
      intro hall
      exact hb (hall i (Nat.le_refl i) (by omega))
    | true =>
      have hi : P i := hb.1 rfl
      apply (ih (i + 1) fun j hj hlt => h j (by omega) (by omega)).imp
      intro b hb
      rw [hb]
      constructor
      · intro hall j hj hlt
        rcases Nat.eq_or_lt_of_le hj with rfl | hj
        · exact hi
        · exact hall j hj (by omega)
      · intro hall j hj hlt
        exact hall j (by omega) (by omega)

theorem someFrom_gives (i count : Nat)
    (h : ∀ j, i ≤ j → j < i + count → Gives (test j) fun b => b = true ↔ P j) :
    Gives (someFrom test i count) fun b => b = true ↔ ∃ j, i ≤ j ∧ j < i + count ∧ P j := by
  have hnot : ∀ j, i ≤ j → j < i + count → Gives (do return !(← test j)) fun b => b = true ↔ ¬ P j := by
    intro j hj hlt
    apply (h j hj hlt).bind
    intro b hb
    apply Gives.pure
    rw [Bool.not_eq_true', ← hb, Bool.not_eq_true]
  apply (allFrom_gives i count hnot).bind
  intro b hb
  apply Gives.pure
  rw [Bool.not_eq_true', ← Bool.not_eq_true, hb]
  push Not
  rfl

end runs

namespace Model

/-- Truth on a history at a time. The set of histories matters, not the order in which they are listed. -/
def Holds (m : Model) : Formula → List State → Nat → Prop
  | .atom a, h, t => ∃ states s, m.valuation.meaning? a = some states ∧ h[t]? = some s ∧ s ∈ states
  | .top, _, _ => True
  | .unary .neg a, h, t => ¬ m.Holds a h t
  | .unary .box a, _, t => ∀ h ∈ m.histories, m.Holds a h t
  | .unary .diamond a, _, t => ∃ h ∈ m.histories, m.Holds a h t
  | .unary .future a, h, t => ∀ u, t < u → u < 2 * m.m - 1 → m.Holds a h u
  | .unary .someFuture a, h, t => ∃ u, t < u ∧ u < 2 * m.m - 1 ∧ m.Holds a h u
  | .unary .past a, h, t => ∀ u < t, m.Holds a h u
  | .unary .somePast a, h, t => ∃ u < t, m.Holds a h u
  | .binary .and a b, h, t => m.Holds a h t ∧ m.Holds b h t
  | .binary .or a b, h, t => m.Holds a h t ∨ m.Holds b h t
  | _, _, _ => False

/-- There is a present, the times can be counted, and every history has a state at each of them. -/
structure Timed (m : Model) : Prop where
  pos : 1 ≤ m.m
  word : 2 * m.m < 2 ^ 64
  length : ∀ h ∈ m.histories, h.length = 2 * m.m - 1

variable {m : Model} {letters : List Atom} {f : Formula}

theorem numLater_eq (hm : m.Timed) {t : Nat} (ht : t < 2 * m.m - 1) : m.numLater t = .ok (2 * m.m - 1 - (t + 1)) := by
  have hpos := hm.pos
  have hword := hm.word
  have hlimit : (1 <<< 64 : Nat) = 2 ^ 64 := rfl
  rw [numLater, if_neg (by omega), numTimes, if_neg (by omega)]
  rfl

/-- Something is true of the history with a number. -/
def At (m : Model) (i : Nat) (P : List State → Prop) : Prop := ∃ h, m.histories[i]? = some h ∧ P h

theorem at_iff {i : Nat} {h : List State} {P : List State → Prop} (hi : m.histories[i]? = some h) : m.At i P ↔ P h := by
  simp [At, hi]

theorem exists_at {i : Nat} (hi : i < m.histories.length) : ∃ h, m.histories[i]? = some h :=
  ⟨_, List.getElem?_eq_getElem hi⟩

theorem forall_at_iff {P : List State → Prop} :
    (∀ i < m.histories.length, m.At i P) ↔ ∀ h ∈ m.histories, P h := by
  constructor
  · intro hall h hh
    obtain ⟨i, hi, rfl⟩ := List.getElem_of_mem hh
    exact (at_iff (List.getElem?_eq_getElem hi)).1 (hall i hi)
  · intro hall i hi
    exact ⟨_, List.getElem?_eq_getElem hi, hall _ (List.getElem_mem hi)⟩

theorem exists_at_iff {P : List State → Prop} :
    (∃ i, i < m.histories.length ∧ m.At i P) ↔ ∃ h ∈ m.histories, P h := by
  constructor
  · rintro ⟨i, -, h, hi, hP⟩
    exact ⟨h, List.mem_of_getElem? hi, hP⟩
  · rintro ⟨h, hh, hP⟩
    obtain ⟨i, hi, rfl⟩ := List.getElem_of_mem hh
    exact ⟨i, hi, (at_iff (List.getElem?_eq_getElem hi)).2 hP⟩

/-- The evaluator answers at every place, and says what holds there. -/
theorem isTrue_gives (hm : m.Timed) (hf : Sentence letters f) {i t : Nat} {h : List State}
    (hi : m.histories[i]? = some h) (ht : t < 2 * m.m - 1) :
    Gives (m.isTrue f i t) fun b => b = true ↔ m.Holds f h t := by
  induction hf generalizing i t h with
  | @atom a _ =>
    have hlen := hm.length h (List.mem_of_getElem? hi)
    have hstate : h[t]? = some (h.get ⟨t, hlen ▸ ht⟩) := List.getElem?_eq_getElem _
    rw [isTrue]
    cases hmeaning : m.valuation.meaning? a with
    | none =>
      apply Gives.ok
      simp [Holds, hmeaning]
    | some states =>
      have hread : m.stateAt i t = .ok (h.get ⟨t, hlen ▸ ht⟩) := by
        simp [stateAt, hi, hstate]
      rw [hread]
      apply Gives.ok
      simp [Holds, hmeaning, hstate]
  | top => exact .ok (by simp [Holds])
  | bot => exact .ok (by simp [Holds])
  | neg _ ih =>
    rw [isTrue]
    apply (ih hi ht).bind
    intro b hb
    apply Gives.pure
    rw [Holds, Bool.not_eq_true', ← hb, Bool.not_eq_true]
  | @box a _ ih =>
    rw [isTrue]
    apply (allFrom_gives (P := (m.At · (m.Holds a · t))) 0 m.histories.length fun j _ hj => ?_).imp
    · intro b hb
      simp only [hb, Nat.zero_le, Nat.zero_add, true_imp_iff, forall_at_iff, Holds]
    · obtain ⟨k, hk⟩ := exists_at (show j < m.histories.length by omega)
      exact (ih hk ht).imp fun b hb => by rw [hb, at_iff hk]
  | @diamond a _ ih =>
    rw [isTrue]
    apply (someFrom_gives (P := (m.At · (m.Holds a · t))) 0 m.histories.length fun j _ hj => ?_).imp
    · intro b hb
      simp only [hb, Nat.zero_le, Nat.zero_add, true_and, exists_at_iff, Holds]
    · obtain ⟨k, hk⟩ := exists_at (show j < m.histories.length by omega)
      exact (ih hk ht).imp fun b hb => by rw [hb, at_iff hk]
  | future _ ih =>
    have hend : t + 1 + (2 * m.m - 1 - (t + 1)) = 2 * m.m - 1 := by omega
    rw [isTrue, numLater_eq hm ht, ok_bind]
    apply (allFrom_gives (t + 1) _ fun u _ hu => ih hi (hend ▸ hu)).imp
    intro b hb
    rw [hb, hend, Holds]
    rfl
  | someFuture _ ih =>
    have hend : t + 1 + (2 * m.m - 1 - (t + 1)) = 2 * m.m - 1 := by omega
    rw [isTrue, numLater_eq hm ht, ok_bind]
    apply (someFrom_gives (t + 1) _ fun u _ hu => ih hi (hend ▸ hu)).imp
    intro b hb
    rw [hb, hend, Holds]
    rfl
  | past _ ih =>
    rw [isTrue]
    apply (allFrom_gives 0 t fun u _ hu => ih hi (by omega)).imp
    intro b hb
    simp [hb, Holds]
  | somePast _ ih =>
    rw [isTrue]
    apply (someFrom_gives 0 t fun u _ hu => ih hi (by omega)).imp
    intro b hb
    simp [hb, Holds]
  | and _ _ iha ihb =>
    rw [isTrue]
    apply (iha hi ht).bind
    intro b hb
    cases b with
    | false => exact .pure (by simp [Holds, ← hb])
    | true =>
      apply (ihb hi ht).imp
      intro c hc
      simp [Holds, ← hb, hc]
  | or _ _ iha ihb =>
    rw [isTrue]
    apply (iha hi ht).bind
    intro b hb
    cases b with
    | false =>
      apply (ihb hi ht).imp
      intro c hc
      simp [Holds, ← hb, hc]
    | true => exact .pure (by simp [Holds, ← hb])

end Model

end Countermodels.History
