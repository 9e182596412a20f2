import Countermodels.Table
import Mathlib

/-! Total correctness of computations that can break a promise: a computation gives a result with a
property, so in particular it breaks none. Steps are chained by `Gives.bind`. -/

namespace Countermodels

variable {ε α β : Type}

/-- The computation returns, and its result has the property. -/
def Gives (x : Except ε α) (P : α → Prop) : Prop := ∃ a, x = .ok a ∧ P a

namespace Gives

variable {x : Except ε α} {P Q : α → Prop} {R : β → Prop}

theorem ok {a : α} (h : P a) : Gives (.ok a : Except ε α) P := ⟨a, rfl, h⟩

theorem pure {a : α} (h : P a) : Gives (Pure.pure a : Except ε α) P := ⟨a, rfl, h⟩

theorem bind {f : α → Except ε β} (hx : Gives x P) (hf : ∀ a, P a → Gives (f a) R) :
    Gives (x >>= f) R := by
  obtain ⟨a, rfl, ha⟩ := hx
  exact hf a ha

theorem imp (hx : Gives x P) (h : ∀ a, P a → Q a) : Gives x Q := by
  obtain ⟨a, rfl, ha⟩ := hx
  exact ⟨a, rfl, h a ha⟩

theorem of_eq {a : α} (hx : x = .ok a) (h : P a) : Gives x P := ⟨a, hx, h⟩

theorem returns (hx : Gives x P) : ∃ a, x = .ok a := by
  obtain ⟨a, rfl, -⟩ := hx
  exact ⟨a, rfl⟩

/-- A result that is known has the property. -/
theorem apply {a : α} (hx : Gives x P) (h : x = .ok a) : P a := by
  obtain ⟨b, hb, hP⟩ := hx
  rw [hb] at h
  exact Except.ok.inj h ▸ hP

end Gives

/-- The computation returns a result with the property, or breaks a promise of which `F` holds. -/
def Yields (F : ε → Prop) (x : Except ε α) (P : α → Prop) : Prop :=
  match x with
  | .ok a => P a
  | .error e => F e

namespace Yields

variable {F F' : ε → Prop} {x : Except ε α} {P Q : α → Prop} {R : β → Prop}

theorem of_gives (h : Gives x P) : Yields F x P := by
  obtain ⟨a, rfl, ha⟩ := h
  exact ha

theorem pure {a : α} (h : P a) : Yields F (Pure.pure a) P := h

theorem bind {f : α → Except ε β} (hx : Yields F x P) (hf : ∀ a, P a → Yields F (f a) R) :
    Yields F (x >>= f) R := by
  cases x with
  | ok a => exact hf a hx
  | error e => exact hx

theorem imp (hx : Yields F x P) (h : ∀ a, P a → Q a) : Yields F x Q := by
  cases x with
  | ok a => exact h a hx
  | error e => exact hx

theorem mono (hx : Yields F x P) (h : ∀ e, F e → F' e) : Yields F' x P := by
  cases x with
  | ok a => exact hx
  | error e => exact h e hx

theorem mapM {k : α → Except ε β} {xs : List α} (h : ∀ a ∈ xs, Yields F (k a) R) :
    Yields F (xs.mapM k) fun ys => ∀ b ∈ ys, R b := by
  induction xs with
  | nil => exact .pure (List.forall_mem_nil _)
  | cons a xs ih =>
    rw [List.forall_mem_cons] at h
    rw [List.mapM_cons]
    exact h.1.bind fun b hb => (ih h.2).bind fun ys hys => .pure (List.forall_mem_cons.2 ⟨hb, hys⟩)

/-- A failure is the one that the computation comes to. -/
theorem and_eq (hx : Yields F x P) : Yields (fun e => x = .error e ∧ F e) x P := by
  cases x with
  | ok a => exact hx
  | error e => exact ⟨rfl, hx⟩

/-- A computation of which no failure is possible returns. -/
theorem returns (hx : Yields F x P) (h : ∀ e, ¬ F e) : ∃ a, x = .ok a := by
  cases x with
  | ok a => exact ⟨a, rfl⟩
  | error e => exact absurd hx (h e)

end Yields

theorem ok_bind (a : α) (f : α → Except ε β) : (Except.ok a >>= f) = f a := rfl

theorem bind_eq_ok {x : Except ε α} {f : α → Except ε β} {b : β} :
    (x >>= f) = .ok b ↔ ∃ a, x = .ok a ∧ f a = .ok b := by
  cases x with
  | error e =>
    constructor
    · intro h
      cases h
    · rintro ⟨_, h, -⟩
      cases h
  | ok a =>
    constructor
    · exact fun h => ⟨a, rfl, h⟩
    · rintro ⟨_, h, hf⟩
      exact Except.ok.inj h ▸ hf

theorem mapM_eq_ok {k : α → Except ε β} {f : α → β} {xs : List α} (h : ∀ x ∈ xs, k x = .ok (f x)) :
    xs.mapM k = .ok (xs.map f) := by
  induction xs with
  | nil => rfl
  | cons x xs ih =>
    rw [List.forall_mem_cons] at h
    rw [List.mapM_cons, h.1, ok_bind, ih h.2]
    rfl

namespace Table

variable {xs : Array α} {i j : Nat} {a : α}

theorem read_of_lt (h : i < xs.size) : read xs i = .ok xs[i] := by simp [read, h]

theorem read_of_some (h : xs[i]? = some a) : read xs i = .ok a := by
  obtain ⟨hi, rfl⟩ := Array.getElem?_eq_some_iff.1 h
  exact read_of_lt hi

@[simp] theorem size_grow (xs : Array α) (n : Nat) (a : α) : (grow xs n a).size = max xs.size n := by
  simp only [grow, Array.size_append, Array.size_replicate]
  omega

theorem getElem?_grow (xs : Array α) (n : Nat) (a : α) :
    (grow xs n a)[i]? = if i < xs.size then xs[i]? else if i < n then some a else none := by
  unfold grow
  rw [Array.getElem?_append]
  split
  · rfl
  · rw [Array.getElem?_replicate]
    split <;> split <;> first | rfl | omega

theorem getD_grow (xs : Array α) (n : Nat) (a : α) : (grow xs n a).getD i a = xs.getD i a := by
  rw [Array.getD_eq_getD_getElem?, Array.getD_eq_getD_getElem?, getElem?_grow]
  split
  · rfl
  · next h =>
    rw [Array.getElem?_eq_none (by omega)]
    split <;> rfl

theorem getD_setIfInBounds {d : α} (hi : i < xs.size) :
    (xs.setIfInBounds i a).getD j d = if j = i then a else xs.getD j d := by
  rw [Array.getD_eq_getD_getElem?, Array.getD_eq_getD_getElem?, Array.getElem?_setIfInBounds]
  by_cases h : i = j
  · subst h
    simp [hi]
  · rw [if_neg h, if_neg (Ne.symm h)]

end Table

end Countermodels
