import Mathlib

/-! Computations with a state that only grows, and that may give up. A computation writes from a state if it
either gives up for an accepted reason, or takes the state to a later one and gives a result with a
property there. What is said of a result stays true of all later states. -/

namespace Countermodels

variable {ε S α β : Type}

/-- The computation gives up for a reason in `E`, or its last state is later and the result has the property. -/
def Writes (E : ε → Prop) (R : S → S → Prop) (m : EStateM ε S α) (s : S) (P : S → α → Prop) : Prop :=
  match m s with
  | .ok a s' => R s s' ∧ P s' a
  | .error e _ => E e

namespace Writes

variable {E : ε → Prop} {R : S → S → Prop} {m : EStateM ε S α} {s : S} {P P' : S → α → Prop} {Q : S → β → Prop}

theorem of_run {a : α} {t : S} (h : m s = .ok a t) (hs : R s t) (ha : P t a) : Writes E R m s P := by
  rw [Writes, h]
  exact ⟨hs, ha⟩

theorem of_error {e : ε} {t : S} (h : m s = .error e t) (he : E e) : Writes E R m s P := by
  rw [Writes, h]
  exact he

/-- How the computation can end. -/
theorem outcome (hm : Writes E R m s P) :
    (∃ a s', m s = .ok a s' ∧ R s s' ∧ P s' a) ∨ ∃ e s', m s = .error e s' ∧ E e := by
  rw [Writes] at hm
  cases hrun : m s with
  | ok a s' => rw [hrun] at hm; exact .inl ⟨a, s', rfl, hm⟩
  | error e s' => rw [hrun] at hm; exact .inr ⟨e, s', rfl, hm⟩

/-- Where there is no reason to give up, the computation succeeds. -/
theorem succeeds (hm : Writes E R m s P) (hE : ∀ e, ¬ E e) : ∃ a s', m s = .ok a s' ∧ R s s' ∧ P s' a :=
  hm.outcome.resolve_right fun h => by
    obtain ⟨e, _, _, he⟩ := h
    exact hE e he

theorem pure {a : α} (hs : R s s) (h : P s a) : Writes E R (Pure.pure a : EStateM ε S α) s P := ⟨hs, h⟩

theorem imp (hm : Writes E R m s P) (h : ∀ a s', R s s' → P s' a → P' s' a) : Writes E R m s P' := by
  rcases hm.outcome with ⟨a, s', hrun, hs, ha⟩ | ⟨e, s', hrun, he⟩
  · exact of_run hrun hs (h a s' hs ha)
  · exact of_error hrun he

/-- One run, told of in two ways. -/
theorem both {R' : S → S → Prop} (hm : Writes E R m s P) (hm' : Writes E R' m s P') :
    Writes E (fun s s' => R s s' ∧ R' s s') m s fun s' a => P s' a ∧ P' s' a := by
  rcases hm.outcome with ⟨a, s', hrun, hs, ha⟩ | ⟨e, s', hrun, he⟩
  · rw [Writes, hrun] at hm' ⊢
    exact ⟨⟨hs, hm'.1⟩, ha, hm'.2⟩
  · exact of_error hrun he

theorem weaken {T : S → S → Prop} (hm : Writes E R m s P) (h : ∀ a s', R s s' → P s' a → T s s') :
    Writes E T m s P := by
  rcases hm.outcome with ⟨a, s', hrun, hs, ha⟩ | ⟨e, s', hrun, he⟩
  · exact of_run hrun (h a s' hs ha) ha
  · exact of_error hrun he

theorem get {k : S → EStateM ε S β} (h : Writes E R (k s) s Q) :
    Writes E R (MonadStateOf.get >>= k) s Q := h

/-- A step that only changes the state. -/
theorem modify {next : S → S} {P : S → PUnit → Prop} (hs : R s (next s)) (h : P (next s) ⟨⟩) :
    Writes E R (modify next : EStateM ε S PUnit) s P := ⟨hs, h⟩

/-- Two steps, the second with a relation that the first does not harm. -/
theorem chain {R' : S → S → Prop} {f : α → EStateM ε S β} (hm : Writes E R m s P)
    (hf : ∀ a s', R s s' → P s' a → Writes E R' (f a) s' Q) (hR : ∀ t t', R s t → R' t t' → R' s t') :
    Writes E R' (m >>= f) s Q := by
  have hbind : (m >>= f) s = EStateM.bind m f s := rfl
  rcases hm.outcome with ⟨a, s', hrun, hs, ha⟩ | ⟨e, s', hrun, he⟩
  · have hnext : (m >>= f) s = f a s' := by rw [hbind, EStateM.bind, hrun]
    rcases (hf a s' hs ha).outcome with ⟨c, t, hrun', ht, hc⟩ | ⟨e, t, hrun', he⟩
    · exact of_run (hnext.trans hrun') (hR s' t hs ht) hc
    · exact of_error (hnext.trans hrun') he
  · exact of_error (by rw [hbind, EStateM.bind, hrun]) he

variable [IsTrans S R]

theorem bind {f : α → EStateM ε S β} (hm : Writes E R m s P)
    (hf : ∀ a s', R s s' → P s' a → Writes E R (f a) s' Q) : Writes E R (m >>= f) s Q :=
  hm.chain hf fun _ _ => IsTrans.trans _ _ _

/-- The results of a list of computations, all read in the last state. -/
theorem mapM {f : α → EStateM ε S β} {xs : List α} {K : α → S → β → Prop}
    (hrefl : ∀ s s', R s s' → R s' s') (hs : R s s)
    (hmono : ∀ x s s' y, R s s' → K x s y → K x s' y)
    (h : ∀ x ∈ xs, ∀ s', R s s' → Writes E R (f x) s' (K x)) :
    Writes E R (xs.mapM f) s fun s' ys => List.Forall₂ (fun x y => K x s' y) xs ys := by
  induction xs generalizing s with
  | nil => exact pure hs .nil
  | cons x xs ih =>
    rw [List.forall_mem_cons] at h
    rw [List.mapM_cons]
    refine (h.1 s hs).bind fun y s' hs' hy => ?_
    have hrest := ih (hrefl s s' hs') fun x hx t ht => h.2 x hx t (IsTrans.trans _ _ _ hs' ht)
    exact hrest.bind fun ys t ht hys => pure (hrefl s' t ht) (.cons (hmono x s' t y ht hy) hys)

/-- Steps one after the other; what is said of one that is done stays true. -/
theorem forM {f : α → EStateM ε S PUnit} {xs : List α} {K : α → S → Prop}
    (hrefl : ∀ s s', R s s' → R s' s') (hs : R s s) (hmono : ∀ x s s', R s s' → K x s → K x s')
    (h : ∀ x ∈ xs, ∀ s', R s s' → Writes E R (f x) s' fun s'' _ => K x s'') :
    Writes E R (xs.forM f) s fun s' _ => ∀ x ∈ xs, K x s' := by
  induction xs generalizing s with
  | nil => exact pure hs (by simp)
  | cons x xs ih =>
    rw [List.forall_mem_cons] at h
    refine (h.1 s hs).bind fun _ s' hs' hx => ?_
    have hrest := ih (hrefl s s' hs') fun x hx t ht => h.2 x hx t (IsTrans.trans _ _ _ hs' ht)
    exact hrest.imp fun _ t ht hall => List.forall_mem_cons.2 ⟨hmono x s' t ht hx, hall⟩

end Writes

end Countermodels
