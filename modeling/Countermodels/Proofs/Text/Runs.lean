import Mathlib

/-! Runs of characters of one class. A run is as long as it can be if no character of the class comes after it; then
it is what reading character by character takes off the text, and the text begins with no other run. -/

namespace Countermodels.Text

variable {p : Char → Bool} {r r' t t' : List Char}

/-- No character of the class comes next, so that a run ends here. -/
def EndsRun (p : Char → Bool) (t : List Char) : Prop := t.head?.any p = false

@[simp] theorem endsRun_cons {c : Char} : EndsRun p (c :: t) ↔ p c = false := by simp [EndsRun]

theorem EndsRun.takeWhile_append (ht : EndsRun p t) (hr : ∀ c ∈ r, p c = true) : (r ++ t).takeWhile p = r := by
  rw [List.takeWhile_append_of_pos hr]
  cases t with
  | nil => simp
  | cons c t => simp [endsRun_cons.1 ht]

theorem EndsRun.dropWhile_append (ht : EndsRun p t) (hr : ∀ c ∈ r, p c = true) : (r ++ t).dropWhile p = t := by
  rw [List.dropWhile_append_of_pos hr]
  cases t with
  | nil => rfl
  | cons c t => simp [endsRun_cons.1 ht]

/-- A text begins with one run that is as long as it can be. -/
theorem EndsRun.append_inj (ht : EndsRun p t) (ht' : EndsRun p t') (hr : ∀ c ∈ r, p c = true)
    (hr' : ∀ c ∈ r', p c = true) (h : r ++ t = r' ++ t') : r = r' ∧ t = t' := by
  have hrun : r = r' := by rw [← ht.takeWhile_append hr, h, ht'.takeWhile_append hr']
  exact ⟨hrun, List.append_cancel_left (hrun ▸ h)⟩

theorem endsRun_dropWhile (p : Char → Bool) (s : List Char) : EndsRun p (s.dropWhile p) := by
  induction s with
  | nil => rfl
  | cons c s ih =>
    cases hc : p c with
    | true => rwa [List.dropWhile_cons_of_pos hc]
    | false => rwa [List.dropWhile_cons_of_neg (by simp [hc]), endsRun_cons]

end Countermodels.Text
