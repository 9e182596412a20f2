import Countermodels.Proofs.History.Admissible

/-! Any history is the main history of some bundle. Prolong it by its first state into the past and by its last state
into the future, and take all pieces of its length: a piece moved by one step is the next piece, and the outermost
pieces, which rest at one state, stay what they are. These are few enough for the slots of a frame. -/

namespace Countermodels.History

variable {space : StateSpace} {h : Nat → State} {last count j t : Nat}

/-- The state at a time of the `j`th piece of a history through the times up to `last`, prolonged both ways. The piece
with the number `last` is the history itself. -/
def windowAt (h : Nat → State) (last j t : Nat) : State := h (min (t + j - last) last)

def window (h : Nat → State) (last j : Nat) : List State := (List.range (last + 1)).map (windowAt h last j)

/-- The pieces from the one at the first state up to the one at the last state. -/
def windows (h : Nat → State) (last : Nat) : List (List State) := (List.range (2 * last + 1)).map (window h last)

theorem windowAt_succ : windowAt h last (j + 1) t = windowAt h last j (t + 1) := by
  rw [windowAt, windowAt, Nat.add_right_comm, Nat.add_assoc]

theorem windowAt_self (ht : t ≤ last) : windowAt h last last t = h t := by
  rw [windowAt, Nat.add_sub_cancel, Nat.min_eq_left ht]

/-- The first piece rests at the first state. -/
theorem windowAt_zero (ht : t ≤ last) : windowAt h last 0 t = h 0 := by
  rw [windowAt, Nat.add_zero, Nat.sub_eq_zero_of_le ht, Nat.zero_min]

/-- The last piece rests at the last state. -/
theorem windowAt_two_mul : windowAt h last (2 * last) t = h last := by
  rw [windowAt, Nat.min_eq_right (by omega)]

@[simp] theorem length_window : (window h last j).length = last + 1 := by simp [window]

theorem getElem?_window (ht : t ≤ last) : (window h last j)[t]? = some (windowAt h last j t) := by
  simp [window, Nat.lt_succ_of_le ht]

theorem window_self : window h last last = (List.range (last + 1)).map h :=
  List.map_congr_left fun _ ht => windowAt_self (Nat.le_of_lt_succ (List.mem_range.1 ht))

theorem mem_windows {w : List State} : w ∈ windows h last ↔ ∃ j ≤ 2 * last, window h last j = w := by
  simp [windows]

/-! Moving pieces. -/

theorem shifted_window_forward {k : Nat} (hnext : ∀ t < last, windowAt h last k t = windowAt h last j (t + 1)) :
    Shifted (window h last j) (window h last k) true := by
  intro t ht
  rw [length_window] at ht
  rw [getElem?_window (by omega), getElem?_window (by omega), hnext t (by omega)]

theorem shifted_window_backward {k : Nat} (hnext : ∀ t < last, windowAt h last k (t + 1) = windowAt h last j t) :
    Shifted (window h last j) (window h last k) false := by
  intro t ht
  rw [length_window] at ht
  rw [getElem?_window (by omega), getElem?_window (by omega), hnext t (by omega)]

theorem exists_shifted_window (hj : j ≤ 2 * last) (forward : Bool) :
    ∃ w ∈ windows h last, Shifted (window h last j) w forward := by
  cases forward with
  | true =>
    rcases Nat.lt_or_eq_of_le hj with hlt | rfl
    · exact ⟨_, mem_windows.2 ⟨j + 1, hlt, rfl⟩, shifted_window_forward fun _ _ => windowAt_succ⟩
    · refine ⟨_, mem_windows.2 ⟨2 * last, hj, rfl⟩, shifted_window_forward fun t _ => ?_⟩
      rw [windowAt_two_mul, windowAt_two_mul]
  | false =>
    cases j with
    | zero =>
      refine ⟨_, mem_windows.2 ⟨0, hj, rfl⟩, shifted_window_backward fun t ht => ?_⟩
      rw [windowAt_zero ht, windowAt_zero ht.le]
    | succ j => exact ⟨_, mem_windows.2 ⟨j, by omega, rfl⟩, shifted_window_backward fun _ _ => windowAt_succ.symm⟩

/-- The pieces of a history, each listed once, are a bundle. -/
theorem bundle_windows (hstates : ∀ t ≤ last, h t ∈ space.states) (hcount : 2 * last + 1 ≤ count) :
    Bundle space (last + 1) count (windows h last).dedup where
  nodup := List.nodup_dedup _
  few := by
    have hlen : (windows h last).length = 2 * last + 1 := by simp [windows]
    exact ((List.dedup_sublist _).length_le.trans hlen.le).trans hcount
  length w hw := by
    obtain ⟨j, -, rfl⟩ := mem_windows.1 (List.mem_dedup.1 hw)
    exact length_window
  states w hw s hs := by
    obtain ⟨j, -, rfl⟩ := mem_windows.1 (List.mem_dedup.1 hw)
    obtain ⟨t, -, rfl⟩ := List.mem_map.1 hs
    exact hstates _ (Nat.min_le_right ..)
  closed w hw forward := by
    obtain ⟨j, hj, rfl⟩ := mem_windows.1 (List.mem_dedup.1 hw)
    obtain ⟨w', hw', hshifted⟩ := exists_shifted_window (h := h) hj forward
    exact ⟨w', List.mem_dedup.2 hw', hshifted⟩

/-- There are slots enough for a bundle around any history, with the others in order. -/
theorem exists_listing_of_main {m : Nat} (hm : 1 ≤ m) (hstates : ∀ t < 2 * m - 1, h t ∈ space.states) :
    ∃ ks, Frame.Listing space m ((List.range (2 * m - 1)).map h :: ks) := by
  have htimes : 2 * m - 2 + 1 = 2 * m - 1 := by omega
  have hmain : (List.range (2 * m - 1)).map h ∈ (windows h (2 * m - 2)).dedup := by
    rw [List.mem_dedup, ← htimes, ← window_self]
    exact mem_windows.2 ⟨_, by omega, rfl⟩
  have hfew : 2 * (2 * m - 2) + 1 ≤ Frame.bound space.n m :=
    Nat.le_trans (by omega) (Nat.le_add_left (2 * (2 * m - 1)) (1 <<< space.n))
  have hbundle := bundle_windows (h := h) (fun t ht => hstates t (by omega)) hfew
  rw [htimes] at hbundle
  have hfirst := hbundle.perm (List.perm_cons_erase hmain)
  obtain ⟨ks, hperm, hincreasing⟩ := hfirst.exists_increasing
  exact ⟨ks, hfirst.perm (hperm.cons _), List.cons_ne_nil _ _, hincreasing⟩

end Countermodels.History
