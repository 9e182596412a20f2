import Countermodels.Fault

/-! Tables: arrays that are read at an index the caller promises to be present. -/

namespace Countermodels.Table

variable {α : Type}

/-- The entry at an index. -/
@[inline] def read (xs : Array α) (i : Nat) : Except Fault α :=
  if h : i < xs.size then .ok xs[i] else .error .index

/-- Replace the entry at an index. -/
@[inline] def write (xs : Array α) (i : Nat) (x : α) : Except Fault (Array α) :=
  if h : i < xs.size then .ok (xs.set i x h) else .error .index

/-- Grow a table to at least `size` entries. -/
def grow (xs : Array α) (size : Nat) (x : α) : Array α :=
  xs ++ Array.replicate (size - xs.size) x

end Countermodels.Table
