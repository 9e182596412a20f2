import Countermodels.Fault

/-! The Luby sequence 1 1 2 1 1 2 4 1 1 2 1 1 2 4 8 … as exponents of its base. The sequence is made
of blocks of length 1, 3, 7, …; the last entry of the block of length `2 ^ (k + 1) - 1` has exponent `k`,
and the rest of a block is the block before it, twice. Indices and lengths are 32-bit words. -/

namespace Countermodels.Sat.Luby

/-- The first number that is no word. -/
def wordLimit : Nat := 1 <<< 32

/-- The length and the exponent of the first block that reaches the index. -/
def block (index size exponent : Nat) : Except Fault (Nat × Nat) :=
  if size < index + 1 then
    if 2 * size + 1 < wordLimit then block index (2 * size + 1) (exponent + 1) else .error .overflow
  else .ok (size, exponent)
termination_by index + 1 - size
decreasing_by omega

/-- The exponent at an index inside a block: that of the block at its end, else the one that the
index has in the block before. -/
def within (index size exponent : Nat) : Except Fault Nat :=
  if size - 1 = index then .ok exponent
  else
    let half := (size - 1) / 2
    if half = 0 ∨ exponent = 0 then .error .overflow else within (index % half) half (exponent - 1)
termination_by size
decreasing_by omega

/-- The exponent at an index of the sequence. -/
def exponent (index : Nat) : Except Fault Nat :=
  if wordLimit ≤ index + 1 then .error .overflow
  else do
    let (size, exponent) ← block index 1 0
    within index size exponent

end Countermodels.Sat.Luby
