import Countermodels.Formula.ParseError

/-! What a recursive descent expected at the furthest place it looked at. A rule that fails takes
the place of what failed inside it at the same position, unless exactly one thing failed there:
then the more precise of the two names is kept. -/

namespace Countermodels.Formula

/-- The names that failed at the furthest position, the latest first, and their number. -/
structure Attempts where
  position : Nat
  count : Nat
  names : List Expectation
  deriving Repr

namespace Attempts

def none : Attempts := ⟨0, 0, []⟩

/-- Number of names recorded at a position. -/
def countAt (attempts : Attempts) (position : Nat) : Nat :=
  if attempts.position = position then attempts.count else 0

/-- Record the failure of a rule that started at `start`, when `before` names were recorded there
as it started. -/
def record (attempts : Attempts) (name : Expectation) (start before : Nat) : Attempts :=
  if attempts.countAt start = before + 1 then attempts
  else if attempts.position = start then
    ⟨start, before + 1, name :: attempts.names.drop (attempts.count - before)⟩
  else if attempts.position < start then ⟨start, 1, [name]⟩
  else attempts

/-- The parse error that the attempts amount to. -/
def error (attempts : Attempts) : ParseError :=
  .expected (Expectation.all.filter (attempts.names.contains ·)) attempts.position

end Attempts

end Countermodels.Formula
