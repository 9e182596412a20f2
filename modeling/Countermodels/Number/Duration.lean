import Countermodels.Fault
import Countermodels.Number.Binary64

/-! Durations in whole nanoseconds. -/

namespace Countermodels

structure Duration where
  nanoseconds : Nat
  deriving DecidableEq, Repr, Inhabited

namespace Duration

def perSecond : Nat := 1000000000

/-- The duration nearest to a number of seconds that is not negative; a half goes to the even
neighbour. Whole seconds are counted in a word of 64 bits. -/
def ofSeconds (x : Float) : Except Fault Duration :=
  let d := (Number.Binary64.ofFloat x).roundScaled perSecond
  if d < (1 <<< 64) * perSecond then .ok ⟨d⟩ else .error .duration

def wholeSeconds (d : Duration) : Nat := d.nanoseconds / perSecond

/-- Nanoseconds beyond the whole seconds. -/
def rest (d : Duration) : Nat := d.nanoseconds % perSecond

/-- The number of seconds as a double, rounded twice: first the parts, then their sum. -/
def seconds (d : Duration) : Float :=
  d.wholeSeconds.toUInt64.toFloat + d.rest.toUInt64.toFloat / 1e9

end Duration

end Countermodels
