/-! Powers of doubles with a whole exponent, by repeated squaring from the lowest bit of the exponent.
The order of the multiplications matters, because each of them rounds. -/

namespace Countermodels.Number

/-- Multiply `result` by `base ^ exponent`. -/
def powerNat (base result : Float) (exponent : Nat) : Float :=
  let result := if exponent % 2 = 1 then result * base else result
  if exponent / 2 = 0 then result else powerNat (base * base) result (exponent / 2)
termination_by exponent
decreasing_by omega

def power (base : Float) (exponent : Int) : Float :=
  let result := powerNat base 1.0 exponent.natAbs
  if exponent < 0 then 1.0 / result else result

/-- The double nearest to a whole number of at most 64 bits. -/
def ofWord (n : Nat) : Float := n.toUInt64.toFloat

/-- The whole part of a double, kept inside 64 bits without a sign. -/
def toWord (x : Float) : Nat := x.toUInt64.toNat

end Countermodels.Number
