/-! Finite doubles as exact numbers: a sign and a whole multiple of a power of two. -/

namespace Countermodels.Number

/-- The magnitude `mantissa · 2 ^ exponent` with a sign. -/
structure Binary64 where
  negative : Bool
  mantissa : Nat
  exponent : Int
  deriving Repr

namespace Binary64

/-- The exact value of a finite double. -/
def ofFloat (x : Float) : Binary64 :=
  let bits := x.toBits.toNat
  let fraction := bits % (1 <<< 52)
  let biased : Nat := bits / (1 <<< 52) % (1 <<< 11)
  let negative := bits / (1 <<< 63) == 1
  if biased = 0 then ⟨negative, fraction, -1074⟩
  else ⟨negative, fraction + 1 <<< 52, (biased : Int) - 1075⟩

/-- The magnitude as a fraction, numerator first. -/
def fraction (b : Binary64) : Nat × Nat :=
  if 0 ≤ b.exponent then (b.mantissa <<< b.exponent.toNat, 1)
  else (b.mantissa, 1 <<< (-b.exponent).toNat)

/-- The whole number nearest to the magnitude times `scale`; a half goes to the even neighbour. -/
def roundScaled (b : Binary64) (scale : Nat) : Nat :=
  let (num, den) := b.fraction
  let whole := num * scale / den
  let rest := num * scale % den
  if 2 * rest < den then whole
  else if den < 2 * rest then whole + 1
  else if whole % 2 = 0 then whole else whole + 1

end Binary64

end Countermodels.Number
