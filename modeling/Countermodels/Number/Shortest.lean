import Countermodels.Number.Binary64

/-! The shortest decimal that reads back as a given double. The reals that round to a double form an
interval around it; on the grid of decimals with one digit, two digits and so on, the two neighbours
of the double are tried until one lies in the interval. -/

namespace Countermodels.Number

/-- The decimal `d₁.d₂d₃… · 10 ^ exponent`, given by its digits. -/
structure Decimal where
  digits : List Nat
  exponent : Int
  deriving Repr

/-- Which of two neighbours is taken when a number lies in the middle between them. -/
inductive Tie where
  /-- The one whose last digit is even. -/
  | toEven
  /-- The one of larger magnitude. -/
  | away
  deriving DecidableEq, Repr

namespace Shortest

/-- A double and the reals that round to it, over a common denominator. -/
structure Interval where
  low : Nat
  value : Nat
  high : Nat
  den : Nat
  /-- Whether the ends belong to the interval. -/
  closed : Bool

/-- Reals round to a double when they are nearest to it; the gap below a power of two is half as
wide as the one above, and an end belongs to the double whose mantissa is even. -/
def interval (b : Binary64) : Interval :=
  let below := if b.mantissa = 1 <<< 52 && -1074 < b.exponent then 1 else 2
  let closed := b.mantissa % 2 = 0
  let shift := b.exponent - 2
  let scale := if 0 ≤ shift then 1 <<< shift.toNat else 1
  let den := if 0 ≤ shift then 1 else 1 <<< (-shift).toNat
  ⟨(4 * b.mantissa - below) * scale, 4 * b.mantissa * scale, (4 * b.mantissa + 2) * scale, den, closed⟩

/-- The exponent of the leading decimal digit of a positive fraction. -/
def leading (num den : Nat) : Int :=
  if den ≤ num then ((Nat.toDigits 10 (num / den)).length : Int) - 1
  else
    let k := (Nat.toDigits 10 (den / num)).length
    if den ≤ num * Nat.pow 10 (k - 1) then -((k : Int) - 1) else -(k : Int)

/-- Whether `c · 10 ^ grid` lies in an interval. -/
def contains (i : Interval) (grid : Int) (c : Nat) : Bool :=
  let left := if 0 ≤ grid then c * Nat.pow 10 grid.toNat * i.den else c * i.den
  let scale := if 0 ≤ grid then 1 else Nat.pow 10 (-grid).toNat
  let low := i.low * scale
  let high := i.high * scale
  if i.closed then low ≤ left && left ≤ high else low < left && left < high

/-- Whether a number between `floor` and `floor + 1` goes down, given its distance from `floor` as a
fraction. -/
def goesDown (tie : Tie) (floor rest unit : Nat) : Bool :=
  2 * rest < unit || (2 * rest = unit && tie = .toEven && floor % 2 = 0)

/-- The nearer of the value's two neighbours on a grid that lies in the interval, if one does. -/
def onGrid? (tie : Tie) (i : Interval) (grid : Int) : Option Nat :=
  let unit := if 0 ≤ grid then Nat.pow 10 grid.toNat * i.den else i.den
  let value := if 0 ≤ grid then i.value else i.value * Nat.pow 10 (-grid).toNat
  let floor := value / unit
  let rest := value % unit
  let nearer := if goesDown tie floor rest unit then floor else floor + 1
  let farther := if nearer = floor then floor + 1 else floor
  if contains i grid nearer then some nearer
  else if contains i grid farther then some farther
  else none

/-- The first grid, from `count` digits on, that has a decimal in the interval. -/
def search (tie : Tie) (i : Interval) (top : Int) : Nat → Nat → Nat × Int
  | 0, count => (i.value / i.den, top - count)
  | fuel + 1, count =>
    let grid := top - count
    match onGrid? tie i grid with
    | some c => (c, grid)
    | none => search tie i top fuel (count + 1)

end Shortest

/-- The digits of a number without the zeros at its end. -/
def significant (c : Nat) : List Nat :=
  let digits := (Nat.toDigits 10 c).map (fun d => d.toNat - '0'.toNat)
  match (digits.reverse.dropWhile (· == 0)).reverse with
  | [] => [0]
  | kept => kept

/-- The shortest decimal that reads back as the magnitude of a finite double. Seventeen digits are
always enough. -/
def shortest (tie : Tie) (b : Binary64) : Decimal :=
  if b.mantissa = 0 then ⟨[0], 0⟩
  else
    let i := Shortest.interval b
    let top := Shortest.leading i.value i.den
    let (c, grid) := Shortest.search tie i top 17 0
    ⟨significant c, grid + (Nat.toDigits 10 c).length - 1⟩

namespace Decimal

def text (digits : List Nat) : String := String.ofList (digits.map Nat.digitChar)

/-- The decimal without an exponent. A whole number is followed by `wholeMark`. -/
def positional (d : Decimal) (wholeMark : String) : String :=
  if d.exponent < 0 then
    "0." ++ text (List.replicate ((-d.exponent).toNat - 1) 0 ++ d.digits)
  else
    let places := d.exponent.toNat + 1
    let padded := d.digits ++ List.replicate (places - d.digits.length) 0
    let decimals := padded.drop places
    text (padded.take places) ++ if decimals.isEmpty then wholeMark else "." ++ text decimals

/-- The decimal with one digit before the point, if it needs one, and a signed exponent. -/
def scientific (d : Decimal) : String :=
  let head := text (d.digits.take 1)
  let tail := d.digits.drop 1
  let mantissa := if tail.isEmpty then head else head ++ "." ++ text tail
  if d.exponent < 0 then mantissa ++ "e-" ++ toString (-d.exponent).toNat
  else mantissa ++ "e+" ++ toString d.exponent.toNat

end Decimal

/-- A sign in front of a negative number. -/
def signed (b : Binary64) (magnitude : String) : String :=
  if b.negative then "-" ++ magnitude else magnitude

/-- A double in a data file: positional when the leading digit stands between the fifth decimal and
the sixteenth place, and always recognisable as a double. Ties go to the even digit. -/
def dataText (x : Float) : String :=
  let b := Binary64.ofFloat x
  let d := shortest .toEven b
  signed b (if -5 ≤ d.exponent && d.exponent ≤ 15 then d.positional ".0" else d.scientific)

/-- A double in prose: never with an exponent, and bare when it is whole. Ties go away from zero. -/
def proseText (x : Float) : String :=
  let b := Binary64.ofFloat x
  signed b ((shortest .away b).positional "")

end Countermodels.Number
