/-! Literals over numbered variables. A literal is one number: twice its variable, plus one when it
is negated, so that the two literals of a variable are neighbours. -/

namespace Countermodels

structure Lit where
  code : Nat
  deriving DecidableEq, Hashable, Repr, Inhabited

namespace Lit

def ofVar (var : Nat) (negated : Bool) : Lit := ⟨2 * var + negated.toNat⟩

/-- The literal that says that a variable is true. -/
def positive (var : Nat) : Lit := ⟨2 * var⟩

def var (l : Lit) : Nat := l.code / 2

def negated (l : Lit) : Bool := l.code % 2 == 1

/-- The other literal of the same variable. -/
def neg (l : Lit) : Lit := ⟨if l.code % 2 = 0 then l.code + 1 else l.code - 1⟩

/-- Negate a literal on a condition. -/
def flip (l : Lit) (b : Bool) : Lit := if b then l.neg else l

/-- Variables count from one in the signed form. -/
def toInt (l : Lit) : Int := if l.negated then -(l.var + 1 : Nat) else (l.var + 1 : Nat)

def ofInt? (i : Int) : Option Lit :=
  if i = 0 then none else some (ofVar (i.natAbs - 1) (decide (i < 0)))

/-- Whether the signed form is a word of 32 bits. Of one variable only the negative literal has such a
form. -/
def isWord (l : Lit) : Bool := l.toInt < 0x80000000

def text (l : Lit) : String := toString l.toInt

/-- The truth value of a literal when each variable has one. -/
def holds (l : Lit) (value : Nat → Bool) : Bool := value l.var != l.negated

end Lit

end Countermodels
