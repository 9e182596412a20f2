import Countermodels.Cnf.Basic
import Countermodels.State.Word

/-! Lexicographic order between lists of literals, false before true. It removes copies of a model
that differ from it by a renaming of the atomic states. -/

namespace Countermodels.Emit

variable {σ : Type} [Sink σ]

/-- The positions of two lists from some place on. `equal` holds while all earlier positions agree;
`none` stands for true. -/
def lexOrderFrom (guard : Option Lit) (strict : Bool) (equal : Option Lit) :
    List Lit → List Lit → StateM σ Unit
  | x :: xs, y :: ys =>
    if x = y then lexOrderFrom guard strict equal xs ys
    else do
      let excuses := (guard.toList ++ equal.toList).map Lit.neg
      clause (excuses ++ [x.neg, y])
      let next ← fresh
      clause (excuses ++ [x.neg, next])
      clause (excuses ++ [y, next])
      lexOrderFrom guard strict (some next) xs ys
  | _, _ => if strict then clause ((guard.toList ++ equal.toList).map Lit.neg) else pure ()

/-- Two lists are compared position by position, so they must be of one length. -/
def checkLengths (xs ys : List Lit) : Except Fault Unit :=
  if xs.length = ys.length then .ok () else .error .length

/-- The first list comes no later than the second, or before it when `strict`. A guard that is false
lifts the demand. -/
def lexOrder (guard : Option Lit) (xs ys : List Lit) (strict : Bool) : StateM σ Unit :=
  lexOrderFrom guard strict none xs ys

/-- A table of literals must have a row for every state. -/
def checkRows (space : StateSpace) (rows : Nat) : Except Fault Unit := do
  let count ← space.count
  if space.n < 32 ∧ rows < count then throw .index

/-- The literals of all states, listed through an exchange of two atomic states. -/
def swapped (space : StateSpace) (lits : State → List Lit) (i j : Nat) : List Lit :=
  space.states.flatMap fun s => lits (s.swapBits i j)

/-- For each exchange of neighbouring atomic states, the literals of all states come no later than
their image. -/
def breakBitSwaps (space : StateSpace) (lits : State → List Lit) : StateM σ Unit :=
  (List.range (space.n - 1)).forM fun i =>
    lexOrder none (space.states.flatMap lits) (swapped space lits i (i + 1)) false

end Countermodels.Emit
