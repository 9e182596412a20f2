import Countermodels.Cnf.Lit

/-! Clauses and the sinks they are written to. An encoding asks its sink for fresh variables and hands
it clauses; the plain sink is a formula in conjunctive normal form, which only remembers both. -/

namespace Countermodels

/-- Whether a clause is true when each variable has a value. -/
def Lit.anyHolds (lits : List Lit) (value : Nat → Bool) : Bool := lits.any (·.holds value)

/-- One more than the largest variable of a clause. -/
def Lit.span (lits : List Lit) : Nat := lits.foldl (fun n l => max n (l.var + 1)) 0

/-- What takes the clauses of an encoding. -/
class Sink (σ : Type) where
  /-- A variable that no clause mentions yet, as its positive literal. -/
  fresh : σ → Lit × σ
  add : List Lit → σ → σ

/-- Numbered variables and clauses over them, in the order in which they were written. -/
structure Cnf where
  numVars : Nat := 0
  clauses : Array (List Lit) := #[]
  deriving Repr, Inhabited

namespace Cnf

def fresh (f : Cnf) : Lit × Cnf := (.positive f.numVars, { f with numVars := f.numVars + 1 })

def add (lits : List Lit) (f : Cnf) : Cnf :=
  { numVars := max f.numVars (Lit.span lits), clauses := f.clauses.push lits }

/-- Whether an assignment makes all clauses true. -/
def satisfiedBy (f : Cnf) (value : Nat → Bool) : Prop := ∀ c ∈ f.clauses, Lit.anyHolds c value = true

end Cnf

instance : Sink Cnf where
  fresh := Cnf.fresh
  add := Cnf.add

namespace Emit

variable {σ : Type} [Sink σ]

def fresh : StateM σ Lit := fun s => Sink.fresh s

/-- A number of fresh literals. -/
def freshList : Nat → StateM σ (List Lit)
  | 0 => pure []
  | k + 1 => do
    let l ← fresh
    return l :: (← freshList k)

/-- A table of fresh literals. -/
def freshArray (size : Nat) : StateM σ (Array Lit) := return (← freshList size).toArray

def clause (lits : List Lit) : StateM σ Unit := fun s => ((), Sink.add lits s)

def unit (l : Lit) : StateM σ Unit := clause [l]

/-- If `a` then `b`. -/
def imply (a b : Lit) : StateM σ Unit := clause [a.neg, b]

/-- If `a` then all of a list. -/
def implyAll (a : Lit) (bs : List Lit) : StateM σ Unit := bs.forM (imply a)

/-- If `a` then one of a list. -/
def implyAny (a : Lit) (bs : List Lit) : StateM σ Unit := clause (a.neg :: bs)

/-- If `a` and `b` then `c`. -/
def implyImply (a b c : Lit) : StateM σ Unit := clause [a.neg, b.neg, c]

/-- If `a` then `b` and `c` agree. -/
def implyIff (a b c : Lit) : StateM σ Unit := do
  implyImply a b c
  implyImply a c b

/-- `y` says that all of a list hold. -/
def iffAll (y : Lit) (xs : List Lit) : StateM σ Unit := do
  implyAll y xs
  clause (y :: xs.map Lit.neg)

/-- `y` says that one of a list holds. -/
def iffAny (y : Lit) (xs : List Lit) : StateM σ Unit := iffAll y.neg (xs.map Lit.neg)

/-- `y` says that `a` and `b` agree. -/
def iffIff (y a b : Lit) : StateM σ Unit := do
  implyIff y a b
  clause [y, a.neg, b.neg]
  clause [y, a, b]

/-- A fresh literal that is true. -/
def freshTrue : StateM σ Lit := do
  let y ← fresh
  unit y
  return y

end Emit

end Countermodels
