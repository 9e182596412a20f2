import Countermodels.Cnf.Basic

/-! Clauses that say how many literals of a list hold. -/

namespace Countermodels.Emit

variable {σ : Type} [Sink σ]

/-- Lists up to this length are compared pair by pair. -/
def pairwiseLimit : Nat := 8

def atLeastOne (lits : List Lit) : StateM σ Unit := clause lits

/-- At most one holds: no two of them do. -/
def atMostOnePairwise : List Lit → StateM σ Unit
  | [] => pure ()
  | l :: ls => do
    ls.forM fun m => imply l m.neg
    atMostOnePairwise ls

/-- The counters after the first one: each says that some literal up to its place holds. -/
def atMostOneFrom (counter : Lit) : List Lit → List Lit → StateM σ Unit
  | l :: ls, next :: counters => do
    imply l next
    imply counter next
    imply counter l.neg
    atMostOneFrom next ls counters
  | [last], [] => imply counter last.neg
  | _, _ => pure ()

/-- At most one holds: a chain of counters says whether one has been met. -/
def atMostOneSequential : List Lit → StateM σ Unit
  | l :: m :: ls => do
    let counter ← fresh
    let counters ← freshList ls.length
    imply l counter
    atMostOneFrom counter (m :: ls) counters
  | _ => pure ()

def atMostOne (lits : List Lit) : StateM σ Unit :=
  if lits.length ≤ pairwiseLimit then atMostOnePairwise lits else atMostOneSequential lits

def exactlyOne (lits : List Lit) : StateM σ Unit := do
  atLeastOne lits
  atMostOne lits

end Countermodels.Emit
