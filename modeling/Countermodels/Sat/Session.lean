import Countermodels.Sat.Search

/-! A solver at work on an encoding: clauses reach it as they are written, and assumptions are gathered
for the next search. -/

namespace Countermodels

structure Session where
  /-- The solver, or the first of its promises that was found broken. -/
  solver : Except Fault Sat.Solver := .ok (.new {})
  /-- All clauses, in the order in which they were written. -/
  clauses : Array (List Lit) := #[]
  assumptions : Array Lit := #[]

namespace Session

def numVars (s : Session) : Nat :=
  match s.solver with
  | .ok solver => solver.numVars
  | .error _ => 0

def fresh (s : Session) : Lit × Session :=
  (.positive s.numVars, { s with solver := do return (← (← s.solver).newVar).2 })

/-- Write a clause, whose literals must be words in their signed form. -/
def add (lits : List Lit) (s : Session) : Session :=
  { s with
    solver := do
      let solver ← s.solver
      if lits.all Lit.isWord then return (← solver.addClause lits).2 else throw .overflow
    clauses := s.clauses.push lits }

instance : Sink Session where
  fresh := fresh
  add := add

/-- Take over the variables and the clauses of a formula whose first clauses were taken before. -/
def load (f : Cnf) (s : Session) : Session :=
  let s := { s with solver := do (← s.solver).ensureVars f.numVars }
  (f.clauses.extract s.clauses.size f.clauses.size).foldl (fun s c => s.add c) s

def assume (l : Lit) (s : Session) : Session := { s with assumptions := s.assumptions.push l }

/-- Search under the gathered assumptions, which are used up. -/
def solve (s : Session) : Except Fault (Sat.Answer × Session) := do
  let (answer, solver) ← (← s.solver).solve s.assumptions.toList
  return (answer, { s with solver := .ok solver, assumptions := #[] })

/-- The value of a literal in the last model. -/
def value (s : Session) (l : Lit) : Sat.Value :=
  match s.solver with
  | .ok solver => solver.value l
  | .error _ => .free

/-- Whether a literal holds in the last model. -/
def holds (s : Session) (l : Lit) : Bool := s.value l = .holds

/-- The truth value of a literal that must have one. -/
def truth (s : Session) (l : Lit) : Except Fault Bool :=
  match (s.value l).toBool? with
  | some b => .ok b
  | none => .error .value

def limit (budget : Budget) (s : Session) : Session :=
  { s with solver := do return { ← s.solver with budget } }

/-- A clause that excludes what the last model says of some literals. -/
def refutation (s : Session) (essential : List Lit) : List Lit :=
  essential.map fun l => if s.holds l then l.neg else l

end Session

/-- Counts of the work a solver has done. -/
structure Stats where
  conflicts : Nat
  decisions : Nat
  propagations : Nat
  deriving DecidableEq, Repr

namespace Stats

def text (s : Stats) : String :=
  s!"{s.conflicts} conflicts, {s.decisions} decisions, {s.propagations} propagations"

end Stats

namespace Session

def stats (s : Session) : Except Fault Stats := do
  let solver ← s.solver
  return ⟨solver.conflicts, solver.decisions, solver.board.propagations⟩

def text (s : Session) : Except Fault String := do
  return "SimpleSatSolver(" ++ (← s.solver).text ++ ")"

end Session

end Countermodels
