import Countermodels.Sat.Analyze

/-! The search: propagate, learn from a conflict or decide, and restart from time to time. -/

namespace Countermodels.Sat

/-- The answer of a solver. -/
inductive Answer where
  | sat
  | unsat
  | unknown
  deriving DecidableEq, Repr

def Answer.text : Answer → String
  | sat => "SAT"
  | unsat => "UNSAT"
  | unknown => "UNKNOWN"

/-- How a round of the search ends. -/
inductive RoundEnd where
  | sat
  | unsat
  | restart
  | interrupted
  deriving DecidableEq, Repr

/-- What the assumptions ask for next. -/
inductive Guess where
  | assume (l : Lit)
  | refuted
  | branch

namespace Solver

/-- Ask the budget whether it is used up. -/
def poll (s : Solver) : Bool × Solver :=
  let (expired, budget) := s.budget.poll
  (expired, { s with budget })

/-- Learn from a clause that became false. -/
def learn (s : Solver) (conflict : Nat) : Except Fault Solver := do
  let (learnt, s) ← s.analyze conflict
  let s ← s.backtrack learnt.level
  let s := { s with board := (← s.board.learn learnt.lits).fade }
  return { s with order := s.order.fade, limit := (s.limit.onConflict s.options).2 }

/-- Remove clauses that are satisfied for good, when the root level has grown. -/
def simplify (s : Solver) : Except Fault Solver := do
  let assigned := s.board.trail.lits.size
  if s.board.trail.depth = 0 ∧ s.simplifiedAt ≠ some assigned then
    let store ← s.board.store.simplify s.board.trail
    return { s with board := { s.board with store }, simplifiedAt := some assigned }
  return s

/-- Drop learnt clauses when there are too many of them. -/
def reduce (s : Solver) : Except Fault Solver := do
  if (← s.limit.allowed s.board.trail.lits.size) ≤ s.numLearnts then
    return { s with board := { s.board with store := ← s.board.store.reduce s.board.trail } }
  return s

/-- Open a level for each assumption that already holds, up to the first that does not. -/
def follow : List Lit → Trail → Except Fault (Guess × Trail)
  | [], t => .ok (.branch, t)
  | p :: ps, t => do
    match ← t.value p with
    | .holds => follow ps t.openLevel
    | .fails => return (.refuted, t)
    | .free => return (.assume p, t)

/-- Open a level and make a literal true on it. -/
def decide (s : Solver) (l : Lit) : Except Fault Solver := do
  return { s with board := ← { s.board with trail := s.board.trail.openLevel }.assign l none }

/-- Branch on the highest free variable. -/
def branch (s : Solver) : Except Fault (Option RoundEnd × Solver) := do
  let s := { s with decisions := s.decisions + 1 }
  let (expired, s) := if s.decisions % 1024 = 0 then s.poll else (false, s)
  if expired then return (some .interrupted, s)
  let (picked, order) ← s.order.pick s.board.trail.values
  let s := { s with order }
  match picked with
  | none => return (some .sat, s)
  | some v => return (none, ← s.decide (.ofVar v (← Table.read s.phases v)))

/-- One step of a round in which `found` conflicts were met so far. -/
def step (s : Solver) (allowance : Nat) (assumptions : List Lit) (found : Nat) :
    Except Fault (Option RoundEnd × Nat × Solver) := do
  let (conflict, board) ← s.board.propagate
  let s := { s with board }
  match conflict with
  | some id =>
    let s := { s with conflicts := s.conflicts + 1 }
    if s.board.trail.depth = 0 then return (some .unsat, found + 1, { s with ok := false })
    let (expired, s) := (← s.learn id).poll
    return (if expired then some .interrupted else none, found + 1, s)
  | none =>
    if allowance ≤ found then return (some .restart, found, ← s.backtrack 0)
    let s ← (← s.simplify).reduce
    let (guess, trail) ← follow (assumptions.drop s.board.trail.depth) s.board.trail
    let s := { s with board := { s.board with trail } }
    match guess with
    | .refuted => return (some .unsat, found, s)
    | .assume p => return (none, found, ← s.decide p)
    | .branch =>
      let (result, s) ← s.branch
      return (result, found, s)

/-- At most `count` steps of a round, which may not be over then. -/
def steps (allowance : Nat) (assumptions : List Lit) :
    Nat → Nat → Solver → Except Fault (Option RoundEnd × Nat × Solver)
  | 0, found, s => .ok (none, found, s)
  | count + 1, found, s => do
    match ← s.step allowance assumptions found with
    | (none, found, s) => steps allowance assumptions count found s
    | ended => return ended

/-- Number of steps made between two looks at the bound of a round. The bound is a large number, and
counting it down takes longer than a step. -/
def stride : Nat := 1024

/-- At most `fuel` strides of a round. -/
def roundWithin (allowance : Nat) (assumptions : List Lit) :
    Nat → Nat → Solver → Except Fault (RoundEnd × Solver)
  | 0, _, _ => .error .bound
  | fuel + 1, found, s => do
    match ← s.steps allowance assumptions stride found with
    | (some result, _, s) => return (result, s)
    | (none, found, s) => roundWithin allowance assumptions fuel found s

/-- A bound on the steps of a round, at least `(vars + 2) ^ (vars + assumptions + 1)`. Each step raises
the list of the lengths of the decision levels in the lexicographic order, a level that is not open
counting less than an empty one. -/
def roundBound (vars assumptions : Nat) : Nat :=
  1 <<< ((Nat.log2 (vars + 2) + 1) * (vars + assumptions + 1))

/-- Search until a model is found, the assumptions are refuted, as many conflicts have been met as
are allowed, or the budget is used up. -/
def round (s : Solver) (allowance : Nat) (assumptions : List Lit) : Except Fault (RoundEnd × Solver) :=
  if s.ok then
    s.roundWithin allowance assumptions (roundBound s.numVars assumptions.length) 0
  else .error .refuted

/-- At most `fuel` rounds, after a number of restarts. -/
def rounds (assumptions : List Lit) : Nat → Nat → Solver → Except Fault (Answer × Solver)
  | 0, _, _ => .error .overflow
  | fuel + 1, restarts, s => do
    let (expired, s) := s.poll
    if expired then return (.unknown, s)
    let (result, s) ← s.round (← s.options.allowance restarts) assumptions
    match result with
    | .sat => return (.sat, { s with model := s.board.trail.values })
    | .unsat => return (.unsat, s)
    | .interrupted => return (.unknown, s)
    | .restart => rounds assumptions fuel (restarts + 1) { s with restarts := s.restarts + 1 }

/-- Look for a model of the clauses in which all assumptions hold. Restarts are counted in a word of
64 bits. -/
def solve (s : Solver) (assumptions : List Lit) : Except Fault (Answer × Solver) := do
  let s := { s with model := #[] }
  if !s.ok then return (.unsat, s)
  let s ← s.ensureVars (Lit.span assumptions)
  let s := { s with limit := .start s.options s.board.store.given.size }
  let (answer, s) ← rounds assumptions (1 <<< 64) 0 s
  return (answer, ← s.backtrack 0)

end Solver

end Countermodels.Sat
