import Countermodels.Cnf.Basic
import Countermodels.Sat.Board
import Countermodels.Sat.Budget
import Countermodels.Sat.Schedule
import Countermodels.Sat.VarOrder

/-! An incremental solver: variables and clauses can be added between searches, and the model of the
last search stays readable until the next one. -/

namespace Countermodels.Sat

structure Solver where
  options : Options
  board : Board
  order : VarOrder
  /-- For every variable, whether to branch on its negative literal first. -/
  phases : Array Bool := #[]
  /-- Variables marked by the analysis of a conflict. -/
  marks : Array Bool := #[]
  /-- Values found by the last search. -/
  model : Array Value := #[]
  /-- Whether the clauses may still be satisfiable without assumptions. -/
  ok : Bool := true
  /-- Number of clauses ever given. -/
  numAdded : Nat := 0
  /-- Length of the root trail when satisfied clauses were last removed. -/
  simplifiedAt : Option Nat := none
  limit : LearntLimit := {}
  budget : Budget := .unlimited
  decisions : Nat := 0
  conflicts : Nat := 0
  restarts : Nat := 0

namespace Solver

def new (options : Options) : Solver where
  options
  board := { store := { decay := options.clauseDecay } }
  order := { decay := options.varDecay }

def numVars (s : Solver) : Nat := s.board.numVars

def numLearnts (s : Solver) : Nat := s.board.store.learnts.size

def text (s : Solver) : String :=
  s!"Solver(vars={s.numVars}, clauses={s.numAdded}, learnts={s.numLearnts}, conflicts={s.conflicts})"

/-- Add a variable; it comes with the result. -/
def newVar (s : Solver) : Except Fault (Nat × Solver) := do
  let v := s.numVars
  return (v, { s with
    board := s.board.declare (v + 1)
    order := ← s.order.declare v
    phases := s.phases.push !s.options.firstPhase
    marks := s.marks.push false })

/-- Add a number of variables. -/
def addVars : Nat → Solver → Except Fault Solver
  | 0, s => .ok s
  | k + 1, s => do addVars k (← s.newVar).2

/-- Make sure that the first `n` variables exist. -/
def ensureVars (s : Solver) (n : Nat) : Except Fault Solver := s.addVars (n - s.numVars)

/-- The value of a literal in the last model. -/
def value (s : Solver) (l : Lit) : Value := (s.model.getD l.var .free).flip l.negated

/-- Whether a sorted list has two neighbours that contradict each other. -/
def hasComplement : List Lit → Bool
  | l :: m :: ls => m = l.neg || hasComplement (m :: ls)
  | _ => false

/-- The literals that are free, or `none` if one of them holds. -/
def remaining (t : Trail) : List Lit → Except Fault (Option (List Lit))
  | [] => .ok (some [])
  | l :: ls => do
    match ← t.value l with
    | .holds => return none
    | .fails => remaining t ls
    | .free => return (← remaining t ls).map (l :: ·)

/-- Add a clause at the root level. The result says whether the clauses may still be satisfiable. -/
def addClause (s : Solver) (lits : List Lit) : Except Fault (Bool × Solver) := do
  if s.board.trail.depth ≠ 0 then throw .level
  let s := { s with numAdded := s.numAdded + 1 }
  if !s.ok then return (false, s)
  let s ← s.ensureVars (Lit.span lits)
  let lits := (lits.mergeSort (fun l m => l.code ≤ m.code)).eraseReps
  if hasComplement lits then return (true, s)
  match ← remaining s.board.trail lits with
  | none => return (true, s)
  | some [] => return (false, { s with ok := false })
  | some [l] =>
    let (conflict, board) ← (← s.board.assign l none).propagate
    return (conflict.isNone, { s with board, ok := conflict.isNone })
  | some lits => return (true, { s with board := (← s.board.addClause lits.toArray false).2 })

/-- Add clauses in order. The result says whether each of them left the clauses possibly satisfiable. -/
def addClauses (s : Solver) (clauses : List (List Lit)) : Except Fault (Bool × Solver) :=
  clauses.foldlM (fun (all, s) c => do
    let (r, s) ← s.addClause c
    return (all && r, s)) (true, s)

/-- The literals that the last model makes true, in the order of their variables. -/
def modelLiterals (s : Solver) : List Lit :=
  s.model.toList.zipIdx.filterMap fun (v, i) => v.toBool?.map fun b => .ofVar i !b

/-- Remember the sign of a literal that is undone, and bring its variable back into the order. -/
def release (s : Solver) (l : Lit) : Except Fault Solver := do
  return { s with
    phases := s.phases.setIfInBounds l.var l.negated
    order := ← s.order.insert l.var }

/-- Undo all assignments above a level. -/
def backtrack (s : Solver) (level : Nat) : Except Fault Solver := do
  let (undone, trail) ← s.board.trail.cancel level
  undone.foldlM release { s with board := { s.board with trail } }

/-- The literals that are true at the root level, in the order of their codes. -/
def fixedLiterals (s : Solver) : List Lit :=
  s.board.trail.fixed.mergeSort (fun l m => l.code ≤ m.code)

end Solver

end Countermodels.Sat
