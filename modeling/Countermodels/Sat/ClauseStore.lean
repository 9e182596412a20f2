import Countermodels.Sat.Trail
import Countermodels.Sort

/-! The clauses of a solver: those it was given and those it learnt. A clause keeps its number for
ever; a deleted one keeps no literals. Learnt clauses have an activity, and the less active half of
them can be dropped. -/

namespace Countermodels.Sat

structure Clause where
  lits : Array Lit
  learnt : Bool
  deleted : Bool := false
  activity : Float := 0.0
  deriving Repr, Inhabited

namespace Clause

def delete (c : Clause) : Clause := { c with lits := #[], deleted := true }

def scale (c : Clause) (factor : Float) : Clause := { c with activity := c.activity * factor }

end Clause

/-- All clauses by number, and the numbers of the live ones. -/
structure ClauseStore where
  clauses : Array Clause := #[]
  given : Array Nat := #[]
  learnts : Array Nat := #[]
  decay : Float
  step : Float := 1.0
  deriving Repr, Inhabited

namespace ClauseStore

/-- Activities above this bound are scaled down. -/
def ceiling : Float := 1e20

def shrink : Float := 1e-20

/-- Add a clause; its number comes first. -/
def add (s : ClauseStore) (lits : Array Lit) (learnt : Bool) : Nat × ClauseStore :=
  let id := s.clauses.size
  let s := { s with clauses := s.clauses.push { lits, learnt } }
  (id, if learnt then { s with learnts := s.learnts.push id } else { s with given := s.given.push id })

def fade (s : ClauseStore) : ClauseStore := { s with step := s.step / s.decay }

/-- Raise a learnt clause, and scale all activities down when one grows too large. -/
def bump (s : ClauseStore) (id : Nat) : Except Fault ClauseStore := do
  let c ← Table.read s.clauses id
  if !c.learnt then return s
  let activity := c.activity + s.step
  let clauses := s.clauses.modify id ({ · with activity })
  if activity > ceiling then
    return { s with
      clauses := s.learnts.foldl (fun clauses i => clauses.modify i (·.scale shrink)) clauses
      step := s.step * shrink }
  return { s with clauses }

/-- Whether some literal holds. -/
def anyHolds (t : Trail) : List Lit → Except Fault Bool
  | [] => .ok false
  | l :: ls => do if (← t.value l) = .holds then return true else anyHolds t ls

/-- A clause is locked while it is the reason for its first literal. -/
def locked (t : Trail) (id : Nat) (c : Clause) : Except Fault Bool := do
  match c.lits[0]? with
  | none => return false
  | some l => if (← t.value l) = .holds then return (← t.reason l.var) = some id else return false

/-- Delete the clauses that fail a test. The test sees the place of each clause in the list, its
number, and the clause. -/
def prune (keep : Nat → Nat → Clause → Except Fault Bool) :
    List Nat → Nat → Array Nat → Array Clause → Except Fault (Array Nat × Array Clause)
  | [], _, kept, clauses => .ok (kept, clauses)
  | id :: ids, place, kept, clauses => do
    if ← keep place id (← Table.read clauses id) then
      prune keep ids (place + 1) (kept.push id) clauses
    else prune keep ids (place + 1) kept (clauses.modify id Clause.delete)

/-- Delete the clauses that are satisfied at the root level. -/
def simplify (s : ClauseStore) (t : Trail) : Except Fault ClauseStore := do
  if t.depth ≠ 0 then throw .level
  let keep := fun (_ id : Nat) (c : Clause) => do
    if ← anyHolds t c.lits.toList then locked t id c else return true
  let (given, clauses) ← prune keep s.given.toList 0 #[] s.clauses
  let (learnts, clauses) ← prune keep s.learnts.toList 0 #[] clauses
  return { s with clauses, given, learnts }

/-- The order in which learnt clauses are dropped: long ones first, then the less active. An activity
that is no number is neither below nor above another. -/
def droppedBefore (clauses : Array Clause) (i j : Nat) : Bool :=
  match clauses[i]?, clauses[j]? with
  | some a, some b =>
    let long (c : Clause) : Bool := 2 < c.lits.size
    if long a != long b then long a else a.activity < b.activity
  | _, _ => false

/-- Drop the less active half of the learnt clauses, but no clause that is locked or has at most two
literals. -/
def reduce (s : ClauseStore) (t : Trail) : Except Fault ClauseStore := do
  let least := s.step / (max s.learnts.size 1).toUInt64.toFloat
  let sorted ← Sort.sort (droppedBefore s.clauses) s.learnts.toList
  let half := s.learnts.size / 2
  let keep := fun (place id : Nat) (c : Clause) => do
    if c.lits.size ≤ 2 then return true
    if ← locked t id c then return true
    return half ≤ place && c.activity ≥ least
  let (learnts, clauses) ← prune keep sorted 0 #[] s.clauses
  return { s with clauses, learnts }

end ClauseStore

end Countermodels.Sat
