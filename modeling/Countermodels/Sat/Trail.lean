import Countermodels.Cnf.Lit
import Countermodels.Table

/-! The trail: the assigned literals in the order in which they were assigned, cut into decision
levels, with the value, the level and the reason of every variable. -/

namespace Countermodels.Sat

/-- What is known of a variable or a literal. -/
inductive Value where
  | holds
  | fails
  | free
  deriving DecidableEq, Repr, Inhabited

namespace Value

def ofBool (b : Bool) : Value := if b then holds else fails

def toBool? : Value → Option Bool
  | holds => some true
  | fails => some false
  | free => none

/-- The value of a literal, from that of its variable and its sign. -/
def flip : Value → Bool → Value
  | free, _ => free
  | v, false => v
  | holds, true => fails
  | fails, true => holds

end Value

/-- How a variable came to its value: the clause that forced it, and its decision level. -/
structure Origin where
  reason : Option Nat := none
  level : Nat := 0
  deriving Repr, Inhabited

structure Trail where
  values : Array Value := #[]
  origins : Array Origin := #[]
  lits : Array Lit := #[]
  /-- Length of the trail at the start of each decision level. -/
  marks : Array Nat := #[]
  /-- Number of literals that have been propagated. -/
  head : Nat := 0
  deriving Repr, Inhabited

namespace Trail

/-- Make the first `n` variables known, without a value. -/
def declare (t : Trail) (n : Nat) : Trail :=
  { t with values := Table.grow t.values n .free, origins := Table.grow t.origins n {} }

@[inline] def value (t : Trail) (l : Lit) : Except Fault Value := do
  return (← Table.read t.values l.var).flip l.negated

def reason (t : Trail) (v : Nat) : Except Fault (Option Nat) := do
  return (← Table.read t.origins v).reason

def level (t : Trail) (v : Nat) : Except Fault Nat := do
  return (← Table.read t.origins v).level

/-- Number of open decision levels. -/
def depth (t : Trail) : Nat := t.marks.size

def openLevel (t : Trail) : Trail := { t with marks := t.marks.push t.lits.size }

/-- Make a free literal true. -/
def assign (t : Trail) (l : Lit) (reason : Option Nat) : Except Fault Trail := do
  let ⟨values, origins, lits, marks, head⟩ := t
  if (← Table.read values l.var) = .free then
    return {
      values := values.setIfInBounds l.var (.ofBool !l.negated)
      origins := origins.setIfInBounds l.var ⟨reason, marks.size⟩
      lits := lits.push l
      marks
      head }
  throw .assigned

/-- The next literal to propagate. -/
def next? (t : Trail) : Option (Lit × Trail) :=
  if h : t.head < t.lits.size then some (t.lits[t.head], { t with head := t.head + 1 }) else none

/-- Undo all assignments above a level; the undone literals come most recent first. -/
def cancel (t : Trail) (level : Nat) : Except Fault (List Lit × Trail) := do
  if t.depth ≤ level then return ([], t)
  let start ← Table.read t.marks level
  let undone := (t.lits.extract start t.lits.size).toList.reverse
  return (undone, { t with
    values := undone.foldl (fun values l => values.setIfInBounds l.var .free) t.values
    lits := t.lits.shrink start
    marks := t.marks.shrink level
    head := start })

/-- The literals of the root level. -/
def fixed (t : Trail) : List Lit := (t.lits.extract 0 (t.marks.getD 0 t.lits.size)).toList

end Trail

end Countermodels.Sat
