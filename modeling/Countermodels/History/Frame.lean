import Countermodels.Cnf.Choice
import Countermodels.Cnf.Order
import Countermodels.Draft
import Countermodels.Formula.Valuation
import Countermodels.Settings
import Countermodels.State.Basic

/-! Clauses for sets of world histories. There is a bounded number of slots; the first holds the main
history, the slots in use come before the others, and the histories after the main one differ from it
and increase, so that every set of histories has one layout. A set is closed under time shifts: moved
by one step, each history agrees with one of the set wherever both have a state. -/

namespace Countermodels.History

structure Frame where
  space : StateSpace
  m : Nat
  /-- Which slots are in use. -/
  active : Array Lit
  /-- The state of each slot at each time. -/
  states : Array (Array (Choice State))
  /-- Which state may follow which. -/
  task : Array (Array Lit)
  deriving Repr

namespace Frame

/-- Number of slots for `n` atomic states and `m` times each way. -/
def bound (n m : Nat) : Nat := 1 <<< n + 2 * (2 * m - 1)

def numHistories (f : Frame) : Nat := f.active.size

def numTimes (f : Frame) : Nat := 2 * f.m - 1

/-- The index of the present. -/
def now (f : Frame) : Nat := f.m - 1

/-- The time at an index, counted from the present. -/
def time (f : Frame) (t : Nat) : Int := (t : Int) - f.now

def histories (f : Frame) : List Nat := List.range f.numHistories

def times (f : Frame) : List Nat := List.range f.numTimes

def isActive (f : Frame) (h : Nat) : Lit := f.active.getD h default

/-- The state of a slot at a time. -/
def choice (f : Frame) (h t : Nat) : Choice State := (f.states.getD h #[]).getD t ⟨[], []⟩

/-- A literal for a slot to be in a state at a time. -/
def isAt (f : Frame) (h t : Nat) (s : State) : Lit := ((f.choice h t).find? s).getD default

def isTask (f : Frame) (s s' : State) : Lit := (f.task.getD s.bits #[]).getD s'.bits default

/-- The literals of a slot, time by time. -/
def lits (f : Frame) (h : Nat) : List Lit := f.times.flatMap fun t => (f.choice h t).lits

variable {σ : Type} [Sink σ]

/-- The main slot is in use, and the slots in use come first; the others stay at the null state. -/
def activeFirst (f : Frame) : StateM σ Unit := do
  Emit.unit (f.isActive 0)
  (f.histories.drop 1).forM fun h => Emit.imply (f.isActive h) (f.isActive (h - 1))
  f.histories.forM fun h => f.times.forM fun t =>
    Emit.imply (f.isActive h).neg (f.isAt h t .null)

/-- Literals for the places where a list of literals holds and another does not. -/
def differences : List Lit → List Lit → StateM σ (List Lit)
  | x :: xs, y :: ys => do
    let d ← Emit.fresh
    Emit.imply d x
    Emit.imply d y.neg
    return d :: (← differences xs ys)
  | _, _ => pure []

/-- The other histories differ from the main one and increase. -/
def canonical (f : Frame) : StateM σ Unit := do
  (f.histories.drop 1).forM fun h => do
    let ds ← differences (f.lits h) (f.lits 0)
    Emit.implyAny (f.isActive h) ds
  (f.histories.drop 2).forM fun h =>
    Emit.lexOrder (some (f.isActive h)) (f.lits (h - 1)) (f.lits h) true

/-- The steps of a slot are tasks. -/
def stepsAreTasks (f : Frame) (h : Nat) : StateM σ Unit :=
  (List.range (f.numTimes - 1)).forM fun t =>
    f.space.states.forM fun s => f.space.states.forM fun s' =>
      Emit.clause [(f.isActive h).neg, (f.isAt h t s).neg, (f.isAt h (t + 1) s').neg, f.isTask s s']

/-- A task from one state to another is a step of a slot in use. -/
def taskIsStep (f : Frame) (s s' : State) : StateM σ Unit := do
  let places := f.histories.flatMap fun h => (List.range (f.numTimes - 1)).map fun t => (h, t)
  let steps ← places.mapM fun (h, t) => do
    let step ← Emit.fresh
    Emit.implyAll step [f.isActive h, f.isAt h t s, f.isAt h (t + 1) s']
    return step
  Emit.implyAny (f.isTask s s') steps

/-- The pairs of a time and the time it is moved to, as far as both exist. -/
def shifts (f : Frame) (forward : Bool) : List (Nat × Nat) :=
  (List.range (f.numTimes - 1)).map fun t => if forward then (t, t + 1) else (t + 1, t)

/-- If `selected`, the slot `h'` is the slot `h` moved by one step. -/
def agrees (f : Frame) (selected : Lit) (h h' : Nat) (forward : Bool) : StateM σ Unit := do
  Emit.imply selected (f.isActive h')
  (f.shifts forward).forM fun (t, moved) =>
    f.space.states.forM fun s => Emit.implyImply selected (f.isAt h moved s) (f.isAt h' t s)

/-- Moved by one step, a slot in use agrees with one of the slots in use. -/
def shiftExists (f : Frame) (selected : List Lit) (h : Nat) (forward : Bool) : StateM σ Unit := do
  Emit.implyAny (f.isActive h) selected
  (selected.zip f.histories).forM fun (l, h') => f.agrees l h h' forward

/-- The set of histories is closed under shifts by one step. -/
def closedUnderShifts (f : Frame) : DraftM Unit := do
  let selected ← f.histories.mapM fun _ => do
    let earlier ← Draft.emit (Emit.freshList f.numHistories)
    let later ← Draft.emit (Emit.freshList f.numHistories)
    return (earlier, later)
  (f.histories.zip selected).forM fun (h, earlier, later) => do
    Draft.checkDeadline
    Draft.emit (f.shiftExists earlier h false)
    Draft.emit (f.shiftExists later h true)

def declare (f : Frame) : DraftM Unit := do
  Draft.emit f.activeFirst
  Draft.emit f.canonical
  Draft.checkDeadline
  f.histories.forM fun h => do
    Draft.checkDeadline
    Draft.emit (f.stepsAreTasks h)
  f.space.states.forM fun s => do
    Draft.checkDeadline
    f.space.states.forM fun s' => Draft.emit (f.taskIsStep s s')
  if 1 < f.numTimes then f.closedUnderShifts

/-- A list of results of one emission. -/
def repeatEmit {α : Type} (k : Nat) (m : StateM σ α) : StateM σ (List α) := (List.range k).mapM fun _ => m

/-- A frame over a space of states with `m` times each way. -/
def new (space : StateSpace) (m : Nat) : DraftM Frame := do
  let histories := bound space.n m
  let active ← Draft.emit (Emit.freshArray histories)
  let row : StateM Cnf (Array (Choice State)) := return (← repeatEmit (2 * m - 1) (Choice.one space.states)).toArray
  let states ← Draft.emit (repeatEmit histories row)
  let task ← Draft.emit (repeatEmit space.size (Emit.freshArray space.size))
  let f : Frame := { space, m, active, states := states.toArray, task := task.toArray }
  f.declare
  return f

/-- The constraints on the states where a letter is true. -/
def constrainLetter (settings : Settings) (lits : Array Lit) : StateM σ Unit := do
  if settings.contingent then
    Emit.clause lits.toList
    Emit.clause (lits.toList.map Lit.neg)
  if settings.nonEmpty then Emit.clause lits.toList
  if settings.nonNull then Emit.unit (lits.getD 0 default).neg

/-- No state makes two letters true. -/
def allDisjoint : List (Array Lit) → StateM σ Unit
  | [] => pure ()
  | p :: ps => do
    ps.forM fun q => (p.toList.zip q.toList).forM fun (x, y) => Emit.clause [x.neg, y.neg]
    allDisjoint ps

/-- For each sentence letter, a literal for every state at which it may be true. -/
def valuation (f : Frame) (settings : Settings) (letters : List Atom) :
    StateM σ (Valuation (Array Lit)) := do
  let pairs ← letters.mapM fun a => do return (a, ← Emit.freshArray f.space.size)
  let v := Valuation.ofList pairs
  v.meanings.forM (constrainLetter settings)
  if settings.disjoint then allDisjoint v.meanings
  return v

/-- Literals that pin down the histories. -/
def essential (f : Frame) : List Lit := f.active.toList ++ f.histories.flatMap f.lits

end Frame

end Countermodels.History
