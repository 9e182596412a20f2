import Countermodels.Sat.Heap
import Countermodels.Sat.Trail

/-! The branching order. A variable rises when conflicts touch it, and later conflicts weigh more:
instead of lowering all activities, the step by which they rise grows. -/

namespace Countermodels.Sat

structure VarOrder where
  activity : Array Float := #[]
  heap : Heap := {}
  decay : Float
  step : Float := 1.0
  deriving Repr, Inhabited

namespace VarOrder

/-- Activities above this bound are scaled down. -/
def ceiling : Float := 1e100

def shrink : Float := 1e-100

@[inline] def higher (activity : Array Float) : Heap.Higher := fun a b => do
  return (← Table.read activity a) > (← Table.read activity b)

/-- Bring a variable back into the order. -/
def insert (o : VarOrder) (v : Nat) : Except Fault VarOrder := do
  return { o with heap := ← o.heap.insert (higher o.activity) v }

/-- Make a variable known. -/
def declare (o : VarOrder) (v : Nat) : Except Fault VarOrder :=
  { o with activity := Table.grow o.activity (v + 1) 0.0 }.insert v

def fade (o : VarOrder) : VarOrder := { o with step := o.step / o.decay }

/-- Raise a variable, and scale all activities down when one grows too large. -/
def bump (o : VarOrder) (v : Nat) : Except Fault VarOrder := do
  let raised := (← Table.read o.activity v) + o.step
  let activity := o.activity.setIfInBounds v raised
  let o := if raised > ceiling then
      { o with activity := activity.map (· * shrink), step := o.step * shrink }
    else { o with activity }
  return { o with heap := ← o.heap.update (higher o.activity) v }

/-- Take variables until one is free; at most `fuel` are taken. -/
def pickWithin (values : Array Value) : Nat → VarOrder → Except Fault (Option Nat × VarOrder)
  | 0, o => .ok (none, o)
  | fuel + 1, o => do
    let (top, heap) ← o.heap.pop? (higher o.activity)
    let o := { o with heap }
    match top with
    | none => return (none, o)
    | some v => if (← Table.read values v) = .free then return (some v, o) else pickWithin values fuel o

/-- Take the highest free variable. -/
def pick (o : VarOrder) (values : Array Value) : Except Fault (Option Nat × VarOrder) :=
  o.pickWithin values o.heap.size

/-- Take at most `most` free variables, highest first. -/
def pickMany (values : Array Value) : Nat → VarOrder → Except Fault (List Nat × VarOrder)
  | 0, o => .ok ([], o)
  | most + 1, o => do
    match ← o.pick values with
    | (none, o) => return ([], o)
    | (some v, o) =>
      let (vs, o) ← pickMany values most o
      return (v :: vs, o)

/-- Take all free variables, highest first. -/
def drain (o : VarOrder) (values : Array Value) : Except Fault (List Nat × VarOrder) :=
  o.pickMany values (o.heap.size + 1)

end VarOrder

end Countermodels.Sat
