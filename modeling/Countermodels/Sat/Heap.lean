import Countermodels.Table

/-! A binary heap of keys that knows where each key stands. The order is handed to every operation,
because the priorities change between operations and belong to someone else: `higher a b` says that
`a` is to be taken before `b`. -/

namespace Countermodels.Sat

/-- Keys in heap order, and for every key its place among them. -/
structure Heap where
  keys : Array Nat := #[]
  places : Array (Option Nat) := #[]
  deriving Repr, Inhabited

namespace Heap

abbrev Higher := Nat → Nat → Except Fault Bool

def size (h : Heap) : Nat := h.keys.size

def contains (h : Heap) (k : Nat) : Bool := (h.places.getD k none).isSome

/-- Put a key at a place. -/
@[inline] def put (h : Heap) (i k : Nat) : Heap :=
  { keys := h.keys.setIfInBounds i k, places := h.places.setIfInBounds k (some i) }

/-- Let `x` rise from the hole at `i` to where its parent is not lower. -/
@[specialize] def siftUp (higher : Higher) (x i : Nat) (h : Heap) : Except Fault Heap :=
  if i = 0 then .ok (h.put 0 x)
  else do
    let parent := (i - 1) / 2
    let k ← Table.read h.keys parent
    if ← higher x k then siftUp higher x parent (h.put i k) else .ok (h.put i x)
termination_by i
decreasing_by omega

/-- The higher child of the place `i`, if it has one; of two equals the left. -/
@[specialize] def higherChild (higher : Higher) (i : Nat) (h : Heap) : Except Fault (Option Nat) := do
  let left := 2 * i + 1
  if left < h.keys.size then
    if left + 1 < h.keys.size then
      if ← higher (← Table.read h.keys (left + 1)) (← Table.read h.keys left) then
        return some (left + 1)
    return some left
  return none

/-- Let `x` sink from the hole at `i` to where no child is higher; `fuel` bounds the way down. -/
@[specialize] def siftDown (higher : Higher) (x : Nat) : Nat → Nat → Heap → Except Fault Heap
  | 0, _, _ => .error .bound
  | fuel + 1, i, h => do
    match ← higherChild higher i h with
    | none => .ok (h.put i x)
    | some child =>
      let k ← Table.read h.keys child
      if ← higher k x then siftDown higher x fuel child (h.put i k) else .ok (h.put i x)

@[specialize] def insert (higher : Higher) (k : Nat) (h : Heap) : Except Fault Heap :=
  if h.contains k then .ok h
  else
    let i := h.keys.size
    let places := (Table.grow h.places (k + 1) none).setIfInBounds k (some i)
    siftUp higher k i { keys := h.keys.push k, places }

/-- Restore the order after the priority of a key has been raised. -/
@[specialize] def update (higher : Higher) (k : Nat) (h : Heap) : Except Fault Heap :=
  match h.places.getD k none with
  | none => .ok h
  | some i => siftUp higher k i h

/-- Take a highest key. -/
@[specialize] def pop? (higher : Higher) (h : Heap) : Except Fault (Option Nat × Heap) :=
  match h.keys.back? with
  | none => .ok (none, h)
  | some last =>
    let keys := h.keys.pop
    if hne : 0 < keys.size then do
      let top := keys[0]
      let places := (h.places.setIfInBounds top none).setIfInBounds last (some 0)
      let rest ← siftDown higher last keys.size 0 { keys := keys.set 0 last hne, places }
      return (some top, rest)
    else .ok (some last, { keys, places := h.places.setIfInBounds last none })

def clear (h : Heap) : Heap :=
  { keys := #[], places := h.keys.foldl (fun places k => places.setIfInBounds k none) h.places }

/-- Take at most `most` keys, highest first. -/
@[specialize] def popMany (higher : Higher) : Nat → Heap → Except Fault (List Nat × Heap)
  | 0, h => .ok ([], h)
  | most + 1, h => do
    match ← h.pop? higher with
    | (none, h) => return ([], h)
    | (some k, h) =>
      let (ks, h) ← popMany higher most h
      return (k :: ks, h)

/-- Take all keys, highest first. -/
@[specialize] def drain (higher : Higher) (h : Heap) : Except Fault (List Nat × Heap) :=
  h.popMany higher h.size

end Heap

end Countermodels.Sat
