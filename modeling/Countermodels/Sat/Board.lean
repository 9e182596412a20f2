import Countermodels.Sat.ClauseStore

/-! Unit propagation with two watched literals. Every clause is watched by its first two literals, and
its watchers are visited only when one of these becomes false. A watcher remembers another literal
of the clause: if that one is true the clause need not be looked at. -/

namespace Countermodels.Sat

structure Watcher where
  clause : Nat
  blocker : Lit
  deriving Repr, Inhabited

/-- The trail and the clauses, with the watchers of every literal. -/
structure Board where
  trail : Trail := {}
  store : ClauseStore
  watchers : Array (Array Watcher) := #[]
  /-- Number of literals propagated so far. -/
  propagations : Nat := 0
  deriving Repr, Inhabited

namespace Board

def numVars (b : Board) : Nat := b.trail.values.size

/-- Make the first `n` variables known. -/
def declare (b : Board) (n : Nat) : Board :=
  { b with trail := b.trail.declare n, watchers := Table.grow b.watchers (2 * n) #[] }

/-- Let a literal be watched. -/
def watch (b : Board) (l : Lit) (w : Watcher) : Except Fault Board :=
  if l.code < b.watchers.size then
    .ok { b with watchers := b.watchers.modify l.code (·.push w) }
  else .error .index

/-- Watch the first two literals of a clause. -/
def attach (b : Board) (id : Nat) : Except Fault Board := do
  let c ← Table.read b.store.clauses id
  match c.lits[0]?, c.lits[1]? with
  | some l, some m => (← b.watch l ⟨id, m⟩).watch m ⟨id, l⟩
  | _, _ => throw .short

/-- Make a free literal true. -/
def assign (b : Board) (l : Lit) (reason : Option Nat) : Except Fault Board := do
  return { b with trail := ← b.trail.assign l reason }

/-- Add a clause of at least two literals, and watch it; its number comes first. -/
def addClause (b : Board) (lits : Array Lit) (learnt : Bool) : Except Fault (Nat × Board) := do
  let (id, store) := b.store.add lits learnt
  return (id, ← { b with store }.attach id)

/-- Raise a learnt clause. -/
def bump (b : Board) (id : Nat) : Except Fault Board := do
  return { b with store := ← b.store.bump id }

/-- Add a learnt clause, which makes its first literal true. -/
def learn (b : Board) (lits : Array Lit) : Except Fault Board := do
  let first ← Table.read lits 0
  if lits.size = 1 then b.assign first none
  else
    let (id, b) ← b.addClause lits true
    (← b.bump id).assign first (some id)

def fade (b : Board) : Board := { b with store := b.store.fade }

/-- Exchange two literals of a clause. -/
def swap (b : Board) (id i j : Nat) : Board :=
  let exchange := fun (c : Clause) => { c with lits := c.lits.swapIfInBounds i j }
  { b with store := { b.store with clauses := b.store.clauses.modify id exchange } }

/-- The first literal of a clause once a watched literal stands in the second place, and whether the
two must be exchanged for that. -/
def orient (lits : Array Lit) (l : Lit) : Except Fault (Lit × Bool) := do
  let first ← Table.read lits 0
  let second ← Table.read lits 1
  if first = l then return (second, true)
  if second = l then return (first, false)
  throw .watch

/-- Exchange the first two literals of a clause on a condition. -/
def turn (b : Board) (id : Nat) (turned : Bool) : Board := if turned then b.swap id 0 1 else b

/-- The first place from `k` on whose literal is not false. -/
def seek (t : Trail) (lits : Array Lit) (k : Nat) : Except Fault (Option (Nat × Lit)) :=
  if h : k < lits.size then do
    if (← t.value lits[k]) = .fails then seek t lits (k + 1) else return some (k, lits[k])
  else .ok none
termination_by lits.size - k

/-- Visit the watchers of a literal that became false. The watchers that stay are collected; the
number of a clause without a true or free literal ends the visit. -/
def visit (l : Lit) :
    List Watcher → Array Watcher → Board → Except Fault (Option Nat × Array Watcher × Board)
  | [], kept, b => .ok (none, kept, b)
  | w :: ws, kept, b => do
    if (← b.trail.value w.blocker) = .holds then visit l ws (kept.push w) b
    else
      let c ← Table.read b.store.clauses w.clause
      if c.deleted then visit l ws kept b
      else
        let (first, turned) ← orient c.lits l
        let w : Watcher := ⟨w.clause, first⟩
        match ← b.trail.value first with
        | .holds => visit l ws (kept.push w) (b.turn w.clause turned)
        | value =>
          match ← seek b.trail c.lits 2 with
          | some (k, m) => visit l ws kept (← ((b.turn w.clause turned).swap w.clause 1 k).watch m w)
          | none =>
            let b := b.turn w.clause turned
            if value = .fails then
              return (some w.clause, kept.push w ++ ws,
                { b with trail := { b.trail with head := b.trail.lits.size } })
            visit l ws (kept.push w) (← b.assign first (some w.clause))

/-- Propagate at most `fuel` literals of the trail. -/
def propagateWithin : Nat → Board → Except Fault (Option Nat × Board)
  | 0, _ => .error .bound
  | fuel + 1, b =>
    match b.trail.next? with
    | none => .ok (none, b)
    | some (p, trail) => do
      let l := p.neg
      let ws ← Table.read b.watchers l.code
      let b := { b with
        trail, watchers := b.watchers.setIfInBounds l.code #[], propagations := b.propagations + 1 }
      let (conflict, kept, b) ← visit l ws.toList #[] b
      let b := { b with watchers := b.watchers.modify l.code (kept ++ ·) }
      match conflict with
      | some id => return (some id, b)
      | none => propagateWithin fuel b

/-- Propagate all literals of the trail. The number of a clause that became false comes with the
result. Each literal is propagated once, and no more literals can join the trail than there are
variables. -/
def propagate (b : Board) : Except Fault (Option Nat × Board) :=
  b.propagateWithin (b.trail.lits.size + b.numVars + 1)

end Board

end Countermodels.Sat
