import Countermodels.Sat.Solver

/-! Conflict analysis. Starting from a false clause, literals of the current level are replaced by
their reasons, backwards along the trail, until one of them is left: the first unique implication
point. Its negation and the literals of lower levels that were met form the learnt clause, which is
then shrunk by literals that follow from the others. -/

namespace Countermodels.Sat

/-- A learnt clause with the level to go back to. Its first literal becomes true there; its second
is one of that level. -/
structure Learnt where
  lits : Array Lit
  level : Nat

/-- The state of an analysis: `pending` marked literals of the current level are still to be
replaced, and `lower` collects the literals of lower levels. -/
structure Analysis where
  marks : Array Bool
  order : VarOrder
  store : ClauseStore
  lower : Array Lit := #[]
  pending : Nat := 0

namespace Analysis

/-- Mark a literal that has not been met, unless it is fixed at the root level. -/
def meet (t : Trail) (a : Analysis) (q : Lit) : Except Fault Analysis := do
  if ← Table.read a.marks q.var then return a
  let level ← t.level q.var
  if level = 0 then return a
  let a := { a with order := ← a.order.bump q.var, marks := a.marks.setIfInBounds q.var true }
  if t.depth ≤ level then return { a with pending := a.pending + 1 }
  return { a with lower := a.lower.push q }

/-- The literals of a clause that made its first literal true. -/
def premises (store : ClauseStore) (id : Nat) : Except Fault (List Lit) := do
  match (← Table.read store.clauses id).lits.toList with
  | [] => throw .index
  | _ :: ls => return ls

/-- Walk down the first `i` literals of the trail and replace marked ones by their reasons, until the
last one of the current level is met. -/
def walk (t : Trail) : Nat → Analysis → Except Fault (Lit × Analysis)
  | 0, _ => .error .trail
  | i + 1, a => do
    let p ← Table.read t.lits i
    if ← Table.read a.marks p.var then
      let a := { a with marks := a.marks.setIfInBounds p.var false }
      match a.pending with
      | 0 => throw .path
      | 1 => return (p, { a with pending := 0 })
      | n + 2 =>
        match ← t.reason p.var with
        | none => throw .reason
        | some id =>
          let a := { a with pending := n + 1, store := ← a.store.bump id }
          walk t i (← (← premises a.store id).foldlM (meet t) a)
    else walk t i a

/-- Whether a literal of the reasons is not covered by marked variables and the root level. -/
def anyUncovered (t : Trail) (marks : Array Bool) : List Lit → Except Fault Bool
  | [] => .ok false
  | r :: rs => do
    if !(← Table.read marks r.var) && 0 < (← t.level r.var) then return true
    anyUncovered t marks rs

/-- Keep the literals whose reasons are not covered by the others. -/
def keepUncovered (t : Trail) (store : ClauseStore) (marks : Array Bool) :
    List Lit → Except Fault (List Lit)
  | [] => .ok []
  | q :: qs => do
    let keep ← match ← t.reason q.var with
      | none => pure true
      | some id => anyUncovered t marks (← premises store id)
    let rest ← keepUncovered t store marks qs
    return if keep then q :: rest else rest

/-- A set of levels, folded into 32 bits. -/
def levelBit (t : Trail) (v : Nat) : Except Fault Nat := do
  return 1 <<< ((← t.level v) % 32)

def levelBits (t : Trail) : List Lit → Except Fault Nat
  | [] => .ok 0
  | l :: ls => do return (← levelBit t l.var) ||| (← levelBits t ls)

/-- A walk along reasons: literals still to be explained, and variables it has marked. -/
structure Climb where
  stack : List Lit
  fresh : List Nat := []
  marks : Array Bool

def unmark (marks : Array Bool) (vars : List Nat) : Array Bool :=
  vars.foldl (fun marks v => marks.setIfInBounds v false) marks

/-- Add the premises of a reason to a climb; it fails at a decision, or at a level that the learnt
clause does not touch. -/
def explain (t : Trail) (levels : Nat) : List Lit → Climb → Except Fault (Bool × Climb)
  | [], c => .ok (true, c)
  | r :: rs, c => do
    if (← Table.read c.marks r.var) || (← t.level r.var) = 0 then explain t levels rs c
    else if (← t.reason r.var).isSome && (← levelBit t r.var) &&& levels ≠ 0 then
      explain t levels rs
        { stack := r :: c.stack, fresh := r.var :: c.fresh, marks := c.marks.setIfInBounds r.var true }
    else return (false, c)

/-- Whether all literals of the stack follow from marked ones. Every step takes a literal that was
marked when it came to the stack. -/
def climb (t : Trail) (store : ClauseStore) (levels : Nat) : Nat → Climb → Except Fault (Bool × Climb)
  | 0, _ => .error .bound
  | fuel + 1, c =>
    match c.stack with
    | [] => .ok (true, c)
    | q :: stack => do
      match ← t.reason q.var with
      | none => throw .reason
      | some id =>
        let (explained, c) ← explain t levels (← premises store id) { c with stack }
        if explained then climb t store levels fuel c else return (false, c)

/-- Keep the literals that do not follow from the others. Marks of a climb that failed are undone;
those of the others are listed. -/
def keepIndependent (t : Trail) (store : ClauseStore) (levels : Nat) :
    List Lit → List Nat → Array Bool → Except Fault (List Lit × List Nat × Array Bool)
  | [], fresh, marks => .ok ([], fresh, marks)
  | q :: qs, fresh, marks => do
    if (← t.reason q.var).isNone then
      let (kept, fresh, marks) ← keepIndependent t store levels qs fresh marks
      return (q :: kept, fresh, marks)
    let (follows, c) ← climb t store levels (marks.size + 2) { stack := [q], marks }
    if follows then keepIndependent t store levels qs (c.fresh ++ fresh) c.marks
    else
      let (kept, fresh, marks) ← keepIndependent t store levels qs fresh (unmark c.marks c.fresh)
      return (q :: kept, fresh, marks)

/-- Shrink a list of marked literals, and clear all marks. -/
def minimize (mode : Minimization) (t : Trail) (store : ClauseStore) (lits : List Lit)
    (marks : Array Bool) : Except Fault (List Lit × Array Bool) := do
  let marked := lits.map Lit.var
  match mode with
  | .none => return (lits, unmark marks marked)
  | .direct => return (← keepUncovered t store marks lits, unmark marks marked)
  | .deep =>
    let (kept, fresh, marks) ← keepIndependent t store (← levelBits t lits) lits [] marks
    return (kept, unmark (unmark marks fresh) marked)

/-- The place and the level of the last literal that has the highest level. -/
def deepest (t : Trail) : List Lit → Nat → Nat × Nat → Except Fault (Nat × Nat)
  | [], _, best => .ok best
  | l :: ls, i, best => do
    let level ← t.level l.var
    deepest t ls (i + 1) (if best.2 ≤ level then (i, level) else best)

end Analysis

/-- Analyze a clause that became false: the learnt clause, and the solver with raised activities. -/
def Solver.analyze (s : Solver) (conflict : Nat) : Except Fault (Learnt × Solver) := do
  let ⟨options, ⟨trail, store, watchers, propagations⟩, order, phases, marks, model, ok, numAdded,
    simplifiedAt, limit, budget, decisions, conflicts, restarts⟩ := s
  let store ← store.bump conflict
  let clause ← Table.read store.clauses conflict
  let a ← clause.lits.toList.foldlM (Analysis.meet trail) { marks, order, store }
  let (uip, a) ← a.walk trail trail.lits.size
  let (lower, marks) ← Analysis.minimize options.minimization trail a.store a.lower.toList a.marks
  let (place, level) ← Analysis.deepest trail lower 1 (1, 0)
  let lits := (uip.neg :: lower).toArray.swapIfInBounds 1 place
  return (⟨lits, level⟩, ⟨options, ⟨trail, a.store, watchers, propagations⟩, a.order, phases, marks, model,
    ok, numAdded, simplifiedAt, limit, budget, decisions, conflicts, restarts⟩)

end Countermodels.Sat
