import Countermodels.Sat.Session

/-! All models that differ in some essential literals, one after the other. Each search is made under
the same assumptions, after what the model before said of the essential literals was excluded. -/

namespace Countermodels

structure Enumeration where
  essential : List Lit
  assumptions : List Lit := []
  /-- What the last model said, to be excluded before the next search. -/
  excluded : Option (List Lit) := none
  /-- The answer that ended the enumeration. -/
  stoppedBy : Option Sat.Answer := none
  deriving Repr

namespace Enumeration

/-- Start after the model that the session holds. -/
def resume (e : Enumeration) (s : Session) : Enumeration :=
  { e with excluded := some (s.refutation e.essential) }

/-- Look for the next model; says whether there is one. -/
def next (e : Enumeration) (s : Session) : Except Fault (Bool × Enumeration × Session) := do
  if e.stoppedBy.isSome then return (false, e, s)
  let s := match e.excluded with
    | some lits => s.add lits
    | none => s
  let (answer, s) ← (e.assumptions.foldl (fun s l => s.assume l) s).solve
  if answer = .sat then
    return (true, { e with excluded := some (s.refutation e.essential) }, s)
  return (false, { e with excluded := none, stoppedBy := some answer }, s)

/-- The values of the essential literals in at most `count` further models. -/
def take : Nat → Enumeration → Session →
    Except Fault (List (List Sat.Value) × Enumeration × Session)
  | 0, e, s => .ok ([], e, s)
  | count + 1, e, s => do
    let (found, e, s) ← e.next s
    if !found then return ([], e, s)
    let model := e.essential.map s.value
    let (models, e, s) ← take count e s
    return (model :: models, e, s)

end Enumeration

end Countermodels
