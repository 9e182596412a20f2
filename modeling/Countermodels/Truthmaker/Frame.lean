import Countermodels.Cnf.Choice
import Countermodels.Formula.Valuation
import Countermodels.Settings
import Countermodels.State.Basic

/-! Clauses for truthmaker models: which states are possible, which of them are worlds, which world is
the one of evaluation, and which states verify and falsify each sentence letter. -/

namespace Countermodels.Truthmaker

/-- The literal of a state in a table with one for every state. -/
def litAt (lits : Array Lit) (s : State) : Lit := lits.getD s.bits default

structure Frame where
  space : StateSpace
  possible : Array Lit
  world : Array Lit
  eval : Choice State
  deriving Repr

/-- A literal for each state to be a verifier or a falsifier. -/
structure ContentLits where
  ver : Array Lit
  fal : Array Lit
  deriving DecidableEq, Repr, Inhabited

namespace ContentLits

/-- The content of the negation. -/
def swapped (c : ContentLits) : ContentLits := ⟨c.fal, c.ver⟩

/-- The literals of all states, verifiers first. -/
def lits (c : ContentLits) : List Lit := c.ver.toList ++ c.fal.toList

end ContentLits

namespace Frame

variable {σ : Type} [Sink σ]

def isPossible (f : Frame) (s : State) : Lit := litAt f.possible s

def isWorld (f : Frame) (s : State) : Lit := litAt f.world s

def isEval (f : Frame) (s : State) : Lit := (f.eval.find? s).getD default

/-- Parts of possible states are possible. It is enough to take away one atomic state. -/
def closedUnderParts (f : Frame) : StateM σ Unit :=
  f.space.states.forM fun s =>
    (f.space.atoms.filter (·.isPartOf s)).forM fun b =>
      Emit.imply (f.isPossible s) (f.isPossible (s.without b))

/-- Worlds are the possible states that cannot be extended by an atomic state. -/
def worldsAreMaximal (f : Frame) : StateM σ Unit :=
  f.space.states.forM fun s =>
    Emit.iffAll (f.isWorld s)
      (f.isPossible s :: (f.space.extensions s).map fun b => (f.isPossible (s.fusion b)).neg)

/-- The world of evaluation is a world. -/
def evalIsWorld (f : Frame) : StateM σ Unit :=
  f.space.states.forM fun s => Emit.imply (f.isEval s) (f.isWorld s)

def declare (f : Frame) : StateM σ Unit := do
  Emit.unit (f.isPossible .null)
  f.closedUnderParts
  f.worldsAreMaximal
  Emit.clause f.world.toList
  f.evalIsWorld

/-- A frame over a space of states. -/
def new (space : StateSpace) : StateM σ Frame := do
  let possible ← Emit.freshArray space.size
  let world ← Emit.freshArray space.size
  let eval ← Choice.one space.states
  let f : Frame := { space, possible, world, eval }
  f.declare
  return f

/-- Verifiers are closed under fusion, falsifiers too, and no verifier is compatible with a falsifier. -/
def contentIsClosed (f : Frame) (c : ContentLits) : StateM σ Unit :=
  f.space.states.forM fun x => f.space.states.forM fun y => do
    let z := x.fusion y
    if x < y then
      Emit.implyImply (litAt c.ver x) (litAt c.ver y) (litAt c.ver z)
      Emit.implyImply (litAt c.fal x) (litAt c.fal y) (litAt c.fal z)
    Emit.implyImply (litAt c.ver x) (litAt c.fal y) (f.isPossible z).neg

/-- Every world has a verifier or a falsifier as a part. -/
def contentIsExhaustive (f : Frame) (c : ContentLits) : StateM σ Unit :=
  f.space.states.forM fun w =>
    Emit.implyAny (f.isWorld w) (w.parts.flatMap fun y => [litAt c.ver y, litAt c.fal y])

/-- Some state of a side is possible. -/
def somePossible (f : Frame) (side : Array Lit) : StateM σ Unit := do
  let witnesses ← f.space.states.mapM fun s => do
    let v ← Emit.fresh
    Emit.implyAll v [f.isPossible s, litAt side s]
    return v
  Emit.clause witnesses

/-- The constraints on the content of one letter. -/
def constrainContent (f : Frame) (settings : Settings) (c : ContentLits) : StateM σ Unit := do
  f.contentIsClosed c
  f.contentIsExhaustive c
  if settings.contingent then
    f.somePossible c.ver
    f.somePossible c.fal
  if settings.nonEmpty then
    Emit.clause c.ver.toList
    Emit.clause c.fal.toList
  if settings.nonNull then
    Emit.unit (litAt c.ver .null).neg
    Emit.unit (litAt c.fal .null).neg

/-- States of two contents that overlap exclude each other. -/
def contentsAreDisjoint (f : Frame) (p q : ContentLits) : StateM σ Unit :=
  f.space.states.forM fun x => f.space.states.forM fun y =>
    if x.overlaps y then do
      Emit.clause [(litAt p.ver x).neg, (litAt q.ver y).neg]
      Emit.clause [(litAt p.ver x).neg, (litAt q.fal y).neg]
      Emit.clause [(litAt p.fal x).neg, (litAt q.ver y).neg]
      Emit.clause [(litAt p.fal x).neg, (litAt q.fal y).neg]
    else pure ()

/-- All contents are pairwise disjoint. -/
def allDisjoint (f : Frame) : List ContentLits → StateM σ Unit
  | [] => pure ()
  | p :: ps => do
    ps.forM (f.contentsAreDisjoint p)
    f.allDisjoint ps

/-- Contents for sentence letters. -/
def valuation (f : Frame) (settings : Settings) (letters : List Atom) :
    StateM σ (Valuation ContentLits) := do
  let pairs ← letters.mapM fun a => do
    let ver ← Emit.freshArray f.space.size
    let fal ← Emit.freshArray f.space.size
    return (a, (⟨ver, fal⟩ : ContentLits))
  let v := Valuation.ofList pairs
  v.meanings.forM (f.constrainContent settings)
  if settings.disjoint then f.allDisjoint v.meanings
  return v

end Frame

end Countermodels.Truthmaker
