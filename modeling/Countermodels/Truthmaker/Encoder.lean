import Countermodels.Cnf.Order
import Countermodels.Draft
import Countermodels.Table
import Countermodels.Truthmaker.Frame
import Countermodels.Truthmaker.Model

/-! Formulas as literals over a truthmaker frame: for each state, a literal for the truth of a formula
there, and literals for its verifiers and falsifiers. What does not depend on the state is shared
between all of them. -/

namespace Countermodels.Truthmaker

structure Encoder where
  draft : Draft
  frame : Frame
  valuation : Valuation ContentLits
  gates : Gates
  /-- Contents written before, by formula, and by state where that matters. -/
  contents : Std.HashMap (Formula × Option State) ContentLits := {}
  truths : Std.HashMap (Formula × Option State) Lit := {}
  /-- Maximal compatible parts `z` of `w` for `x`, by `(z, w, x)`. -/
  parts : Std.HashMap (State × State × State) Lit := {}
  /-- Alternatives `u` to `w` for `x`, by `(w, x, u)`. -/
  alternatives : Std.HashMap (State × State × State) Lit := {}

abbrev EncodeM := EStateM Failure Encoder

namespace Encoder

def lift {α : Type} (m : DraftM α) : EncodeM α := fun e =>
  match m e.draft with
  | .ok a draft => .ok a { e with draft }
  | .error failure draft => .error failure { e with draft }

def emit {α : Type} (m : StateM Cnf α) : EncodeM α := lift (Draft.emit m)

def checkDeadline : EncodeM Unit := lift Draft.checkDeadline

/-- Use the gates. -/
def gate (m : Gates → StateM Cnf (Lit × Gates)) : EncodeM Lit := fun e =>
  let ((l, gates), cnf) := m e.gates e.draft.cnf
  .ok l { e with gates, draft := { e.draft with cnf } }

def all (xs : List Lit) : EncodeM Lit := gate (·.and xs)

def any (xs : List Lit) : EncodeM Lit := gate (·.or xs)

def same (a b : Lit) : EncodeM Lit := gate (·.iff a b)

def frameM : EncodeM Frame := return (← get).frame

def statesM : EncodeM (List State) := return (← frameM).space.states

def constant (value : Bool) : EncodeM Lit := return (← get).gates.constant value

/-- A table with the same literal for every state. -/
def constantTable (value : Bool) : EncodeM (Array Lit) := do
  return Array.replicate (← frameM).space.size (← constant value)

/-- The truth of a formula at a state, written once. -/
def memoTruth (f : Formula) (write : State → EncodeM Lit) : State → EncodeM Lit :=
  let rigid := f.isRigid
  fun w => do
    let key := (f, if rigid then none else some w)
    match (← get).truths[key]? with
    | some l => return l
    | none =>
      checkDeadline
      let l ← write w
      modify fun e => { e with truths := e.truths.insert key l }
      return l

/-- The content of a formula at a state, written once. -/
def memoContent (f : Formula) (write : State → EncodeM ContentLits) : State → EncodeM ContentLits :=
  let dependent := f.isWorldDependent
  fun w => do
    let key := (f, if dependent then some w else none)
    match (← get).contents[key]? with
    | some c => return c
    | none =>
      let c ← write w
      modify fun e => { e with contents := e.contents.insert key c }
      return c

/-- `z` is a maximal part of `w` compatible with `x`. -/
def maximalCompatiblePart (z w x : State) : EncodeM Lit := do
  match (← get).parts[(z, w, x)]? with
  | some l => return l
  | none =>
    let f ← frameM
    let bits := f.space.atoms.filter fun b => b.isPartOf w && !b.isPartOf z
    let l ← all (f.isPossible (z.fusion x) ::
      bits.map fun b => (f.isPossible ((z.fusion b).fusion x)).neg)
    modify fun e => { e with parts := e.parts.insert (z, w, x) l }
    return l

/-- `u` is an alternative to `w` for its part `x`. -/
def alternative (w x u : State) : EncodeM Lit := do
  match (← get).alternatives[(w, x, u)]? with
  | some l => return l
  | none =>
    let parts ← (u.common w).parts.mapM fun z => maximalCompatiblePart z w x
    let some_part ← any parts
    let l ← all [(← frameM).isWorld u, some_part]
    modify fun e => { e with alternatives := e.alternatives.insert (w, x, u) l }
    return l

/-- The fusions of members of two sets, with the members themselves on demand. -/
def fusions (xs ys : Array Lit) (union : Bool) : EncodeM (Array Lit) := do
  let lits ← (← statesM).mapM fun s => do
    checkDeadline
    let terms ← s.decompositions.mapM fun (a, b) => all [litAt xs a, litAt ys b]
    any (if union then terms ++ [litAt xs s, litAt ys s] else terms)
  return lits.toArray

/-- `a` grounds `b`. -/
def grounds (a b : ContentLits) : EncodeM Lit := do
  let states ← statesM
  let verifiers ← states.mapM fun s => any [(litAt a.ver s).neg, litAt b.ver s]
  let fused ← states.mapM fun x => do
    checkDeadline
    states.mapM fun y => any [(litAt a.fal x).neg, (litAt b.fal y).neg, litAt b.fal (x.fusion y)]
  let covered ← states.mapM fun s => any ((litAt b.fal s).neg :: s.parts.map (litAt a.fal))
  all (verifiers ++ fused.flatten ++ covered)

/-- `a` and `b` are the same content. -/
def identical (a b : ContentLits) : EncodeM Lit := do
  let conditions ← (← statesM).mapM fun s => do
    return [← same (litAt a.ver s) (litAt b.ver s), ← same (litAt a.fal s) (litAt b.fal s)]
  all conditions.flatten

/-- The content of a sentence letter. -/
def atomContent (a : Atom) : EncodeM ContentLits := do
  match (← get).valuation.meaning? a with
  | some c => return c
  | none => throw (.refused (.infeasibleFrame (.noValuation a)))

/-- A state that must belong to the space. -/
def checkedAt (lits : Array Lit) (s : State) : EncodeM Lit :=
  match Table.read lits s.bits with
  | .ok l => return l
  | .error fault => throw (.fault fault)

end Encoder

/-- Truth and content of a formula at every state. -/
structure Encoding where
  truth : State → EncodeM Lit
  content : State → EncodeM ContentLits

namespace Encoding

open Encoder

/-- The content of a sentence that is only true or false. -/
def contentOfTruth (truth : State → EncodeM Lit) (w : State) : EncodeM ContentLits := do
  let t ← truth w
  let none ← constantTable false
  return ⟨none.setIfInBounds 0 t, none.setIfInBounds 0 t.neg⟩

/-- A formula whose content is made of its truth. -/
def ofTruth (f : Formula) (truth : State → EncodeM Lit) : Encoding :=
  let truth := memoTruth f truth
  ⟨truth, memoContent f (contentOfTruth truth)⟩

def ofBoth (f : Formula) (truth : State → EncodeM Lit) (content : State → EncodeM ContentLits) :
    Encoding :=
  ⟨memoTruth f truth, memoContent f content⟩

def atom (a : Atom) : Encoding :=
  .ofBoth (.atom a)
    (fun w => do
      let c ← atomContent a
      any (← w.parts.mapM (checkedAt c.ver)))
    (fun _ => atomContent a)

/-- One of the two constants. -/
def verum (f : Formula) (value : Bool) : Encoding :=
  .ofBoth f (fun _ => constant value)
    (fun _ => do return ⟨← constantTable value, ← constantTable !value⟩)

def neg (f : Formula) (a : Encoding) : Encoding :=
  .ofBoth f (fun w => do return (← a.truth w).neg) (fun w => do return (← a.content w).swapped)

def and (f : Formula) (a b : Encoding) : Encoding :=
  .ofBoth f (fun w => do all [← a.truth w, ← b.truth w]) fun w => do
    let ca ← a.content w
    let cb ← b.content w
    return ⟨← fusions ca.ver cb.ver false, ← fusions ca.fal cb.fal true⟩

def or (f : Formula) (a b : Encoding) : Encoding :=
  .ofBoth f (fun w => do any [← a.truth w, ← b.truth w]) fun w => do
    let ca ← a.content w
    let cb ← b.content w
    return ⟨← fusions ca.ver cb.ver true, ← fusions ca.fal cb.fal false⟩

def box (f : Formula) (a : Encoding) : Encoding :=
  .ofTruth f fun _ => do
    let frame ← frameM
    all (← frame.space.states.mapM fun u => do any [(frame.isWorld u).neg, ← a.truth u])

def diamond (f : Formula) (a : Encoding) : Encoding :=
  .ofTruth f fun _ => do
    let frame ← frameM
    any (← frame.space.states.mapM fun u => do all [frame.isWorld u, ← a.truth u])

/-- Some world that results from a verifier of the antecedent, in which the consequent has the given
truth value. -/
def someOutcome (a b : Encoding) (value : Bool) (w : State) : EncodeM Lit := do
  let antecedent ← a.content w
  let impossible ← constant false
  let cases ← (← statesM).mapM fun u => do
    checkDeadline
    let consequent := (← b.truth u).flip !value
    (u.parts.filter fun x => litAt antecedent.ver x ≠ impossible).mapM fun x => do
      all [litAt antecedent.ver x, ← alternative w x u, consequent]
  any cases.flatten

def boxRight (f : Formula) (a b : Encoding) : Encoding :=
  .ofTruth f fun w => do return (← someOutcome a b false w).neg

def diamondRight (f : Formula) (a b : Encoding) : Encoding := .ofTruth f (someOutcome a b true)

def ground (f : Formula) (a b : Encoding) : Encoding :=
  .ofTruth f fun w => do grounds (← a.content w) (← b.content w)

def essence (f : Formula) (a b : Encoding) : Encoding :=
  .ofTruth f fun w => do grounds (← a.content w).swapped (← b.content w).swapped

def identity (f : Formula) (a b : Encoding) : Encoding :=
  .ofTruth f fun w => do identical (← a.content w) (← b.content w)

def unsupported (f : Formula) (op : Operator) : Encoding :=
  .ofTruth f fun _ => throw (.refused (.unsupportedOperator "counterfactual" op))

end Encoding

open Encoding in
/-- The literals of a formula. -/
def encode : Formula → Encoding
  | .atom a => atom a
  | .top => verum .top true
  | .bot => verum .bot false
  | .unary .neg a => neg (.unary .neg a) (encode a)
  | .unary .box a => box (.unary .box a) (encode a)
  | .unary .diamond a => diamond (.unary .diamond a) (encode a)
  | .unary op a => unsupported (.unary op a) (.unary op)
  | .binary .and a b => and (.binary .and a b) (encode a) (encode b)
  | .binary .or a b => or (.binary .or a b) (encode a) (encode b)
  | .binary .boxRight a b => boxRight (.binary .boxRight a b) (encode a) (encode b)
  | .binary .diamondRight a b => diamondRight (.binary .diamondRight a b) (encode a) (encode b)
  | .binary .ground a b => ground (.binary .ground a b) (encode a) (encode b)
  | .binary .essence a b => essence (.binary .essence a b) (encode a) (encode b)
  | .binary .identity a b => identity (.binary .identity a b) (encode a) (encode b)
  | .binary op a b => unsupported (.binary op a b) (.binary op)

namespace Frame

/-- The literals of a state, in the order in which they are compared with those of other states. -/
def row (f : Frame) (v : Valuation ContentLits) (s : State) : List Lit :=
  [f.isPossible s, f.isEval s] ++ v.meanings.flatMap fun c => [litAt c.ver s, litAt c.fal s]

/-- Of models that differ by an exchange of neighbouring atomic states, keep the one that comes first. -/
def breakSwaps {σ : Type} [Sink σ] (f : Frame) (v : Valuation ContentLits) : StateM σ Unit :=
  let table := (f.space.states.map (f.row v)).toArray
  Emit.breakBitSwaps f.space fun s => table.getD s.bits []

end Frame

namespace Encoder

/-- A literal for the truth of a formula at the world of evaluation. -/
def truthAtEval (f : Formula) : EncodeM Lit := do
  if f.isRigid then (encode f).truth .null
  else
    let frame ← frameM
    let x ← emit Emit.fresh
    let truth := (encode f).truth
    frame.space.states.forM fun w => do emit (Emit.implyIff (frame.isEval w) x (← truth w))
    return x

/-- Frame, contents and symmetry breaking. -/
def build (settings : Settings) (letters : List Atom) (deadline : Deadline) :
    Except Failure Encoder :=
  let write : DraftM (Frame × Valuation ContentLits × Gates) := do
    let frame ← Draft.emit (Frame.new ⟨settings.n⟩)
    let valuation ← Draft.emit (frame.valuation settings letters)
    Draft.checkDeadline
    Draft.emit (frame.breakSwaps valuation)
    return (frame, valuation, ← Draft.emit Gates.new)
  match write { deadline } with
  | .ok (frame, valuation, gates) draft => .ok { draft, frame, valuation, gates }
  | .error failure _ => .error failure

/-- Literals on which distinct models differ. The world of evaluation is left out. -/
def essential (e : Encoder) : List Lit :=
  e.frame.possible.toList ++ e.valuation.meanings.flatMap ContentLits.lits

/-- The states whose literals hold. -/
def statesOf (e : Encoder) (holds : Lit → Bool) (lits : Array Lit) : StateSet :=
  (StateSet.ofSpace e.frame.space).filter fun s => holds (litAt lits s)

/-- The model that the literals describe. -/
def extract (e : Encoder) (holds : Lit → Bool) : Except Failure Model := do
  match ← Failure.ofFault (e.frame.eval.eval holds) with
  | none => throw (.refused (.infeasibleFrame .noEvaluationWorld))
  | some evalWorld =>
    return {
      space := e.frame.space
      possible := e.statesOf holds e.frame.possible
      evalWorld
      valuation := e.valuation.map fun (a, c) => (a, ⟨e.statesOf holds c.ver, e.statesOf holds c.fal⟩) }

end Encoder

end Countermodels.Truthmaker
