import Countermodels.History.Frame
import Countermodels.History.Model
import Countermodels.Table

/-! Formulas as literals over a frame of histories: for each slot and each time, a literal for the truth
of a formula there. Modal formulas have one literal for all slots. -/

namespace Countermodels.History

structure Encoder where
  draft : Draft
  frame : Frame
  valuation : Valuation (Array Lit)
  gates : Gates
  truths : Std.HashMap (Formula × Nat × Nat) Lit := {}
  /-- Truths of modal formulas, which do not depend on the slot. -/
  modal : Std.HashMap (Formula × Nat) Lit := {}

abbrev EncodeM := EStateM Failure Encoder

namespace Encoder

def lift {α : Type} (m : DraftM α) : EncodeM α := fun e =>
  match m e.draft with
  | .ok a draft => .ok a { e with draft }
  | .error failure draft => .error failure { e with draft }

def emit {α : Type} (m : StateM Cnf α) : EncodeM α := lift (Draft.emit m)

def checkDeadline : EncodeM Unit := lift Draft.checkDeadline

/-- Use the gates. -/
def gate (m : Gates → StateM Cnf (Lit × Gates)) : EncodeM Lit := fun e =>
  let ((l, gates), cnf) := m e.gates e.draft.cnf
  .ok l { e with gates, draft := { e.draft with cnf } }

def all (xs : List Lit) : EncodeM Lit := gate (·.and xs)

def any (xs : List Lit) : EncodeM Lit := gate (·.or xs)

def frameM : EncodeM Frame := return (← get).frame

def constant (value : Bool) : EncodeM Lit := return (← get).gates.constant value

/-- A truth written once. -/
def memoTruth (f : Formula) (h t : Nat) (write : EncodeM Lit) : EncodeM Lit := do
  match (← get).truths[(f, h, t)]? with
  | some l => return l
  | none =>
    checkDeadline
    let l ← write
    modify fun e => { e with truths := e.truths.insert (f, h, t) l }
    return l

/-- The truth of a modal formula written once. -/
def memoModal (f : Formula) (t : Nat) (write : EncodeM Lit) : EncodeM Lit := do
  match (← get).modal[(f, t)]? with
  | some l => return l
  | none =>
    let l ← write
    modify fun e => { e with modal := e.modal.insert (f, t) l }
    return l

/-- The state of a slot at a time that must exist. -/
def choiceAt (h t : Nat) : EncodeM (Choice State) := do
  match Table.read (← frameM).states h >>= (Table.read · t) with
  | .ok c => return c
  | .error fault => throw (.fault fault)

/-- A literal for the state of a slot at a time to be one where a letter is true. -/
def letterAt (a : Atom) (h t : Nat) : EncodeM Lit := do
  match (← get).valuation.meaning? a with
  | none => throw (.refused (.infeasibleFrame (.noValuation a)))
  | some lits =>
    let c ← choiceAt h t
    let x ← emit Emit.fresh
    c.pairs.forM fun (s, l) => emit (Emit.implyIff l x (lits.getD s.bits default))
    return x

/-- Truth in all slots in use. -/
def everywhere (truth : Nat → EncodeM Lit) : EncodeM Lit := do
  let f ← frameM
  all (← f.histories.mapM fun h => do any [(f.isActive h).neg, ← truth h])

/-- Truth in some slot in use. -/
def somewhere (truth : Nat → EncodeM Lit) : EncodeM Lit := do
  let f ← frameM
  any (← f.histories.mapM fun h => do all [f.isActive h, ← truth h])

/-- The times after `t`, of which the next must be a word of 64 bits. -/
def later (t : Nat) : EncodeM (List Nat) := do
  if 1 <<< 64 ≤ t + 1 then throw (.fault .overflow)
  return (← frameM).times.drop (t + 1)

/-- The times before `t`; a table of them must fit into memory. -/
def earlier (t : Nat) : EncodeM (List Nat) := do
  if 1 <<< 60 ≤ t then throw (.fault .overflow)
  return List.range t

/-- The truth of a formula in a slot at a time. -/
def truth : Formula → Nat → Nat → EncodeM Lit
  | .atom a, h, t => memoTruth (.atom a) h t (letterAt a h t)
  | .top, h, t => memoTruth .top h t (constant true)
  | .bot, h, t => memoTruth .bot h t (constant false)
  | .unary .neg a, h, t => memoTruth (.unary .neg a) h t do return (← truth a h t).neg
  | .unary .box a, h, t => memoTruth (.unary .box a) h t
      (memoModal (.unary .box a) t (everywhere fun h' => truth a h' t))
  | .unary .diamond a, h, t => memoTruth (.unary .diamond a) h t
      (memoModal (.unary .diamond a) t (somewhere fun h' => truth a h' t))
  | .unary .future a, h, t => memoTruth (.unary .future a) h t do
      all (← (← later t).mapM (truth a h))
  | .unary .someFuture a, h, t => memoTruth (.unary .someFuture a) h t do
      any (← (← later t).mapM (truth a h))
  | .unary .past a, h, t => memoTruth (.unary .past a) h t do
      all (← (← earlier t).mapM (truth a h))
  | .unary .somePast a, h, t => memoTruth (.unary .somePast a) h t do
      any (← (← earlier t).mapM (truth a h))
  | .unary op a, h, t => memoTruth (.unary op a) h t
      (throw (.refused (.unsupportedOperator "bimodal" (.unary op))))
  | .binary .and a b, h, t => memoTruth (.binary .and a b) h t do
      all [← truth a h t, ← truth b h t]
  | .binary .or a b, h, t => memoTruth (.binary .or a b) h t do
      any [← truth a h t, ← truth b h t]
  | .binary op a b, h, t => memoTruth (.binary op a b) h t
      (throw (.refused (.unsupportedOperator "bimodal" (.binary op))))

/-- A literal for the truth of a formula on the main history at present. -/
def truthAtEval (f : Formula) : EncodeM Lit := do truth f 0 (← frameM).now

/-- Frame and valuation. -/
def build (settings : Settings) (letters : List Atom) (deadline : Deadline) :
    Except Failure Encoder := do
  let m ← settings.requireM
  let write : DraftM (Frame × Valuation (Array Lit) × Gates) := do
    let frame ← Frame.new ⟨settings.n⟩ m
    let valuation ← Draft.emit (frame.valuation settings letters)
    return (frame, valuation, ← Draft.emit Gates.new)
  match write { deadline } with
  | .ok (frame, valuation, gates) draft => .ok { draft, frame, valuation, gates }
  | .error failure _ => .error failure

/-- Literals on which distinct models differ. -/
def essential (e : Encoder) : List Lit :=
  e.frame.essential ++ e.valuation.meanings.flatMap Array.toList

/-- The states of a slot. -/
def historyOf (e : Encoder) (holds : Lit → Bool) (h : Nat) : Except Failure (List State) :=
  e.frame.times.mapM fun t => do
    match ← Failure.ofFault ((e.frame.choice h t).eval holds) with
    | some s => return s
    | none => throw (.refused (.infeasibleFrame (.noState h (e.frame.time t))))

/-- The model that the literals describe. -/
def extract (e : Encoder) (holds : Lit → Bool) : Except Failure Model := do
  let active := e.frame.histories.filter fun h => holds (e.frame.isActive h)
  return {
    space := e.frame.space
    m := e.frame.m
    histories := ← active.mapM (e.historyOf holds)
    valuation := e.valuation.map fun (a, lits) =>
      (a, (StateSet.ofSpace e.frame.space).filter fun s => holds (lits.getD s.bits default)) }

end Encoder

end Countermodels.History
