import Countermodels.Fault
import Countermodels.Formula.Basic

/-! Derived operators. Each is an abbreviation of a formula with holes for its arguments; no
abbreviation may lead back to itself, so that writing them out comes to an end. -/

namespace Countermodels

/-- The formula that an operator abbreviates, with holes for the arguments of the operator. -/
inductive Body where
  | arg (i : Nat)
  | top | bot
  | unary (op : UnaryOp) (body : Body)
  | binary (op : BinaryOp) (lhs rhs : Body)
  deriving DecidableEq, Repr

namespace Body

/-- The operators that occur in a body. -/
def operators : Body → List Operator
  | arg _ => []
  | top => [.top]
  | bot => [.bot]
  | unary op a => .unary op :: a.operators
  | binary op a b => .binary op :: (a.operators ++ b.operators)

/-- Fill the holes. -/
def fill (args : List Formula) : Body → Except Fault Formula
  | arg i =>
    match args[i]? with
    | some f => .ok f
    | none => .error .hole
  | top => .ok .top
  | bot => .ok .bot
  | unary op a => do return .unary op (← a.fill args)
  | binary op a b => do return .binary op (← a.fill args) (← b.fill args)

end Body

/-- An operator whose definition leads back to it. -/
structure CyclicDefinition where
  operator : Operator
  deriving DecidableEq, Repr

/-- Derived operators with what they abbreviate. -/
structure Definitions where
  entries : List (Operator × Body) := []
  deriving DecidableEq, Repr

namespace Definitions

def body? (d : Definitions) (op : Operator) : Option Body :=
  (d.entries.find? (·.1 = op)).map (·.2)

def isDefined (d : Definitions) (op : Operator) : Bool := (d.body? op).isSome

/-- The derived operators. -/
def operators (d : Definitions) : List Operator := Operator.all.filter d.isDefined

/-- The operators in the definition of an operator. -/
def mentions (d : Definitions) (op : Operator) : List Operator :=
  match d.body? op with
  | some body => body.operators
  | none => []

/-- Whether `target` can be reached from one of the waiting operators through definitions. Operators
that are not in `unseen` have been followed before. -/
def reaches (d : Definitions) (target : Operator) (unseen waiting : List Operator) : Bool :=
  match waiting with
  | [] => false
  | op :: rest =>
    if op = target then true
    else if _h : op ∈ unseen then d.reaches target (unseen.erase op) (d.mentions op ++ rest)
    else d.reaches target unseen rest
termination_by (unseen.length, waiting.length)
decreasing_by
  · have := List.length_erase_of_mem _h
    have := List.length_pos_of_mem _h
    exact Prod.Lex.left _ _ (by omega)
  · exact Prod.Lex.right _ (by simp)

/-- Make an operator an abbreviation, unless its body leads back to it. -/
def define (d : Definitions) (op : Operator) (body : Body) : Except CyclicDefinition Definitions :=
  if d.reaches op Operator.all body.operators then .error ⟨op⟩
  else .ok ⟨(op, body) :: d.entries.filter (·.1 ≠ op)⟩

/-- Write out the derived operators of a formula from the inside; `writeOut` writes out a body that
has been filled. -/
def expandWith (d : Definitions) (writeOut : Formula → Except Fault Formula) :
    Formula → Except Fault Formula
  | .unary op a => do
    let a ← d.expandWith writeOut a
    match d.body? (.unary op) with
    | some body => writeOut (← body.fill [a])
    | none => return .unary op a
  | .binary op a b => do
    let a ← d.expandWith writeOut a
    let b ← d.expandWith writeOut b
    match d.body? (.binary op) with
    | some body => writeOut (← body.fill [a, b])
    | none => return .binary op a b
  | f => .ok f

/-- Write out the derived operators of a formula through at most `depth` definitions inside each
other. -/
def expandWithin (d : Definitions) : Nat → Formula → Except Fault Formula
  | 0 => d.expandWith fun _ => .error .bound
  | depth + 1 => d.expandWith (d.expandWithin depth)

/-- Write out the derived operators of a formula. No chain of definitions is longer than their
number. -/
def expand (d : Definitions) (f : Formula) : Except Fault Formula :=
  d.expandWithin d.entries.length f

/-- The material conditional and biconditional, the tense abbreviations, and the modals that are
counterfactuals with a trivial antecedent. -/
def standard : Definitions :=
  let a : Body := .arg 0
  let b : Body := .arg 1
  ⟨[(.binary .implies, .binary .or (.unary .neg a) b),
    (.binary .iff, .binary .and (.binary .implies a b) (.binary .implies b a)),
    (.unary .always, .binary .and (.unary .past a) (.binary .and a (.unary .future a))),
    (.unary .sometime, .binary .or (.unary .somePast a) (.binary .or a (.unary .someFuture a))),
    (.unary .cfBox, .binary .boxRight .top a),
    (.unary .cfDiamond, .binary .diamondRight .top a)]⟩

end Definitions

end Countermodels
