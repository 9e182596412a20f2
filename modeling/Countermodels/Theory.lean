import Countermodels.CheckError

/-! The two theories, their operators, and the names they go by. -/

namespace Countermodels

inductive Theory where
  /-- Truthmaker semantics of counterfactuals, ground and essence. -/
  | counterfactual
  /-- Modal and tense operators over world histories. -/
  | bimodal
  deriving DecidableEq, Repr

namespace Theory

def name : Theory → String
  | counterfactual => "counterfactual"
  | bimodal => "bimodal"

/-- The names under which theories are found, in order. -/
def registry : List (String × Theory) :=
  [("Brast-McKie", counterfactual), ("bimodal", bimodal), ("counterfactual", counterfactual)]

def get (name : String) : Except CheckError Theory :=
  match registry.find? (·.1 = name) with
  | some (_, theory) => .ok theory
  | none => .error (.unknownTheory name)

def propositional : List Operator :=
  [.top, .bot, .unary .neg, .binary .and, .binary .or]

/-- The operators that are not abbreviations. -/
def primitives : Theory → List Operator
  | counterfactual => propositional ++
    [.unary .box, .unary .diamond, .binary .boxRight, .binary .diamondRight, .binary .ground,
      .binary .essence, .binary .identity]
  | bimodal => propositional ++
    [.unary .box, .unary .diamond, .unary .future, .unary .someFuture, .unary .past, .unary .somePast]

/-- Write out the derived operators of a formula, and refuse it if an operator is left that the theory
does not know. -/
def prepare (theory : Theory) (f : Formula) : Except Failure Formula := do
  let expanded ← Failure.ofFault (Definitions.standard.expand f)
  match expanded.operators.find? (· ∉ theory.primitives) with
  | some op => throw (.refused (.unsupportedOperator theory.name op))
  | none => return expanded

end Theory

end Countermodels
