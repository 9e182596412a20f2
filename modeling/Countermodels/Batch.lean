import Countermodels.Batch.Pool
import Countermodels.Check
import Countermodels.Example
import Countermodels.Text.Classes

/-! Batches of examples, each checked against its expectation. -/

namespace Countermodels

/-- What came of an example. -/
structure Outcome where
  name : String
  theory : String
  /-- Whether a countermodel was expected. -/
  expectation : Option Bool
  result : Except CheckError Report

namespace Outcome

/-- Whether the expectation was met, if there is one. Errors never meet one. -/
def passed (o : Outcome) : Option Bool :=
  o.expectation.map fun expected =>
    match o.result with
    | .ok report => report.hasCountermodel = expected
    | .error _ => false

def status (o : Outcome) (elapsed : String) : String :=
  match o.result with
  | .ok report => report.verdict.text ++ " (" ++ elapsed ++ " s)"
  | .error (.timeout _) => "timeout"
  | .error e => "error: " ++ e.message

def mark (o : Outcome) : String :=
  match o.passed with
  | some true => "PASS"
  | some false => "FAIL"
  | none => "----"

/-- The outcome in a line; `elapsed` is the time that the check took, in seconds. -/
def text (o : Outcome) (elapsed : String) : String :=
  "[" ++ o.mark ++ "] " ++ o.name ++ " (" ++ o.theory ++ "): " ++ o.status elapsed

end Outcome

/-- Numbers of outcomes. -/
structure Summary where
  passed : Nat
  failed : Nat
  unchecked : Nat
  deriving DecidableEq, Repr

def Summary.ofOutcomes (outcomes : List Outcome) : Summary where
  passed := outcomes.countP (·.passed = some true)
  failed := outcomes.countP (·.passed = some false)
  unchecked := outcomes.countP (·.passed = none)

/-- Why a batch cannot be run. -/
inductive BatchError where
  | noTheory
  | noExample (name : String)
  | badRenaming (pair : String)
  deriving DecidableEq, Repr

def BatchError.message : BatchError → String
  | noTheory => "No theory given"
  | noExample name => "No example named '" ++ name ++ "'"
  | badRenaming pair =>
    "Bad translation '" ++ pair ++ "', expected FROM=TO with both sides starting with '\\'"

/-- Examples to be checked in a theory. -/
structure Batch where
  theory : String
  examples : List (String × Example)
  /-- New names of operator words, if there are any. -/
  symbols : Option SymbolMap := none
  /-- Number of examples that may be checked at the same time. -/
  jobs : Nat := 1

namespace Batch

/-- The two sides of `FROM=TO`, without the blanks around them. -/
def readRenaming (pair : String) : Except BatchError (String × String) :=
  let chars := pair.toList
  let word := chars.takeWhile (· ≠ '=')
  match chars.dropWhile (· ≠ '=') with
  | '=' :: name =>
    if word.head? = some '\\' ∧ name.head? = some '\\' then .ok (trim word, trim name)
    else .error (.badRenaming pair)
  | _ => .error (.badRenaming pair)
where
  trim (cs : List Char) : String :=
    String.ofList (((cs.dropWhile Text.isBlank).reverse.dropWhile Text.isBlank).reverse)

/-- The new names given by pairs `FROM=TO`, if there are any. -/
def readSymbols (pairs : List String) : Except BatchError (Option SymbolMap) := do
  let m := SymbolMap.ofPairs (← pairs.mapM readRenaming)
  return if m.isEmpty then none else some m

/-- The batch for a file. A theory that is given counts before the one of the file; `only` names the
examples to be checked. -/
def plan (file : ExampleFile) (theory : Option String) (only renamings : List String) (jobs : Nat) :
    Except BatchError Batch := do
  let some theory := theory <|> file.theory | throw .noTheory
  if let some name := file.missing? only then throw (.noExample name)
  let symbols ← readSymbols renamings
  return { theory, examples := file.select only, symbols, jobs }

/-- Check an example in a theory: the theory is looked up first, then the example is read. -/
def checkExample (b : Batch) (clock : Nat → Nat) (interrupt : Bool) (e : Example) :
    Except Failure Report := do
  let theory ← Failure.ofRefusal (Theory.get b.theory)
  check theory (← e.compile b.symbols) clock interrupt

/-- The outcome of a named example. A fault is no outcome. -/
def runOne (b : Batch) (clock : Nat → Nat) (interrupt : Bool) (named : String × Example) :
    Except Fault Outcome :=
  let outcome := fun result => { name := named.1, theory := b.theory, expectation := named.2.expectation, result }
  match b.checkExample clock interrupt named.2 with
  | .ok report => .ok (outcome (.ok report))
  | .error (.refused e) => .ok (outcome (.error e))
  | .error (.fault fault) => .error fault

/-- Number of workers. -/
def numWorkers (b : Batch) : Nat := min (max 1 b.jobs) b.examples.length

/-- The outcomes in the order of the examples. Several workers share the examples. -/
def run (b : Batch) (clock : Nat → Nat) (interrupt : Bool) : Except Fault (List Outcome) :=
  let one := b.runOne clock interrupt
  if b.numWorkers ≤ 1 then b.examples.mapM one
  else
    let schedule := Pool.turns b.numWorkers b.examples.length
    ((Pool.start b.numWorkers).run b.examples one schedule).results.mapM id

/-- The outcomes that some workers reach when each of them stops at a fault. Examples are taken in
order, so the last worker stops at the fault whose number is that of the workers. -/
def outcomesUntil (one : String × Example → Except Fault Outcome) :
    Nat → List (String × Example) → List Outcome
  | 0, _ | _, [] => []
  | workers + 1, e :: examples =>
    match one e with
    | .ok o => o :: outcomesUntil one (workers + 1) examples
    | .error _ => outcomesUntil one workers examples

/-- The outcomes that are reached in a run, whether or not it ends in a fault. -/
def reached (b : Batch) (clock : Nat → Nat) (interrupt : Bool) : List Outcome :=
  outcomesUntil (b.runOne clock interrupt) b.numWorkers b.examples

end Batch

end Countermodels
