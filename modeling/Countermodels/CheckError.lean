import Countermodels.Fault
import Countermodels.Formula.ParseError
import Countermodels.Formula.Definitions
import Countermodels.Json.Value
import Countermodels.Number.Duration

/-! Why a check is refused or gives up. -/

namespace Countermodels

/-- What is wrong with the value of a setting. -/
inductive SettingMistake where
  | notCount (value : Json)
  | notBoolean (value : Json)
  | notSeconds (value : Json)
  | zero
  | tooLarge (value limit : Nat)

def SettingMistake.message : SettingMistake → String
  | notCount value => "expected a non-negative integer, got " ++ value.render
  | notBoolean value => "expected a boolean, got " ++ value.render
  | notSeconds value => "expected a positive number of seconds, got " ++ value.render
  | zero => "must be at least 1"
  | tooLarge value limit => s!"{value} exceeds the maximum of {limit}"

/-- Why no frame can be built or read off. -/
inductive FrameMistake where
  /-- There are no atomic states. -/
  | noAtomicStates
  /-- No state was chosen as the evaluation world. -/
  | noEvaluationWorld
  /-- A sentence letter was given no meaning. -/
  | noValuation (atom : Atom)
  /-- A history has no state at a time. -/
  | noState (history : Nat) (time : Int)
  /-- The constraints on frames and letters contradict each other. -/
  | noFrame (n : Nat)
  deriving DecidableEq, Repr

def FrameMistake.message : FrameMistake → String
  | noAtomicStates => "N = 0 leaves no atomic states"
  | noEvaluationWorld => "model has no evaluation world"
  | noValuation atom => s!"atom {atom.name} has no valuation"
  | noState history time => s!"history {history} has no state at time {time}"
  | noFrame n => s!"no model of the frame and valuation constraints at N = {n}"

inductive CheckError where
  | parse (source : String) (cause : ParseError)
  | unknownSetting (key : String)
  | missingSetting (key : String)
  | invalidSetting (key : String) (mistake : SettingMistake)
  | unsupportedOperator (theory : String) (operator : Operator)
  | cyclicDefinition (operator : Operator)
  | infeasibleFrame (mistake : FrameMistake)
  | timeout (maxTime : Duration)
  | iterationExhausted (requested found : Nat)
  /-- A model was found that does not make the formulas true or false as asked. -/
  | unsoundModel (formula : String) (expected : Bool)
  | unknownTheory (name : String)

def CheckError.message : CheckError → String
  | parse source cause => "Could not parse `" ++ source ++ "`: " ++ cause.message
  | unknownSetting key => "Unknown setting `" ++ key ++ "`"
  | missingSetting key => "Missing required setting `" ++ key ++ "`"
  | invalidSetting key mistake => "Invalid value for setting `" ++ key ++ "`: " ++ mistake.message
  | unsupportedOperator theory operator =>
    "Operator `" ++ operator.symbol ++ "` is not supported by the " ++ theory ++ " theory"
  | cyclicDefinition operator => "Definition of `" ++ operator.symbol ++ "` refers back to itself"
  | infeasibleFrame mistake => "Frame constraints are unsatisfiable: " ++ mistake.message
  | timeout maxTime => "Solver exceeded max_time of " ++ Number.proseText maxTime.seconds ++ "s"
  | iterationExhausted requested found =>
    s!"Requested {requested} models, but only {found} exist at this bound"
  | unsoundModel formula expected =>
    "Extracted model disagrees with the encoding on `" ++ formula ++ s!"` (expected {expected})"
  | unknownTheory name => "Unknown theory `" ++ name ++ "`"

/-- How a computation can fail: it is refused for a reason that its user is told, or it finds a
promise broken. -/
inductive Failure where
  | refused (error : CheckError)
  | fault (fault : Fault)

namespace Failure

/-- A computation that can only be refused. -/
def ofRefusal {α : Type} : Except CheckError α → Except Failure α
  | .ok a => .ok a
  | .error e => .error (.refused e)

/-- A computation that can only break a promise. -/
def ofFault {α : Type} : Except Fault α → Except Failure α
  | .ok a => .ok a
  | .error f => .error (.fault f)

end Failure

end Countermodels
