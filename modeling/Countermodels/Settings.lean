import Countermodels.CheckError

/-! The settings of a check. -/

namespace Countermodels

structure Settings where
  /-- Number of atomic states. -/
  n : Nat
  /-- Number of times on each side of the present, the present counted. -/
  m : Option Nat := none
  contingent : Bool := false
  disjoint : Bool := false
  nonEmpty : Bool := false
  nonNull : Bool := false
  maxTime : Duration := ⟨Duration.perSecond⟩
  /-- Number of models asked for. -/
  iterate : Nat := 1
  /-- Whether a countermodel is expected. -/
  expectation : Option Bool := none
  deriving DecidableEq, Repr

namespace Settings

def maxN : Nat := 8

def maxM : Nat := 8

def count (key : String) (value : Json) : Except Failure Nat :=
  match value.nat? with
  | some n => .ok n
  | none => .error (.refused (.invalidSetting key (.notCount value)))

def flag (key : String) (value : Json) : Except Failure Bool :=
  match value.bool? with
  | some b => .ok b
  | none => .error (.refused (.invalidSetting key (.notBoolean value)))

/-- A positive number of seconds. -/
def time (key : String) (value : Json) : Except Failure Duration :=
  match value.double? with
  | some x =>
    if x.isFinite && x > 0.0 then Failure.ofFault (Duration.ofSeconds x)
    else .error (.refused (.invalidSetting key (.notSeconds value)))
  | none => .error (.refused (.invalidSetting key (.notSeconds value)))

/-- A number from one up to a limit, if there is one. -/
def positive (key : String) (limit : Option Nat) (n : Nat) : Except Failure Nat :=
  if n = 0 then .error (.refused (.invalidSetting key .zero))
  else
    match limit with
    | some limit =>
      if limit < n then .error (.refused (.invalidSetting key (.tooLarge n limit))) else .ok n
    | none => .ok n

/-- Set one setting. -/
def set (s : Settings) (key : String) (value : Json) : Except Failure Settings := do
  match key with
  | "N" => return s
  | "M" => return { s with m := some (← positive key maxM (← count key value)) }
  | "contingent" => return { s with contingent := ← flag key value }
  | "disjoint" => return { s with disjoint := ← flag key value }
  | "non_empty" => return { s with nonEmpty := ← flag key value }
  | "non_null" => return { s with nonNull := ← flag key value }
  | "max_time" => return { s with maxTime := ← time key value }
  | "iterate" => return { s with iterate := ← positive key none (← count key value) }
  | "expectation" => return { s with expectation := some (← flag key value) }
  | _ => throw (.refused (.unknownSetting key))

/-- Read settings from the fields of an object: first `N`, then the other keys in order. -/
def ofFields (fields : List (String × Json)) : Except Failure Settings := do
  let n ← match Json.lookup "N" fields with
    | some value => count "N" value
    | none => throw (.refused (.missingSetting "N"))
  if maxN < n then throw (.refused (.invalidSetting "N" (.tooLarge n maxN)))
  fields.foldlM (fun s field => s.set field.1 field.2) { n }

/-- The number of times, where one is needed. -/
def requireM (s : Settings) : Except Failure Nat :=
  match s.m with
  | some m => positive "M" maxM m
  | none => .error (.refused (.missingSetting "M"))

end Settings

end Countermodels
