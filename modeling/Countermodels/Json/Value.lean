import Countermodels.Number.Shortest

/-! Values of the JSON data format. Numbers keep the distinction between whole numbers of 64 bits and
doubles, and the fields of an object stand in the order of their names, each name once. -/

namespace Countermodels

namespace Json

inductive Number where
  | nat (n : Nat)
  /-- The negative number `-n`. -/
  | negative (n : Nat)
  | double (x : Float)
  deriving Repr, Inhabited

end Json

inductive Json where
  | null
  | bool (b : Bool)
  | number (n : Json.Number)
  | string (s : String)
  | array (items : List Json)
  | object (fields : List (String × Json))
  deriving Repr, Inhabited

namespace Json

/-- Set a field of a list of fields that is ordered by name. -/
def setField {α : Type} (name : String) (value : α) : List (String × α) → List (String × α)
  | [] => [(name, value)]
  | (other, old) :: rest =>
    if name < other then (name, value) :: (other, old) :: rest
    else if name = other then (name, value) :: rest
    else (other, old) :: setField name value rest

def lookup {α : Type} (name : String) (fields : List (String × α)) : Option α :=
  (fields.find? (·.1 == name)).map (·.2)

/-- The whole number of at most 64 bits that a value is, if it is one. -/
def nat? : Json → Option Nat
  | number (.nat n) => some n
  | _ => none

def bool? : Json → Option Bool
  | bool b => some b
  | _ => none

/-- The double nearest to a number. -/
def double? : Json → Option Float
  | number (.nat n) => some n.toUInt64.toFloat
  | number (.negative n) => some (-n.toUInt64.toFloat)
  | number (.double x) => some x
  | _ => none

def Number.render : Number → String
  | .nat n => toString n
  | .negative n => "-" ++ toString n
  | .double x => Countermodels.Number.dataText x

def hexDigit (n : Nat) : Char := Nat.digitChar (n % 16)

/-- A character inside a quoted string. -/
def escape (c : Char) : String :=
  if c = '"' then "\\\""
  else if c = '\\' then "\\\\"
  else if c = '\n' then "\\n"
  else if c = '\r' then "\\r"
  else if c = '\t' then "\\t"
  else if c.toNat = 8 then "\\b"
  else if c.toNat = 12 then "\\f"
  else if c.toNat < 32 then
    "\\u00" ++ String.ofList [hexDigit (c.toNat / 16), hexDigit c.toNat]
  else c.toString

def quote (s : String) : String :=
  "\"" ++ s.foldl (fun text c => text ++ escape c) "" ++ "\""

mutual

/-- The value without blanks. -/
def render : Json → String
  | null => "null"
  | bool true => "true"
  | bool false => "false"
  | number n => n.render
  | string s => quote s
  | array items => "[" ++ ",".intercalate (renderItems items) ++ "]"
  | object fields => "\x7b" ++ ",".intercalate (renderFields fields) ++ "\x7d"

def renderItems : List Json → List String
  | [] => []
  | item :: rest => item.render :: renderItems rest

def renderFields : List (String × Json) → List String
  | [] => []
  | (name, value) :: rest => (quote name ++ ":" ++ value.render) :: renderFields rest

end

end Json

end Countermodels
