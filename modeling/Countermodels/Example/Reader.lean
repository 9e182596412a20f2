import Countermodels.Example
import Countermodels.Json.Reader

/-! Reading example files. The shape of the text is checked while it is read, so that the first mistake
decides, whatever its kind. An object with fixed fields may also be written as the list of its fields in
order, of which the last ones may be left out. -/

namespace Countermodels

namespace Json.Reader

/-- Refuse a value of another kind than wanted, given its first character. A list or an object is
refused at once, any other value after it has been read. -/
def refuse {α : Type} (c : Char) (text : List Char) : Except ReadError α := do
  if c != '[' && c != '\x7b' then
    let _ ← scalar c text
  throw .mismatched

def wantString : Reader String := fun text => do
  let (c, text) ← peek text
  if c = '"' then quoted (text.drop 1) else refuse c text

/-- A string or nothing. -/
def wantOptional : Reader (Option String) := fun text => do
  let (c, text) ← peek text
  if c = 'n' then
    let (_, text) ← expect "null".toList text
    return (none, text)
  let (s, text) ← wantString text
  return (some s, text)

/-- The items of a list up to its closing bracket. -/
def itemsOf {α : Type} (item : Reader α) : Nat → Bool → Reader (List α)
  | 0, _, _ => .error .malformed
  | fuel + 1, first, text => do
    let (more, text) ← nextItem first text
    if !more then return ([], text)
    let (a, text) ← item text
    let (rest, text) ← itemsOf item fuel false text
    return (a :: rest, text)

def wantList {α : Type} (fuel : Nat) (item : Reader α) : Reader (List α) := fun text => do
  let (c, text) ← peek text
  if c != '[' then refuse c text
  else
    let (found, text) ← itemsOf item fuel true (text.drop 1)
    return (found, ← close ']' text)

/-- The fields of an object up to its closing brace. Of a repeated name the last value counts. -/
def fieldsOf {α : Type} (item : Reader α) : Nat → Bool → List (String × α) → Reader (List (String × α))
  | 0, _, _, _ => .error .malformed
  | fuel + 1, first, found, text => do
    match ← nextName first text with
    | (none, text) => return (found, text)
    | (some name, text) =>
      let (a, text) ← item (← colon text)
      fieldsOf item fuel false (setField name a found) text

def wantObject {α : Type} (fuel : Nat) (item : Reader α) : Reader (List (String × α)) := fun text => do
  let (c, text) ← peek text
  if c != '\x7b' then refuse c text
  else
    let (found, text) ← fieldsOf item fuel true [] (text.drop 1)
    return (found, ← close '\x7d' text)

/-- The fields of a record in an object. Unknown fields are skipped, and none may be repeated. -/
def recordFields {α : Type} (known : List String) (set : String → α → Reader α) :
    Nat → Bool → List String → α → Reader α
  | 0, _, _, _, _ => .error .malformed
  | fuel + 1, first, seen, record, text => do
    match ← nextName first text with
    | (none, text) => return (record, text)
    | (some name, text) =>
      if name ∈ known then
        if name ∈ seen then throw .mismatched
        let (record, text) ← set name record (← colon text)
        recordFields known set fuel false (name :: seen) record text
      else
        let (_, text) ← skip fuel (← colon text)
        recordFields known set fuel false seen record text

/-- The fields of a record in a list. -/
def recordItems {α : Type} (set : String → α → Reader α) : List String → Bool → α → Reader α
  | [], _, record, text => .ok (record, text)
  | name :: names, first, record, text => do
    let (more, text) ← nextItem first text
    if !more then return (record, text)
    let (record, text) ← set name record text
    recordItems set names false record text

/-- A record with known fields; `finish` says what it is when all fields have been read. -/
def wantRecord {α β : Type} (fuel : Nat) (known : List String) (set : String → α → Reader α) (start : α)
    (finish : α → Except ReadError β) : Reader β := fun text => do
  let (c, text) ← peek text
  if c = '[' then
    let (record, text) ← recordItems set known true start (text.drop 1)
    let b ← finish record
    return (b, ← close ']' text)
  else if c = '\x7b' then
    let (record, text) ← recordFields known set fuel true [] start (text.drop 1)
    let b ← finish record
    return (b, ← close '\x7d' text)
  else refuse c text

end Json.Reader

open Json.Reader

/-- A setting stands inside four objects or lists. -/
def settingDepth : Nat := maxDepth - 4

/-- The reader of an example; `fuel` is enough for the whole text. -/
def Example.reader (fuel : Nat) : Json.Reader Example :=
  let set := fun (name : String) (e : Example) text => do
    if name = "premises" then
      let (premises, text) ← wantList fuel wantString text
      return ({ e with premises }, text)
    else if name = "conclusions" then
      let (conclusions, text) ← wantList fuel wantString text
      return ({ e with conclusions }, text)
    else
      let (settings, text) ← wantObject fuel (value fuel settingDepth) text
      return ({ e with settings }, text)
  wantRecord fuel ["premises", "conclusions", "settings"] set {} .ok

namespace ExampleFile

/-- The reader of a file; `fuel` is enough for the whole text. -/
def reader (fuel : Nat) : Json.Reader ExampleFile :=
  let set := fun (name : String) (f : Option String × Option (List (String × Example))) text => do
    if name = "theory" then
      let (theory, text) ← wantOptional text
      return ((theory, f.2), text)
    else
      let (examples, text) ← wantObject fuel (Example.reader fuel) text
      return ((f.1, some examples), text)
  wantRecord fuel ["theory", "examples"] set (none, none) fun
    | (theory, some examples) => .ok { theory, examples }
    | (_, none) => .error .mismatched

def parse (text : String) : Except Json.ReadError ExampleFile := do
  let chars := text.toList
  let (f, rest) ← reader (enough chars) chars
  finish rest
  return f

end ExampleFile

end Countermodels
