import Countermodels.Json.Value

/-! Reading JSON text from left to right. A reader takes a value of the kind it wants from the front
of the text. What goes wrong first decides the answer: the text is malformed, it ends too early, or
it holds a value of another kind. -/

namespace Countermodels.Json

inductive ReadError where
  | malformed | truncated | mismatched
  deriving DecidableEq, Repr

abbrev Reader (α : Type) := List Char → Except ReadError (α × List Char)

namespace Reader

def isBlank (c : Char) : Bool := c == ' ' || c == '\n' || c == '\t' || c == '\r'

def skipBlanks (text : List Char) : List Char := text.dropWhile isBlank

/-- The next character after blanks, which stays in the text. -/
def peek (text : List Char) : Except ReadError (Char × List Char) :=
  match skipBlanks text with
  | [] => .error .truncated
  | c :: rest => .ok (c, c :: rest)

/-- The given characters, and nothing else. -/
def expect : List Char → Reader Unit
  | [], text => .ok ((), text)
  | _ :: _, [] => .error .truncated
  | c :: cs, d :: rest => if c = d then expect cs rest else .error .malformed

/-! Numbers. -/

def isDigit (c : Char) : Bool := c.isDigit

def digitValue (c : Char) : Nat := c.toNat - '0'.toNat

/-- Largest significand. -/
def maxSignificand : Nat := 1 <<< 64 - 1

/-- Largest decimal exponent that is read. -/
def maxExponent : Nat := 1 <<< 31 - 1

/-- Multiply or divide by a power of ten, in one step where the power is a double. -/
def scale : Nat → Float → Int → Except ReadError Float
  | 0, _, _ => .error .malformed
  | fuel + 1, x, exponent =>
    if exponent.natAbs ≤ 308 then
      let power := Float.ofScientific 1 false exponent.natAbs
      if 0 ≤ exponent then
        let y := x * power
        if y.isInf then .error .malformed else .ok y
      else .ok (x / power)
    else if x == 0.0 then .ok x
    else if 0 ≤ exponent then .error .malformed
    else scale fuel (x / 1e308) (exponent + 308)

/-- The double `significand · 10 ^ exponent` with a sign. A tiny number vanishes after two steps
down, so few steps are ever needed. -/
def double (negative : Bool) (significand : Nat) (exponent : Int) : Except ReadError Float := do
  let x ← scale 8 significand.toUInt64.toFloat exponent
  pure (if negative then -x else x)

/-- Read digits into a significand as long as it fits; the count tells how many were read. -/
def significand : Nat → Nat → List Char → Nat × Nat × List Char
  | value, count, c :: rest =>
    if isDigit c && value * 10 + digitValue c ≤ maxSignificand then
      significand (value * 10 + digitValue c) (count + 1) rest
    else (value, count, c :: rest)
  | value, count, [] => (value, count, [])

/-- Read the digits of an exponent; `none` when it is too large. -/
def exponentDigits : Nat → List Char → Option Nat × List Char
  | value, c :: rest =>
    if isDigit c then
      if value * 10 + digitValue c ≤ maxExponent then exponentDigits (value * 10 + digitValue c) rest
      else (none, rest.dropWhile isDigit)
    else (some value, c :: rest)
  | value, [] => (some value, [])

/-- Keep an exponent within the machine's range. -/
def clampExponent (e : Int) : Int := max (-0x80000000) (min 0x7fffffff e)

/-- The text after the letter of an exponent. -/
def exponentPart (negative : Bool) (value : Nat) (base : Int) (text : List Char) :
    Except ReadError (Number × List Char) := do
  let (down, text) := match text with
    | '+' :: rest => (false, rest)
    | '-' :: rest => (true, rest)
    | _ => (false, text)
  match text with
  | [] => throw .truncated
  | c :: rest =>
    if !isDigit c then throw .malformed
    match exponentDigits (digitValue c) rest with
    | (some e, rest) =>
      let exponent := clampExponent (if down then base - e else base + e)
      let x ← double negative value exponent
      pure (.double x, rest)
    | (none, rest) =>
      if value != 0 && !down then throw .malformed
      pure (.double (if negative then -0.0 else 0.0), rest)

def isExponentMark (c : Char) : Bool := c == 'e' || c == 'E'

/-- The text after a decimal point. Digits that no longer fit are dropped. -/
def decimalPart (negative : Bool) (value : Nat) (base : Int) (text : List Char) :
    Except ReadError (Number × List Char) := do
  let (value, count, rest) := significand value 0 text
  let overlong := rest.head?.any isDigit
  if count = 0 && !overlong then
    throw (if rest.isEmpty then .truncated else .malformed)
  let rest := rest.dropWhile isDigit
  let exponent := base - count
  match rest with
  | c :: after =>
    if isExponentMark c then exponentPart negative value exponent after
    else do
      let x ← double negative value exponent
      pure (.double x, rest)
  | [] => do
    let x ← double negative value exponent
    pure (.double x, rest)

/-- What may follow the digits of a whole number whose last `dropped` digits did not fit. -/
def numberEnd (negative : Bool) (value dropped : Nat) (text : List Char) :
    Except ReadError (Number × List Char) := do
  match text with
  | '.' :: rest => decimalPart negative value dropped rest
  | c :: rest =>
    if isExponentMark c then exponentPart negative value dropped rest
    else whole text
  | [] => whole text
where
  whole (text : List Char) : Except ReadError (Number × List Char) := do
    if 0 < dropped then
      let x ← double negative value dropped
      pure (.double x, text)
    else if !negative then pure (.nat value, text)
    else if value = 0 || 1 <<< 63 < value then pure (.double (-value.toUInt64.toFloat), text)
    else pure (.negative value, text)

/-- A number after its sign. -/
def unsignedNumber (negative : Bool) : Reader Number
  | [] => .error .truncated
  | '0' :: rest =>
    if rest.head?.any isDigit then .error .malformed else numberEnd negative 0 0 rest
  | c :: rest =>
    if isDigit c then
      let (value, _, after) := significand (digitValue c) 1 rest
      let dropped := (after.takeWhile isDigit).length
      numberEnd negative value dropped (after.dropWhile isDigit)
    else .error .malformed

/-! Strings. -/

def hexValue? (c : Char) : Option Nat :=
  if c.isDigit then some (c.toNat - '0'.toNat)
  else if 'a' ≤ c && c ≤ 'f' then some (c.toNat - 'a'.toNat + 10)
  else if 'A' ≤ c && c ≤ 'F' then some (c.toNat - 'A'.toNat + 10)
  else none

/-- The number that the text begins with in four hexadecimal digits, for which four bytes must be
left. -/
def hexEscape (text : List Char) : Except ReadError Nat :=
  if (text.take 4).foldr (fun c n => c.utf8Size + n) 0 < 4 then .error .truncated
  else
    match text with
    | a :: b :: c :: d :: _ =>
      match hexValue? a, hexValue? b, hexValue? c, hexValue? d with
      | some a, some b, some c, some d => .ok (((a * 16 + b) * 16 + c) * 16 + d)
      | _, _, _, _ => .error .malformed
    | _ => .error .malformed

/-- The character of a `u` escape, and how many characters it takes after the letter; a code point
above the first plane takes two escapes. -/
def unicodeEscape (text : List Char) : Except ReadError (Char × Nat) := do
  let n ← hexEscape text
  if 0xDC00 ≤ n && n ≤ 0xDFFF then throw .malformed
  if n < 0xD800 || 0xDBFF < n then return (Char.ofNat n, 4)
  match text.drop 4 with
  | [] => throw .truncated
  | '\\' :: 'u' :: rest =>
    let low ← hexEscape rest
    if low < 0xDC00 || 0xDFFF < low then throw .malformed
    return (Char.ofNat ((n - 0xD800) * 1024 + (low - 0xDC00) + 0x10000), 10)
  | ['\\'] => throw .truncated
  | _ => throw .malformed

def simpleEscape? (c : Char) : Option Char :=
  if c = '"' || c = '\\' || c = '/' then some c
  else if c = 'b' then some (Char.ofNat 8)
  else if c = 'f' then some (Char.ofNat 12)
  else if c = 'n' then some '\n'
  else if c = 'r' then some '\r'
  else if c = 't' then some '\t'
  else none

/-- The characters of a string up to its closing quote, of which the first ones are passed over. With
`strict`, escaped code points must be characters. -/
def stringBody (strict : Bool) : Nat → List Char → Reader (List Char)
  | _, _, [] => .error .truncated
  | passed + 1, read, _ :: rest => stringBody strict passed read rest
  | 0, read, c :: rest =>
    if c = '"' then .ok (read.reverse, rest)
    else if c = '\\' then
      match rest.head? with
      | none => .error .truncated
      | some e =>
        match simpleEscape? e with
        | some d => stringBody strict 1 (d :: read) rest
        | none =>
          if e = 'u' then
            if strict then do
              let (d, count) ← unicodeEscape (rest.drop 1)
              stringBody strict (count + 1) (d :: read) rest
            else do
              let _ ← hexEscape (rest.drop 1)
              stringBody strict 5 read rest
          else .error .malformed
    else if c.toNat < 32 then .error .malformed
    else stringBody strict 0 (c :: read) rest

/-- A string after its opening quote. -/
def quoted : Reader String := fun text => do
  let (chars, rest) ← stringBody true 0 [] text
  pure (String.ofList chars, rest)

/-! Lists and objects. -/

/-- Whether another item follows in a list. The closing bracket stays in the text. -/
def nextItem (first : Bool) (text : List Char) : Except ReadError (Bool × List Char) := do
  let (c, text) ← peek text
  if c = ']' then return (false, text)
  if first then return (true, text)
  if c != ',' then throw .malformed
  let (c, text) ← peek (text.drop 1)
  if c = ']' then throw .malformed
  pure (true, text)

/-- The name of the next field of an object, if another follows. The closing brace stays. -/
def nextName (first : Bool) (text : List Char) : Except ReadError (Option String × List Char) := do
  let (c, text) ← peek text
  if c = '\x7d' then return (none, text)
  let text ← if first then pure text else
    if c != ',' then throw .malformed else do
      let (_, text) ← peek (text.drop 1)
      pure text
  match text with
  | '"' :: rest =>
    let (name, rest) ← quoted rest
    pure (some name, rest)
  | _ => throw .malformed

def colon (text : List Char) : Except ReadError (List Char) := do
  let (c, text) ← peek text
  if c = ':' then pure (text.drop 1) else throw .malformed

/-- The end of a list or an object. -/
def close (mark : Char) (text : List Char) : Except ReadError (List Char) := do
  let (c, text) ← peek text
  if c = mark then pure (text.drop 1) else throw .malformed

/-- How deep lists and objects may nest. -/
def maxDepth : Nat := 127

/-- A value that is not looked at. -/
def skip : Nat → Reader Unit
  | 0, _ => .error .malformed
  | fuel + 1, text => do
    let (c, text) ← peek text
    if c = '[' then skipItems fuel true (text.drop 1)
    else if c = '\x7b' then skipFields fuel true (text.drop 1)
    else if c = '"' then do
      let (_, rest) ← stringBody false 0 [] (text.drop 1)
      pure ((), rest)
    else if c = '-' then skipNumber (text.drop 1)
    else if isDigit c then skipNumber text
    else if c = 'n' then expect "null".toList text
    else if c = 't' then expect "true".toList text
    else if c = 'f' then expect "false".toList text
    else throw .malformed
where
  skipItems : Nat → Bool → Reader Unit
  | 0, _, _ => .error .malformed
  | fuel + 1, first, text => do
    let (more, text) ← nextItem first text
    if more then do
      let (_, text) ← skip fuel text
      skipItems fuel false text
    else pure ((), text.drop 1)
  skipFields : Nat → Bool → Reader Unit
  | 0, _, _ => .error .malformed
  | fuel + 1, first, text => do
    let (c, text) ← peek text
    if c = '\x7d' then return ((), text.drop 1)
    let text ← if first then pure text else
      if c != ',' then throw .malformed else do
        let (_, text) ← peek (text.drop 1)
        pure text
    match text with
    | '"' :: rest =>
      let (_, rest) ← stringBody false 0 [] rest
      let text ← colon rest
      let (_, text) ← skip fuel text
      skipFields fuel false text
    | _ => throw .malformed
  skipNumber (text : List Char) : Except ReadError (Unit × List Char) := do
    let rest ← match text with
      | '0' :: rest => if rest.head?.any isDigit then throw .malformed else pure rest
      | c :: rest => if isDigit c then pure (rest.dropWhile isDigit) else throw .malformed
      | [] => throw .malformed
    let rest ← match rest with
      | '.' :: decimals =>
        if decimals.head?.any isDigit then pure (decimals.dropWhile isDigit) else throw .malformed
      | _ => pure rest
    match rest with
    | c :: after =>
      if isExponentMark c then
        let digits := match after with
          | '+' :: digits => digits
          | '-' :: digits => digits
          | _ => after
        if digits.head?.any isDigit then pure ((), digits.dropWhile isDigit) else throw .malformed
      else pure ((), rest)
    | [] => pure ((), rest)

/-- A value that is neither a list nor an object, given its first character. -/
def scalar (c : Char) : Reader Json := fun text => do
  if c = '"' then
    let (s, rest) ← quoted (text.drop 1)
    pure (.string s, rest)
  else if c = '-' then
    let (n, rest) ← unsignedNumber true (text.drop 1)
    pure (.number n, rest)
  else if isDigit c then
    let (n, rest) ← unsignedNumber false text
    pure (.number n, rest)
  else if c = 'n' then
    let (_, rest) ← expect "null".toList text
    pure (.null, rest)
  else if c = 't' then
    let (_, rest) ← expect "true".toList text
    pure (.bool true, rest)
  else if c = 'f' then
    let (_, rest) ← expect "false".toList text
    pure (.bool false, rest)
  else throw .malformed

mutual

/-- A value of any kind, in which lists and objects may nest `depth` deep. -/
def value : Nat → Nat → Reader Json
  | 0, _, _ => .error .malformed
  | fuel + 1, depth, text => do
    let (c, text) ← peek text
    if c = '[' then
      if depth = 0 then throw .malformed
      let (values, text) ← items fuel (depth - 1) true (text.drop 1)
      let text ← close ']' text
      pure (.array values, text)
    else if c = '\x7b' then
      if depth = 0 then throw .malformed
      let (found, text) ← fields fuel (depth - 1) true [] (text.drop 1)
      let text ← close '\x7d' text
      pure (.object found, text)
    else scalar c text

/-- The values of a list up to its closing bracket. -/
def items : Nat → Nat → Bool → Reader (List Json)
  | 0, _, _, _ => .error .malformed
  | fuel + 1, depth, first, text => do
    let (more, text) ← nextItem first text
    if more then
      let (v, text) ← value fuel depth text
      let (rest, text) ← items fuel depth false text
      pure (v :: rest, text)
    else pure ([], text)

/-- The fields of an object up to its closing brace. Of a repeated name the last value counts. -/
def fields : Nat → Nat → Bool → List (String × Json) → Reader (List (String × Json))
  | 0, _, _, _, _ => .error .malformed
  | fuel + 1, depth, first, found, text => do
    let (name, text) ← nextName first text
    match name with
    | none => pure (found, text)
    | some name =>
      let text ← colon text
      let (v, text) ← value fuel depth text
      fields fuel depth false (setField name v found) text

end

/-- Steps that are enough to read any value from a text. -/
def enough (text : List Char) : Nat := 2 * text.length + 2

/-- Nothing but blanks may follow. -/
def finish (text : List Char) : Except ReadError Unit :=
  if (skipBlanks text).isEmpty then .ok () else .error .malformed

end Reader

/-- Read a text that holds one value. -/
def parse (text : String) : Except ReadError Json := do
  let chars := text.toList
  let (v, rest) ← Reader.value (Reader.enough chars) Reader.maxDepth chars
  Reader.finish rest
  pure v

end Countermodels.Json
