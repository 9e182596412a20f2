import Countermodels.Formula.ParseError
import Countermodels.Text.Classes

/-! A first pass over a formula source. It knows words and parentheses but no grammar, and so can
name the common mistakes for what they are: an unknown operator, a letter that is no sentence
letter, a parenthesis without a partner. -/

namespace Countermodels.Formula

open Text

def isLetter (c : Char) : Bool := c.isAlpha

def isWordPart (c : Char) : Bool := isWordChar c || c == '_'

theorem length_dropWhile_le (p : Char → Bool) (cs : List Char) :
    (cs.dropWhile p).length ≤ cs.length := (List.dropWhile_sublist p).length_le

/-- Number of bytes of a text. -/
def byteLength (cs : List Char) : Nat := cs.foldr (fun c n => c.utf8Size + n) 0

/-- Scan the rest of a source that starts at a byte offset. `opened` holds the offsets of the
parentheses that are still open, the innermost first. -/
def scanFrom (offset : Nat) (opened : List Nat) (source : List Char) : Except ParseError Unit :=
  match source with
  | [] =>
    match opened with
    | [] => .ok ()
    | position :: _ => .error (.unbalanced position)
  | c :: rest =>
    if c = '\\' then
      let word := c :: rest.takeWhile isLetter
      if (Operator.ofSymbol? (String.ofList word)).isSome then
        scanFrom (offset + byteLength word) opened (rest.dropWhile isLetter)
      else .error (.unknownOperator (String.ofList word) offset)
    else if c = '(' then scanFrom (offset + 1) (offset :: opened) rest
    else if c = ')' then
      match opened with
      | [] => .error (.unbalanced offset)
      | _ :: opened => scanFrom (offset + 1) opened rest
    else if isBlank c then scanFrom (offset + c.utf8Size) opened rest
    else if isWordPart c then
      let word := c :: rest.takeWhile isWordPart
      if word.length = 1 && c.isUpper then
        scanFrom (offset + byteLength word) opened (rest.dropWhile isWordPart)
      else .error (.badAtom (String.ofList word) offset)
    else .error (.unexpected (.character c) offset)
termination_by source.length
decreasing_by
  all_goals
    have := length_dropWhile_le isLetter rest
    have := length_dropWhile_le isWordPart rest
    simp only [List.length_cons]
    omega

/-- Find the first mistake of a source that needs no grammar to be seen. -/
def scan (source : String) : Except ParseError Unit := scanFrom 0 [] source.toList

end Countermodels.Formula
