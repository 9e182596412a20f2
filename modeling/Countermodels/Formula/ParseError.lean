import Countermodels.Formula.Basic

/-! The mistakes a formula source can contain, with the byte at which each is noticed, and their
wording. -/

namespace Countermodels

/-- What the grammar looks for at a place of the source. -/
inductive Expectation where
  | endOfInput | whole | binary | unary | atom
  | operator (op : Operator)
  deriving DecidableEq, Repr

namespace Expectation

/-- All expectations, in the order in which they are listed. -/
def all : List Expectation :=
  [endOfInput, whole, binary, unary, atom] ++ Operator.all.map operator

def name : Expectation → String
  | endOfInput => "EOI"
  | whole => "main"
  | binary => "binary"
  | unary => "unary"
  | atom => "atom"
  | operator .top => "top"
  | operator .bot => "bot"
  | operator (.unary .neg) => "neg"
  | operator (.unary .box) => "box_op"
  | operator (.unary .diamond) => "diamond_op"
  | operator (.unary .future) => "future"
  | operator (.unary .someFuture) => "some_future"
  | operator (.unary .past) => "past"
  | operator (.unary .somePast) => "some_past"
  | operator (.unary .always) => "always"
  | operator (.unary .sometime) => "sometime"
  | operator (.unary .cfBox) => "cf_box"
  | operator (.unary .cfDiamond) => "cf_diamond"
  | operator (.binary .and) => "and"
  | operator (.binary .or) => "or"
  | operator (.binary .implies) => "implies"
  | operator (.binary .iff) => "iff"
  | operator (.binary .boxRight) => "boxright"
  | operator (.binary .diamondRight) => "diamondright"
  | operator (.binary .ground) => "ground"
  | operator (.binary .essence) => "essence"
  | operator (.binary .identity) => "identity"

/-- An enumeration in prose: `a`, `a or b`, `a, b, or c`. -/
def enumerate : List String → String
  | [] => ""
  | [a] => a
  | [a, b] => a ++ " or " ++ b
  | names => ", ".intercalate names.dropLast ++ ", or " ++ names.getLastD ""

end Expectation

/-- What is wrong with a text apart from what the grammar looks for. -/
inductive Surprise where
  /-- A character belongs to no part of the notation. -/
  | character (char : Char)
  /-- A text has fewer parts than it needs. -/
  | incomplete (text : String)
  /-- A part of this name is no formula. -/
  | misplaced (name : Expectation) (text : String)
  /-- The operator of one argument is missing. -/
  | noUnary (text : String)
  /-- The operator of two arguments is missing. -/
  | noBinary (text : String)
  deriving DecidableEq, Repr

def Surprise.message : Surprise → String
  | character char => s!"unexpected character `{char}`"
  | incomplete text => s!"incomplete formula `{text}`"
  | misplaced name text =>
    let part := name.name
    s!"unexpected {part} in `{text}`"
  | noUnary text => s!"expected a unary operator in `{text}`"
  | noBinary text => s!"expected a binary operator in `{text}`"

/-- Positions are byte offsets into the source. -/
inductive ParseError where
  /-- A backslash with its letters is no operator. -/
  | unknownOperator (word : String) (position : Nat)
  /-- A parenthesis has no partner. -/
  | unbalanced (position : Nat)
  /-- A word is not a single uppercase letter. -/
  | badAtom (word : String) (position : Nat)
  /-- A text is not what it should be. -/
  | unexpected (surprise : Surprise) (position : Nat)
  /-- The grammar wanted one of some things. -/
  | expected (wanted : List Expectation) (position : Nat)
  deriving DecidableEq, Repr

namespace ParseError

def message : ParseError → String
  | unknownOperator word position => s!"Unknown operator `{word}` at {position}"
  | unbalanced position => s!"Unbalanced parenthesis at {position}"
  | badAtom word position =>
    s!"Unrecognized atom `{word}` at {position} (atoms are single uppercase letters)"
  | unexpected surprise position =>
    let complaint := surprise.message
    s!"Syntax error at {position}: {complaint}"
  | expected wanted position =>
    let names := Expectation.enumerate (wanted.map Expectation.name)
    s!"Syntax error at {position}: expected {names}"

end ParseError

end Countermodels
