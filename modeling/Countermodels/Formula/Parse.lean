import Countermodels.Formula.Attempts
import Countermodels.Formula.Scan
import Countermodels.Formula.Tree

/-! Recursive descent for formulas. Binary operators stand between parentheses, except for one
outermost operator, which may stand bare. Alternatives are tried in order, and blanks may stand
between any two parts. The descent leaves parse trees, which are then read as formulas. -/

namespace Countermodels.Formula

/-- A parser reads a value at a cursor or fails, and keeps track of what it attempted. -/
abbrev Parser (α : Type) := Cursor → Attempts → Option (α × Cursor) × Attempts

namespace Parser

variable {α β : Type}

def fail : Parser α := fun _ attempts => (none, attempts)

def yield (a : α) : Parser α := fun cursor attempts => (some (a, cursor), attempts)

def andThen (p : Parser α) (q : α → Parser β) : Parser β := fun cursor attempts =>
  match p cursor attempts with
  | (some (a, cursor), attempts) => q a cursor attempts
  | (none, attempts) => (none, attempts)

instance : Monad Parser where
  pure := yield
  bind := andThen

/-- Try the alternatives in order. -/
def orElse (p q : Parser α) : Parser α := fun cursor attempts =>
  match p cursor attempts with
  | (none, attempts) => q cursor attempts
  | success => success

def choose (alternatives : List (Parser α)) : Parser α := alternatives.foldr orElse fail

/-- A named part: it leaves a node over those inside it, and its failure is recorded. -/
def node (name : Expectation) (p : Parser (List Node)) : Parser (List Node) := fun cursor attempts =>
  match p cursor attempts with
  | (some (inner, stop), attempts) => (some ([.mk name cursor stop inner], stop), attempts)
  | (none, inner) =>
    (none, inner.record name cursor.position (attempts.countAt cursor.position))

def isSpace (c : Char) : Bool := c == ' ' || c == '\t' || c == '\r' || c == '\n'

def blanks : Parser Unit := fun cursor attempts =>
  let gap := cursor.rest.takeWhile isSpace
  (some ((), ⟨cursor.position + gap.length, cursor.rest.dropWhile isSpace⟩), attempts)

def char (c : Char) : Parser Unit := fun cursor attempts =>
  match cursor.rest with
  | d :: rest => if c = d then (some ((), ⟨cursor.position + 1, rest⟩), attempts) else (none, attempts)
  | [] => (none, attempts)

/-- An operator word, which no further letter may extend. -/
def word (op : Operator) : Parser (List Node) := node (.operator op) fun cursor attempts =>
  match cursor.rest with
  | '\\' :: _ =>
    let symbol := op.symbol.toList
    if symbol.isPrefixOf cursor.rest then
      let rest := cursor.rest.drop symbol.length
      if rest.head?.any isLetter then (none, attempts)
      else (some ([], ⟨cursor.position + symbol.length, rest⟩), attempts)
    else (none, attempts)
  | _ => (none, attempts)

/-- A sentence letter, which no further word character may extend. -/
def letter : Parser (List Node) := node .atom fun cursor attempts =>
  match cursor.rest with
  | c :: rest =>
    if c.isUpper then
      if rest.head?.any (fun d => d.isAlphanum || d == '_') then (none, attempts)
      else (some ([], ⟨cursor.position + 1, rest⟩), attempts)
    else (none, attempts)
  | [] => (none, attempts)

def endOfInput : Parser (List Node) := node .endOfInput fun cursor attempts =>
  if cursor.rest.isEmpty then (some ([], cursor), attempts) else (none, attempts)

/-- One of some operators. -/
def oneOf (ops : List Operator) : Parser (List Node) := choose (ops.map word)

/-- An operator and its argument. -/
def unary (term : Parser (List Node)) : Parser (List Node) := node .unary do
  let op ← oneOf (UnaryOp.all.map .unary)
  blanks
  let arg ← term
  pure (op ++ arg)

/-- An operator between its arguments. -/
def binary (term : Parser (List Node)) : Parser (List Node) := node .binary do
  let lhs ← term
  blanks
  let op ← oneOf (BinaryOp.all.map .binary)
  blanks
  let rhs ← term
  pure (lhs ++ op ++ rhs)

def group (term : Parser (List Node)) : Parser (List Node) := do
  char '('
  blanks
  let inner ← orElse (binary term) term
  blanks
  char ')'
  pure inner

/-- A formula that can be an argument, at most `depth` levels deep. -/
def term : Nat → Parser (List Node)
  | 0 => fail
  | depth + 1 => choose [letter, word .top, word .bot, unary (term depth), group (term depth)]

/-- A whole source. -/
def whole (depth : Nat) : Parser (List Node) := node .whole do
  blanks
  let inner ← orElse (binary (term depth)) (term depth)
  blanks
  let ending ← endOfInput
  pure (inner ++ ending)

end Parser

/-- Read a formula. A formula is nested less deep than its source is long. -/
def parse (source : String) : Except ParseError Formula := do
  scan source
  let chars := source.toList
  match Parser.whole (chars.length + 1) ⟨0, chars⟩ Attempts.none with
  | (some (nodes, _), _) =>
    let whole ← Node.part source nodes 0
    Node.readPart source whole.inner 0
  | (none, attempts) => throw attempts.error

end Countermodels.Formula
