import Countermodels.Formula.ParseError

/-! Parse trees. Every part of a source that the grammar has a name for leaves a node, over the nodes of
the parts inside it. A tree is read as a formula from its root down; a tree that lacks what the name of
a node asks for is refused. -/

namespace Countermodels.Formula

/-- The part of the source still to be read, and its byte offset. -/
structure Cursor where
  position : Nat
  rest : List Char

/-- The text up to a later cursor. -/
def Cursor.textUpTo (start stop : Cursor) : String :=
  String.ofList (start.rest.take (start.rest.length - stop.rest.length))

/-- A named part of a source, from where it begins to where the source goes on after it. -/
inductive Node where
  | mk (name : Expectation) (start stop : Cursor) (inner : List Node)

namespace Node

def name : Node → Expectation
  | mk name .. => name

def inner : Node → List Node
  | mk _ _ _ inner => inner

/-- One of the parts of a text. -/
def part (text : String) (nodes : List Node) (i : Nat) : Except ParseError Node :=
  match nodes[i]? with
  | some node => .ok node
  | none => .error (.unexpected (.incomplete text) text.utf8ByteSize)

def unaryOp (text : String) (position : Nat) : Expectation → Except ParseError UnaryOp
  | .operator (.unary op) => .ok op
  | _ => .error (.unexpected (.noUnary text) position)

def binaryOp (text : String) (position : Nat) : Expectation → Except ParseError BinaryOp
  | .operator (.binary op) => .ok op
  | _ => .error (.unexpected (.noBinary text) position)

mutual

/-- The formula that a tree stands for. -/
def read : Node → Except ParseError Formula
  | mk name start stop inner =>
    let text := start.textUpTo stop
    match name with
    | .atom =>
      match text.toList.head?.bind Atom.ofChar? with
      | some a => .ok (.atom a)
      | none => .error (.badAtom text start.position)
    | .operator .top => .ok .top
    | .operator .bot => .ok .bot
    | .unary => do
      let op ← unaryOp text start.position (← part text inner 0).name
      return .unary op (← readPart text inner 1)
    | .binary => do
      let lhs ← readPart text inner 0
      let op ← binaryOp text start.position (← part text inner 1).name
      return .binary op lhs (← readPart text inner 2)
    | name => .error (.unexpected (.misplaced name text) start.position)

/-- The formula that one of the parts of a text stands for. -/
def readPart (text : String) : List Node → Nat → Except ParseError Formula
  | [], _ => .error (.unexpected (.incomplete text) text.utf8ByteSize)
  | node :: _, 0 => node.read
  | _ :: nodes, i + 1 => readPart text nodes i

end

end Node

end Countermodels.Formula
