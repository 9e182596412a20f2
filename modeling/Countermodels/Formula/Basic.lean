/-! The object language: sentence letters, two constants, eleven unary and nine binary operators.
A formula is a tree; its written form puts binary operators between parentheses and everything else
in front of its argument. -/

namespace Countermodels

/-- A sentence letter is a single uppercase letter. -/
structure Atom where
  name : Char
  upper : name.isUpper = true
  deriving DecidableEq, Repr

namespace Atom

instance : Hashable Atom := ⟨fun a => a.name.val.toUInt64⟩

/-- The sentence letter written by a character, if it is an uppercase letter. -/
def ofChar? (c : Char) : Option Atom :=
  if h : c.isUpper = true then some ⟨c, h⟩ else none

/-- Insert a letter into an alphabetical list without repetition. -/
def insert (a : Atom) : List Atom → List Atom
  | [] => [a]
  | b :: rest =>
    if a.name < b.name then a :: b :: rest
    else if a = b then b :: rest
    else b :: insert a rest

/-- The letters of a list in alphabetical order, each once. -/
def sorted (letters : List Atom) : List Atom := letters.foldr insert []

end Atom

inductive UnaryOp where
  | neg | box | diamond
  /-- At every later time. -/
  | future
  /-- At some later time. -/
  | someFuture
  /-- At every earlier time. -/
  | past
  /-- At some earlier time. -/
  | somePast
  | always | sometime | cfBox | cfDiamond
  deriving DecidableEq, Repr, Hashable

inductive BinaryOp where
  | and | or | implies | iff
  /-- The would-counterfactual. -/
  | boxRight
  /-- The might-counterfactual. -/
  | diamondRight
  | ground | essence | identity
  deriving DecidableEq, Repr, Hashable

namespace UnaryOp

def all : List UnaryOp :=
  [neg, box, diamond, future, someFuture, past, somePast, always, sometime, cfBox, cfDiamond]

def symbol : UnaryOp → String
  | neg => "\\neg"
  | box => "\\Box"
  | diamond => "\\Diamond"
  | future => "\\Future"
  | someFuture => "\\future"
  | past => "\\Past"
  | somePast => "\\past"
  | always => "\\Always"
  | sometime => "\\Sometime"
  | cfBox => "\\CFBox"
  | cfDiamond => "\\CFDiamond"

end UnaryOp

namespace BinaryOp

def all : List BinaryOp :=
  [and, or, implies, iff, boxRight, diamondRight, ground, essence, identity]

def symbol : BinaryOp → String
  | and => "\\wedge"
  | or => "\\vee"
  | implies => "\\rightarrow"
  | iff => "\\leftrightarrow"
  | boxRight => "\\boxright"
  | diamondRight => "\\diamondright"
  | ground => "\\leq"
  | essence => "\\sqsubseteq"
  | identity => "\\equiv"

end BinaryOp

/-- Any operator of the language, the two constants included. -/
inductive Operator where
  | top | bot
  | unary (op : UnaryOp)
  | binary (op : BinaryOp)
  deriving DecidableEq, Repr, Hashable

namespace Operator

/-- All operators, in the order in which sets of operators are listed. -/
def all : List Operator :=
  [top, bot] ++ UnaryOp.all.map unary ++ BinaryOp.all.map binary

def symbol : Operator → String
  | top => "\\top"
  | bot => "\\bot"
  | unary op => op.symbol
  | binary op => op.symbol

def ofSymbol? (s : String) : Option Operator := all.find? (·.symbol == s)

/-- Number of arguments. -/
def arity : Operator → Nat
  | top | bot => 0
  | unary _ => 1
  | binary _ => 2

end Operator

inductive Formula where
  | atom (a : Atom)
  | top | bot
  | unary (op : UnaryOp) (arg : Formula)
  | binary (op : BinaryOp) (lhs rhs : Formula)
  deriving DecidableEq, Repr, Hashable

namespace Formula

/-- The written form of a formula. -/
def render : Formula → String
  | atom a => a.name.toString
  | top => "\\top"
  | bot => "\\bot"
  | unary op arg => op.symbol ++ " " ++ arg.render
  | binary op lhs rhs => "(" ++ lhs.render ++ " " ++ op.symbol ++ " " ++ rhs.render ++ ")"

/-- The outermost operator, if the formula is not a sentence letter. -/
def operator? : Formula → Option Operator
  | atom _ => none
  | top => some .top
  | bot => some .bot
  | unary op _ => some (.unary op)
  | binary op _ _ => some (.binary op)

def children : Formula → List Formula
  | atom _ | top | bot => []
  | unary _ arg => [arg]
  | binary _ lhs rhs => [lhs, rhs]

/-- Number of nodes. -/
def size : Formula → Nat
  | atom _ | top | bot => 1
  | unary _ arg => arg.size + 1
  | binary _ lhs rhs => lhs.size + rhs.size + 1

/-- Number of nodes of some formulas. -/
def totalSize : List Formula → Nat
  | [] => 0
  | f :: fs => f.size + totalSize fs

theorem totalSize_append (fs gs : List Formula) : totalSize (fs ++ gs) = totalSize fs + totalSize gs := by
  induction fs with
  | nil => simp [totalSize]
  | cons f fs ih =>
    simp only [List.cons_append, totalSize, ih]
    omega

theorem totalSize_children (f : Formula) : totalSize f.children < f.size := by
  cases f <;> simp [children, size, totalSize]

/-- Formulas that are read one after the other. Those before `place` have been read. -/
structure Walk where
  formulas : List Formula
  place : Nat

namespace Walk

/-- Read the next formula, and put its children right behind it. -/
def step? (w : Walk) : Option Walk :=
  if h : w.place < w.formulas.length then
    let next := w.place + 1
    some ⟨w.formulas.take next ++ w.formulas[w.place].children ++ w.formulas.drop next, next⟩
  else none

theorem totalSize_step? {w w' : Walk} (h : w.step? = some w') :
    totalSize (w'.formulas.drop w'.place) < totalSize (w.formulas.drop w.place) := by
  rw [step?] at h
  split at h
  · next hlt =>
    obtain rfl := Option.some.inj h
    have hchildren := totalSize_children w.formulas[w.place]
    have hread : (w.formulas.take (w.place + 1)).length = w.place + 1 := List.length_take_of_le hlt
    rw [List.append_assoc, List.drop_left' hread, totalSize_append, List.drop_eq_getElem_cons hlt, totalSize]
    omega
  · cases h

/-- The formulas when all of them have been read. -/
def run (w : Walk) : List Formula :=
  match _h : w.step? with
  | some next => next.run
  | none => w.formulas
termination_by totalSize (w.formulas.drop w.place)
decreasing_by exact totalSize_step? _h

end Walk

/-- All occurrences of subformulas, each before its own. -/
def subformulas (f : Formula) : List Formula := Walk.run ⟨[f], 0⟩

def atom? : Formula → Option Atom
  | atom a => some a
  | _ => none

/-- The sentence letters of a formula in alphabetical order. -/
def atoms (f : Formula) : List Atom := Atom.sorted (f.subformulas.filterMap atom?)

/-- The operators of a formula, listed in the order of `Operator.all`. -/
def operators (f : Formula) : List Operator :=
  let found := f.subformulas.filterMap operator?
  Operator.all.filter (found.contains ·)

/-- Number of occurrences of operators. -/
def complexity (f : Formula) : Nat :=
  (f.subformulas.filter (·.operator?.isSome)).length

/-- Whether a counterfactual occurs anywhere in the formula. Without one, what verifies and
falsifies the formula is the same at every world. -/
def isWorldDependent (f : Formula) : Bool :=
  f.subformulas.any fun
    | binary .boxRight _ _ | binary .diamondRight _ _ => true
    | _ => false

/-- Whether the form of the formula guarantees the same truth value at every world. -/
def isRigid : Formula → Bool
  | top | bot => true
  | unary .neg arg => arg.isRigid
  | unary .box _ | unary .diamond _ => true
  | binary .and lhs rhs | binary .or lhs rhs => lhs.isRigid && rhs.isRigid
  | binary .ground lhs rhs | binary .essence lhs rhs | binary .identity lhs rhs =>
    !lhs.isWorldDependent && !rhs.isWorldDependent
  | _ => false

end Formula

end Countermodels
