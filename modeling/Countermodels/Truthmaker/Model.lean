import Countermodels.Formula.Valuation
import Countermodels.State.Set
import Countermodels.State.Word

/-! Truthmaker models. Some states are possible, and the maximal possible states are the worlds. A
sentence letter has a content: the states that verify it and the states that falsify it. -/

namespace Countermodels.Truthmaker

/-- Verifiers and falsifiers. -/
structure Content where
  ver : StateSet
  fal : StateSet
  deriving DecidableEq, Repr

namespace Content

def empty : Content := ⟨.empty, .empty⟩

/-- The content of the negation. -/
def swapped (c : Content) : Content := ⟨c.fal, c.ver⟩

/-- The content of the conjunction. -/
def and (a b : Content) : Content :=
  ⟨a.ver.fusions b.ver, (a.fal.union b.fal).union (a.fal.fusions b.fal)⟩

/-- The content of the disjunction. -/
def or (a b : Content) : Content :=
  ⟨(a.ver.union b.ver).union (a.ver.fusions b.ver), a.fal.fusions b.fal⟩

/-- The content of a sentence that is only true or false: the null state verifies or falsifies it. -/
def ofBool (b : Bool) : Content :=
  if b then ⟨.singleton .null, .empty⟩ else ⟨.empty, .singleton .null⟩

/-- A content grounds another if their disjunction has the content of the other. -/
def grounds (a b : Content) : Bool :=
  a.ver.isSubset b.ver &&
  (a.fal.fusions b.fal).isSubset b.fal &&
  b.fal.elems.all (fun y => a.fal.elems.any fun x => x.isPartOf y)

end Content

structure Model where
  space : StateSpace
  possible : StateSet
  evalWorld : State
  valuation : Valuation Content
  deriving DecidableEq, Repr

namespace Model

def isPossible (m : Model) (s : State) : Bool := s ∈ m.possible

/-- A world is a possible state that is part of no other in the space. -/
def isWorld (m : Model) (s : State) : Bool :=
  m.isPossible s && m.possible.elems.all fun t => t = s || !(s.isPartOf t && m.space.contains t)

/-- The worlds in the space, in ascending order. -/
def worlds (m : Model) : List State :=
  m.possible.elems.filter fun s => m.space.contains s && m.isWorld s

/-- A result for which the states of the space must be countable. -/
def counting {α : Type} (m : Model) (result : α) : Except Fault α := do
  let _ ← m.space.count
  return result

/-- Whether a state is a world, asked of the space only if the state is possible. -/
def checkWorld (m : Model) (s : State) : Except Fault Bool :=
  if m.isPossible s then m.counting (m.isWorld s) else .ok false

/-- The parts of `w` whose fusion with `x` is possible. -/
def compatibleParts (m : Model) (w x : State) : List State :=
  w.parts.filter fun z => m.isPossible (z.fusion x)

/-- The maximal ones among the parts of `w` whose fusion with `x` is possible. -/
def maximalCompatibleParts (m : Model) (w x : State) : List State :=
  let compatible := m.compatibleParts w x
  compatible.filter fun z => !compatible.any fun y => z.isProperPartOf y

/-- The worlds that result from changing `w` as little as needed for `x`: they have as parts `x` and a
maximal part of `w` that is compatible with it. -/
def alternatives (m : Model) (w x : State) : List State :=
  let parts := m.maximalCompatibleParts w x
  m.worlds.filter fun u => x.isPartOf u && parts.any fun z => z.isPartOf u

/-- What iteration keeps distinct. Models that differ only in the world of evaluation have one
shape. -/
def shape (m : Model) : StateSet × Valuation Content := (m.possible, m.valuation)

def kind (m : Model) (worlds : List State) (s : State) : String :=
  if s = m.evalWorld then "evaluation world" else if s ∈ worlds then "world" else "possible"

def text (m : Model) : Except Fault String := do
  let worlds ← m.counting m.worlds
  let states := m.possible.elems.map fun s => "  " ++ s.text ++ " (" ++ m.kind worlds s ++ ")\n"
  let letters := m.valuation.map fun (a, c) =>
    s!"  |{a.name}| = < \x7b" ++ c.ver.text ++ "\x7d, \x7b" ++ c.fal.text ++ "\x7d >\n"
  return s!"State space (N = {m.space.n}):\n" ++ String.join states ++ "Propositions:\n" ++
    String.join letters

end Model

end Countermodels.Truthmaker
