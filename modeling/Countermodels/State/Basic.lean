/-! States are sets of atomic states, written as numbers in base two. The null state has no atomic
state as a part, and the fusion of two states has those of both. -/

namespace Countermodels

structure State where
  bits : Nat
  deriving DecidableEq, Hashable, Repr, Inhabited

namespace State

instance : LT State := ⟨fun s t => s.bits < t.bits⟩

instance : LE State := ⟨fun s t => s.bits ≤ t.bits⟩

instance (s t : State) : Decidable (s < t) := inferInstanceAs (Decidable (s.bits < t.bits))

instance (s t : State) : Decidable (s ≤ t) := inferInstanceAs (Decidable (s.bits ≤ t.bits))

def null : State := ⟨0⟩

def fusion (s t : State) : State := ⟨s.bits ||| t.bits⟩

/-- The atomic states that two states share. -/
def common (s t : State) : State := ⟨s.bits &&& t.bits⟩

/-- What is left of a state without the atomic states of another. -/
def without (s t : State) : State := ⟨s.bits ^^^ (s.bits &&& t.bits)⟩

def overlaps (s t : State) : Bool := s.bits &&& t.bits != 0

def isPartOf (s t : State) : Bool := s.bits ||| t.bits == t.bits

def isProperPartOf (s t : State) : Bool := s.isPartOf t && s.bits != t.bits

/-- Number of ones in base two. -/
def countOnes (n : Nat) : Nat :=
  if n = 0 then 0 else n % 2 + countOnes (n / 2)
termination_by n
decreasing_by omega

/-- Number of atomic parts. -/
def size (s : State) : Nat := countOnes s.bits

/-- The state with two atomic states exchanged. -/
def swapBits (s : State) (i j : Nat) : State :=
  let differ := ((s.bits >>> i) ^^^ (s.bits >>> j)) &&& 1
  ⟨s.bits ^^^ (differ <<< i ||| differ <<< j)⟩

/-- The letter of an atomic state. -/
def letter (i : Nat) : Char := Char.ofNat (97 + i)

def text (s : State) : String :=
  if s.bits = 0 then "□"
  else String.ofList (((List.range (s.bits.log2 + 1)).filter s.bits.testBit).map letter)

/-- Go down through the parts of a state from one of them, collecting them on the way. -/
def partsBelow (whole part : Nat) (found : List State) : List State :=
  if part = 0 then ⟨0⟩ :: found
  else partsBelow whole ((part - 1) &&& whole) (⟨part⟩ :: found)
termination_by part
decreasing_by
  have : (part - 1) &&& whole ≤ part - 1 := Nat.and_le_left
  omega

/-- All parts of a state in ascending order, the null state and the state itself included. -/
def parts (s : State) : List State := partsBelow s.bits s.bits []

/-- All pairs of states whose fusion is the state. -/
def decompositions (s : State) : List (State × State) :=
  s.parts.flatMap fun a => (s.parts.filter fun b => a.fusion b = s).map fun b => (a, b)

end State

/-- All states over a number of atomic states. -/
structure StateSpace where
  n : Nat
  deriving DecidableEq, Repr, Inhabited

namespace StateSpace

/-- The number of states. A machine can only count those of fewer than 64 atomic states, as `count` does; an encoder has
a variable for each state, and no space that it can encode comes near to that. -/
def size (space : StateSpace) : Nat := 1 <<< space.n

/-- Whether a state is one of the space. States are words of 32 bits, and a space whose size is no such
word has none. -/
def contains (space : StateSpace) (s : State) : Bool := space.n < 32 && s.bits < space.size

/-- The states of the space in ascending order. -/
def states (space : StateSpace) : List State :=
  if space.n < 32 then (List.range space.size).map State.mk else []

/-- The atomic states. -/
def atoms (space : StateSpace) : List State := (List.range space.n).map fun i => ⟨1 <<< i⟩

/-- The atomic states that are not part of a state. -/
def extensions (space : StateSpace) (s : State) : List State :=
  space.atoms.filter fun b => !b.isPartOf s

end StateSpace

end Countermodels
