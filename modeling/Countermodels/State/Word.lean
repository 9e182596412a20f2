import Countermodels.Fault
import Countermodels.State.Basic

/-! States as words of 32 bits. A space can be named whose size is no word of 64 bits: its states cannot
be counted, and asking for them breaks a promise. -/

namespace Countermodels

namespace StateSpace

/-- The number of states, as a word of 64 bits. -/
def count (space : StateSpace) : Except Fault Nat :=
  if space.n < 64 then .ok space.size else .error .overflow

/-- The fusion of all states, cut to a word. -/
def full (space : StateSpace) : Except Fault State := do
  return ⟨((← space.count) - 1) % (1 <<< 32)⟩

/-- The states, if they can be counted. -/
def listed (space : StateSpace) : Except Fault (List State) := do
  let _ ← space.count
  return space.states

/-- The atomic states, if words can hold them. -/
def atomWords (space : StateSpace) : Except Fault (List State) :=
  if space.n ≤ 32 then .ok space.atoms else .error .overflow

def extensionWords (space : StateSpace) (s : State) : Except Fault (List State) := do
  return (← space.atomWords).filter fun b => !b.isPartOf s

/-- The states of which a state is part: its fusions with the parts of what it lacks. -/
def supersets (space : StateSpace) (s : State) : Except Fault (List State) := do
  let full ← space.full
  return if space.contains s then (full.without s).parts.map s.fusion else []

end StateSpace

/-- Exchange two atomic states of a word. -/
def State.swapWord (s : State) (i j : Nat) : Except Fault State :=
  if i < 32 ∧ j < 32 then .ok (s.swapBits i j) else .error .overflow

end Countermodels
