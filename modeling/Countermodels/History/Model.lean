import Countermodels.CheckError
import Countermodels.Formula.Valuation
import Countermodels.State.Set

/-! Models of world histories. A history passes through one state at each of `2 * m - 1` times, the
present in the middle; a sentence letter is true at some states. -/

namespace Countermodels.History

structure Model where
  space : StateSpace
  m : Nat
  /-- The states of each history by time; the main history comes first. -/
  histories : List (List State)
  valuation : Valuation StateSet
  deriving DecidableEq, Repr

/-- The order of histories by their states, earlier times first. -/
def before : List State → List State → Bool
  | [], [] => false
  | [], _ :: _ => true
  | _ :: _, [] => false
  | s :: ss, t :: ts => s < t || (s = t && before ss ts)

/-- Insert a history into a list in order without repetition. -/
def insert (h : List State) : List (List State) → List (List State)
  | [] => [h]
  | k :: ks => if before h k then h :: k :: ks else if h = k then k :: ks else k :: insert h ks

namespace Model

/-- The histories after the main one as a set: in order, each once. -/
def others (m : Model) : List (List State) := (m.histories.drop 1).foldr insert []

/-- What iteration keeps distinct: the order of the histories after the main one does not matter. -/
def shape (m : Model) : List State × List (List State) × Valuation StateSet :=
  (m.histories.headD [], m.others, m.valuation)

/-- Number of times; twice `m` must be a word of 64 bits. -/
def numTimes (m : Model) : Except Fault Nat :=
  if m.m = 0 ∨ 1 <<< 64 ≤ 2 * m.m then .error .overflow else .ok (2 * m.m - 1)

/-- The index of the present. -/
def now (m : Model) : Except Fault Nat := if m.m = 0 then .error .overflow else .ok (m.m - 1)

/-- The state of a history at a time. -/
def stateAt (m : Model) (h t : Nat) : Except Fault State :=
  match m.histories[h]?.bind (·[t]?) with
  | some s => .ok s
  | none => .error .index

/-- A number with its sign. -/
def signed (i : Int) : String := if i < 0 then toString i else "+" ++ toString i

/-- A time counted from the present, in words of 32 bits. -/
def timeAt (m : Model) (t : Nat) : Except Fault Int := do
  let time := Int.bmod t (1 <<< 32) - Int.bmod (← m.now) (1 <<< 32)
  if -0x80000000 ≤ time ∧ time < 0x80000000 then return time else throw .overflow

/-- The states of a history with the times counted from the present. -/
def slices (m : Model) (history : List State) : Except Fault (List String) :=
  history.zipIdx.mapM fun (s, t) => return signed (← m.timeAt t) ++ ":" ++ s.text

def historyText (m : Model) (h : Nat) (history : List State) : Except Fault String := do
  return (if h = 0 then " *h" else "  h") ++ toString h ++ " " ++ " -> ".intercalate (← m.slices history) ++ "\n"

def text (m : Model) : Except Fault String := do
  let histories ← m.histories.zipIdx.mapM fun (history, h) => m.historyText h history
  let letters := m.valuation.map fun (a, states) => s!"  |{a.name}| = \x7b" ++ states.text ++ "\x7d\n"
  return s!"Histories (N = {m.space.n}, M = {m.m}):\n" ++ String.join histories ++
    "Propositions:\n" ++ String.join letters

end Model

end Countermodels.History
