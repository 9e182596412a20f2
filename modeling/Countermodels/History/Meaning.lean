import Countermodels.History.Model

/-! Truth of formulas on a history at a time. -/

namespace Countermodels.History

/-- Whether a test holds at the `count` places from `i` on; it stops at the first where it fails. -/
def allFrom (test : Nat → Except Failure Bool) (i : Nat) : Nat → Except Failure Bool
  | 0 => .ok true
  | count + 1 => do if ← test i then allFrom test (i + 1) count else return false

/-- Whether a test holds at one of the `count` places from `i` on. -/
def someFrom (test : Nat → Except Failure Bool) (i count : Nat) : Except Failure Bool := do
  return !(← allFrom (fun i => return !(← test i)) i count)

namespace Model

/-- Number of times after `t`, of which the next must be a word of 64 bits. -/
def numLater (m : Model) (t : Nat) : Except Failure Nat := Failure.ofFault do
  if 1 <<< 64 ≤ t + 1 then throw .overflow
  return (← m.numTimes) - (t + 1)

def isTrue (m : Model) : Formula → Nat → Nat → Except Failure Bool
  | .atom a, h, t =>
    match m.valuation.meaning? a with
    | some states => return (← Failure.ofFault (m.stateAt h t)) ∈ states
    | none => .ok false
  | .top, _, _ => .ok true
  | .bot, _, _ => .ok false
  | .unary .neg a, h, t => return !(← m.isTrue a h t)
  | .unary .box a, _, t => allFrom (m.isTrue a · t) 0 m.histories.length
  | .unary .diamond a, _, t => someFrom (m.isTrue a · t) 0 m.histories.length
  | .unary .future a, h, t => do allFrom (m.isTrue a h) (t + 1) (← m.numLater t)
  | .unary .someFuture a, h, t => do someFrom (m.isTrue a h) (t + 1) (← m.numLater t)
  | .unary .past a, h, t => allFrom (m.isTrue a h) 0 t
  | .unary .somePast a, h, t => someFrom (m.isTrue a h) 0 t
  | .unary op _, _, _ => .error (.refused (.unsupportedOperator "bimodal" (.unary op)))
  | .binary .and a b, h, t => do if ← m.isTrue a h t then m.isTrue b h t else return false
  | .binary .or a b, h, t => do if ← m.isTrue a h t then return true else m.isTrue b h t
  | .binary op _ _, _, _ => .error (.refused (.unsupportedOperator "bimodal" (.binary op)))

end Model

end Countermodels.History
