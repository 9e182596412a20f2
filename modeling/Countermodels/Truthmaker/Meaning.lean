import Countermodels.CheckError
import Countermodels.Truthmaker.Model

/-! Truth and content of formulas in a truthmaker model. Both are given at a state at once, because a
counterfactual reads the content of its antecedent, and the content of a modal sentence is made of its
truth. -/

namespace Countermodels.Truthmaker

/-- The truth value and the content of a formula at every state. -/
structure Meaning where
  truth : State → Except Failure Bool
  content : State → Except Failure Content

/-- Whether a test holds everywhere; it stops at the first place where it fails. -/
def allHold (test : State → Except Failure Bool) : List State → Except Failure Bool
  | [] => .ok true
  | s :: states => do if ← test s then allHold test states else return false

namespace Meaning

/-- A meaning whose content is made of its truth. -/
def ofTruth (truth : State → Except Failure Bool) : Meaning :=
  ⟨truth, fun w => return .ofBool (← truth w)⟩

def neg (a : Meaning) : Meaning :=
  ⟨fun w => return !(← a.truth w), fun w => return (← a.content w).swapped⟩

def and (a b : Meaning) : Meaning :=
  ⟨fun w => do if ← a.truth w then b.truth w else return false,
    fun w => return (← a.content w).and (← b.content w)⟩

def or (a b : Meaning) : Meaning :=
  ⟨fun w => do if ← a.truth w then return true else b.truth w,
    fun w => return (← a.content w).or (← b.content w)⟩

def box (m : Model) (a : Meaning) : Meaning :=
  .ofTruth fun _ => do allHold a.truth (← Failure.ofFault (m.counting m.worlds))

def diamond (m : Model) (a : Meaning) : Meaning :=
  .ofTruth fun _ => do
    let worlds ← Failure.ofFault (m.counting m.worlds)
    return !(← allHold (fun u => return !(← a.truth u)) worlds)

/-- The truth of the consequent at all worlds that result from a verifier of the antecedent. -/
def outcomes (m : Model) (a b : Meaning) (w : State) : Except Failure (List Bool) := do
  let antecedent ← a.content w
  let worlds ← antecedent.ver.elems.mapM fun x => Failure.ofFault (m.counting (m.alternatives w x))
  worlds.flatten.mapM b.truth

def boxRight (m : Model) (a b : Meaning) : Meaning :=
  .ofTruth fun w => return (← outcomes m a b w).all id

def diamondRight (m : Model) (a b : Meaning) : Meaning :=
  .ofTruth fun w => return (← outcomes m a b w).any id

def ground (a b : Meaning) : Meaning :=
  .ofTruth fun w => return (← a.content w).grounds (← b.content w)

def essence (a b : Meaning) : Meaning :=
  .ofTruth fun w => return (← a.content w).swapped.grounds (← b.content w).swapped

def identity (a b : Meaning) : Meaning :=
  .ofTruth fun w => return (← a.content w) = (← b.content w)

def unsupported (op : Operator) : Meaning :=
  .ofTruth fun _ => .error (.refused (.unsupportedOperator "counterfactual" op))

end Meaning

namespace Model

/-- The content of a sentence letter; one without a meaning has no verifiers and falsifiers. -/
def atomContent (m : Model) (a : Atom) : Content := (m.valuation.meaning? a).getD .empty

def meaning (m : Model) : Formula → Meaning
  | .atom a =>
    ⟨fun w => .ok ((m.atomContent a).ver.elems.any (·.isPartOf w)), fun _ => .ok (m.atomContent a)⟩
  | .top => ⟨fun _ => .ok true, fun _ => Failure.ofFault (m.counting ⟨.ofSpace m.space, .empty⟩)⟩
  | .bot => ⟨fun _ => .ok false, fun _ => Failure.ofFault (m.counting ⟨.empty, .ofSpace m.space⟩)⟩
  | .unary .neg a => (m.meaning a).neg
  | .unary .box a => (m.meaning a).box m
  | .unary .diamond a => (m.meaning a).diamond m
  | .unary op _ => .unsupported (.unary op)
  | .binary .and a b => (m.meaning a).and (m.meaning b)
  | .binary .or a b => (m.meaning a).or (m.meaning b)
  | .binary .boxRight a b => (m.meaning a).boxRight m (m.meaning b)
  | .binary .diamondRight a b => (m.meaning a).diamondRight m (m.meaning b)
  | .binary .ground a b => (m.meaning a).ground (m.meaning b)
  | .binary .essence a b => (m.meaning a).essence (m.meaning b)
  | .binary .identity a b => (m.meaning a).identity (m.meaning b)
  | .binary op _ _ => .unsupported (.binary op)

/-- Whether a formula is true at a state. -/
def isTrue (m : Model) (f : Formula) (w : State) : Except Failure Bool := (m.meaning f).truth w

/-- The verifiers and falsifiers of a formula at a state. -/
def content (m : Model) (f : Formula) (w : State) : Except Failure Content :=
  (m.meaning f).content w

end Model

end Countermodels.Truthmaker
