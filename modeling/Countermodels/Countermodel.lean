import Countermodels.History.Meaning
import Countermodels.Truthmaker.Meaning

/-! Models of either theory, and whether they are countermodels to an argument. -/

namespace Countermodels

inductive Countermodel where
  | truthmaker (model : Truthmaker.Model)
  | history (model : History.Model)
  deriving DecidableEq, Repr

namespace Countermodel

/-- Truth at the point of evaluation. -/
def isTrue : Countermodel → Formula → Except Failure Bool
  | truthmaker m, f => m.isTrue f m.evalWorld
  | history m, f => do m.isTrue f 0 (← Failure.ofFault m.now)

/-- Equality up to what the frame leaves open. -/
def sameShape : Countermodel → Countermodel → Bool
  | truthmaker m, truthmaker k => m.shape = k.shape
  | history m, history k => m.shape = k.shape
  | _, _ => false

def text : Countermodel → Except Fault String
  | truthmaker m => m.text
  | history m => m.text

/-- All premises must be true. -/
def verifyPremises (m : Countermodel) : List Formula → Except Failure Unit
  | [] => .ok ()
  | f :: fs => do
    if ← m.isTrue f then verifyPremises m fs
    else throw (.refused (.unsoundModel f.render true))

/-- Whether some conclusion is false. -/
def refutes (m : Countermodel) : List Formula → Except Failure Bool
  | [] => .ok false
  | f :: fs => do if ← m.isTrue f then refutes m fs else return true

/-- All premises must be true and, if there are conclusions, one of them false. -/
def verify (m : Countermodel) (premises conclusions : List Formula) : Except Failure Unit := do
  m.verifyPremises premises
  if conclusions ≠ [] then
    if !(← m.refutes conclusions) then
      throw (.refused (.unsoundModel (", ".intercalate (conclusions.map Formula.render)) false))

end Countermodel

end Countermodels
