import Countermodels.Countermodel
import Countermodels.History.Encoder
import Countermodels.Sat.Session
import Countermodels.Theory
import Countermodels.Truthmaker.Encoder

/-! The search for countermodels as a problem for a solver, in either theory. -/

namespace Countermodels

/-- An argument to be refuted. -/
structure Problem where
  premises : List Formula
  conclusions : List Formula
  settings : Settings

/-- The sentence letters of an argument. -/
def Problem.letters (p : Problem) : List Atom :=
  Atom.sorted ((p.premises ++ p.conclusions).flatMap Formula.atoms)

/-- The clauses and literals of a theory. -/
inductive Encoding where
  | truthmaker (encoder : Truthmaker.Encoder)
  | history (encoder : History.Encoder)

namespace Encoding

def build (theory : Theory) (settings : Settings) (letters : List Atom) (deadline : Deadline) :
    Except Failure Encoding := do
  match theory with
  | .counterfactual => return .truthmaker (← Truthmaker.Encoder.build settings letters deadline)
  | .bimodal => return .history (← History.Encoder.build settings letters deadline)

def draft : Encoding → Draft
  | truthmaker e => e.draft
  | history e => e.draft

/-- The result of a step of one of the encoders, as a step of the encoding. -/
def wrap {ε α : Type} (encoding : ε → Encoding) :
    EStateM.Result Failure ε α → EStateM.Result Failure Encoding α
  | .ok a e => .ok a (encoding e)
  | .error failure e => .error failure (encoding e)

/-- Write something under the deadline of an encoding. -/
def lift {α : Type} (m : DraftM α) : EStateM Failure Encoding α
  | truthmaker e => wrap truthmaker (Truthmaker.Encoder.lift m e)
  | history e => wrap history (History.Encoder.lift m e)

/-- A literal for the truth of a formula at the point of evaluation. -/
def truthAtEval (f : Formula) : EStateM Failure Encoding Lit
  | truthmaker e => wrap truthmaker (Truthmaker.Encoder.truthAtEval f e)
  | history e => wrap history (History.Encoder.truthAtEval f e)

/-- Literals on which distinct models differ. -/
def essential : Encoding → List Lit
  | truthmaker e => e.essential
  | history e => e.essential

/-- The model that a session holds. -/
def extract (e : Encoding) (s : Session) : Except Failure Countermodel := do
  match e with
  | truthmaker e => return .truthmaker (← e.extract s.holds)
  | history e => return .history (← e.extract s.holds)

end Encoding

end Countermodels
