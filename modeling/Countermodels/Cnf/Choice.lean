import Countermodels.Cnf.Cardinality
import Countermodels.Fault

/-! A choice of one value among finitely many, with a literal for each of them. -/

namespace Countermodels

structure Choice (α : Type) where
  domain : List α
  lits : List Lit
  deriving Repr

namespace Choice

variable {α σ : Type} [Sink σ]

/-- Fresh literals for a domain, without clauses. -/
def free (domain : List α) : StateM σ (Choice α) := do
  return ⟨domain, ← Emit.freshList domain.length⟩

/-- Fresh literals for a domain, of which exactly one holds. -/
def one (domain : List α) : StateM σ (Choice α) := do
  let c ← free domain
  Emit.exactlyOne c.lits
  return c

def pairs (c : Choice α) : List (α × Lit) := c.domain.zip c.lits

/-- The literal of a value; of a value that is listed twice, the last one. -/
def find? [DecidableEq α] (c : Choice α) (a : α) : Option Lit :=
  (c.pairs.reverse.find? (·.1 = a)).map (·.2)

/-- The literal of a value that must be listed. -/
def is [DecidableEq α] (c : Choice α) (a : α) : Except Fault Lit :=
  match c.find? a with
  | some l => .ok l
  | none => .error .domain

/-- The value whose literal holds. -/
def eval (c : Choice α) (holds : Lit → Bool) : Except Fault (Option α) :=
  match c.pairs.filter (fun p => holds p.2) with
  | [] => .ok none
  | [(a, _)] => .ok (some a)
  | _ => .error .choice

def text (c : Choice Int) : String :=
  "DomainVar<i64>([" ++ ", ".intercalate (c.domain.map toString) ++ "])"

end Choice

end Countermodels
