import Std.Data.HashMap
import Countermodels.Cnf.Basic
import Countermodels.Fault

/-! Gates: literals that are defined by other literals. Each conjunction and each biconditional has one
literal, whatever the order and the repetitions of its inputs, and constants are folded away. -/

namespace Countermodels

structure Gates where
  /-- A literal that is true. -/
  top : Lit
  ands : Std.HashMap (List Lit) Lit := {}
  iffs : Std.HashMap (Lit × Lit) Lit := {}

namespace Gates

variable {σ : Type} [Sink σ]

def new : StateM σ Gates := do
  return { top := ← Emit.freshTrue }

def constant (g : Gates) (value : Bool) : Lit := g.top.flip !value

def size (g : Gates) : Nat := g.ands.size + g.iffs.size

/-- Inputs in order, each once; of one variable the negative literal comes first. -/
def normalize (lits : List Lit) : List Lit :=
  (lits.mergeSort (fun l m => l.neg.code ≤ m.neg.code)).eraseReps

/-- Whether two neighbours share a variable. -/
def hasClash : List Lit → Bool
  | l :: m :: ls => l.var = m.var || hasClash (m :: ls)
  | _ => false

/-- The conjunction of a list; the empty one is true. -/
def and (g : Gates) (xs : List Lit) : StateM σ (Lit × Gates) := do
  if g.top.neg ∈ xs then return (g.top.neg, g)
  let lits := normalize (xs.filter (· ≠ g.top))
  if hasClash lits then return (g.top.neg, g)
  match lits with
  | [] => return (g.top, g)
  | [x] => return (x, g)
  | _ =>
    match g.ands[lits]? with
    | some y => return (y, g)
    | none =>
      let y ← Emit.fresh
      Emit.iffAll y lits
      return (y, { g with ands := g.ands.insert lits y })

/-- The disjunction of a list; the empty one is false. -/
def or (g : Gates) (xs : List Lit) : StateM σ (Lit × Gates) := do
  let (y, g) ← g.and (xs.map Lit.neg)
  return (y.neg, g)

/-- The biconditional of the variables of two literals, the smaller variable first. -/
def iffVars (g : Gates) (a b : Lit) : StateM σ (Lit × Gates) := do
  let key := if a.var < b.var then (Lit.positive a.var, Lit.positive b.var)
    else (Lit.positive b.var, Lit.positive a.var)
  match g.iffs[key]? with
  | some y => return (y, g)
  | none =>
    let y ← Emit.fresh
    Emit.iffIff y key.1 key.2
    return (y, { g with iffs := g.iffs.insert key y })

/-- The biconditional of two literals. -/
def iff (g : Gates) (a b : Lit) : StateM σ (Lit × Gates) := do
  if a = b then return (g.top, g)
  if a = b.neg then return (g.top.neg, g)
  if a.var = g.top.var then return (if a = g.top then b else b.neg, g)
  if b.var = g.top.var then return (if b = g.top then a else a.neg, g)
  let (y, g) ← g.iffVars a b
  return (y.flip (a.negated != b.negated), g)

/-- The inputs of a disjunction up to the first that is true are negated, and their negations must be
words. -/
def checkOr (g : Gates) (xs : List Lit) : Except Fault Unit :=
  if (xs.takeWhile (· ≠ g.top)).all (·.neg.isWord) then .ok () else .error .overflow

/-- The inputs of a biconditional are negated unless they are equal, and their negations must be
words. -/
def checkIff (a b : Lit) : Except Fault Unit :=
  if a = b ∨ (a.neg.isWord ∧ b.neg.isWord) then .ok () else .error .overflow

end Gates

end Countermodels
