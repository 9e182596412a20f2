import Countermodels.Formula.Valuation
import Countermodels.Proofs.Formula.Walk

/-! What occurs in a formula: its subformulas, and from them its sentence letters, its operators and
whether it depends on the world. -/

namespace Countermodels

theorem Operator.mem_all (op : Operator) : op ∈ all := by
  cases op with
  | top => decide
  | bot => decide
  | unary op => cases op <;> decide
  | binary op => cases op <;> decide

namespace Formula

@[simp] theorem subformulas_atom (a : Atom) : (atom a).subformulas = [atom a] := subformulas_eq_preorder _

@[simp] theorem subformulas_top : top.subformulas = [top] := subformulas_eq_preorder _

@[simp] theorem subformulas_bot : bot.subformulas = [bot] := subformulas_eq_preorder _

@[simp] theorem subformulas_unary (op : UnaryOp) (a : Formula) :
    (unary op a).subformulas = unary op a :: a.subformulas := by
  simp only [subformulas_eq_preorder, preorder]

@[simp] theorem subformulas_binary (op : BinaryOp) (a b : Formula) :
    (binary op a b).subformulas = binary op a b :: (a.subformulas ++ b.subformulas) := by
  simp only [subformulas_eq_preorder, preorder]

@[simp] theorem isWorldDependent_unary (op : UnaryOp) (a : Formula) :
    (unary op a).isWorldDependent = a.isWorldDependent := by
  simp [isWorldDependent]

theorem not_dependent_of_binary {op : BinaryOp} {a b : Formula}
    (h : (binary op a b).isWorldDependent = false) :
    a.isWorldDependent = false ∧ b.isWorldDependent = false := by
  simp only [isWorldDependent, subformulas_binary, List.any_cons, List.any_append,
    Bool.or_eq_false_iff] at h ⊢
  exact h.2

@[simp] theorem dependent_boxRight (a b : Formula) :
    (binary .boxRight a b).isWorldDependent = true := by
  simp [isWorldDependent]

@[simp] theorem dependent_diamondRight (a b : Formula) :
    (binary .diamondRight a b).isWorldDependent = true := by
  simp [isWorldDependent]

theorem mem_operators {op : Operator} {f : Formula} :
    op ∈ f.operators ↔ ∃ g ∈ f.subformulas, g.operator? = some op := by
  simp [operators, op.mem_all]

end Formula

namespace Atom

theorem mem_insert {a b : Atom} {letters : List Atom} :
    b ∈ insert a letters ↔ b = a ∨ b ∈ letters := by
  induction letters with
  | nil => simp [insert]
  | cons c rest ih =>
    unfold insert
    split
    · simp
    · split
      · next h => simp [h]
      · simp only [List.mem_cons, ih]
        tauto

@[simp] theorem mem_sorted {a : Atom} {letters : List Atom} : a ∈ sorted letters ↔ a ∈ letters := by
  induction letters with
  | nil => simp [sorted]
  | cons b rest ih =>
    refine mem_insert.trans ?_
    rw [List.mem_cons]
    exact or_congr_right ih

end Atom

namespace Formula

theorem mem_atoms {a : Atom} {f : Formula} : a ∈ f.atoms ↔ atom a ∈ f.subformulas := by
  rw [atoms, Atom.mem_sorted, List.mem_filterMap]
  constructor
  · rintro ⟨g, hg, hga⟩
    cases g <;> simp only [atom?, Option.some.injEq, reduceCtorEq] at hga
    exact hga ▸ hg
  · exact fun h => ⟨atom a, h, rfl⟩

/-- All operators and letters of the formula are among the given ones. -/
def Over (operators : List Operator) (letters : List Atom) (f : Formula) : Prop :=
  (∀ op ∈ f.operators, op ∈ operators) ∧ ∀ a ∈ f.atoms, a ∈ letters

section Over

variable {ops : List Operator} {letters : List Atom} {a b : Formula}

theorem over_iff {f : Formula} : f.Over ops letters ↔ ∀ g ∈ f.subformulas,
    (∀ op, g.operator? = some op → op ∈ ops) ∧ ∀ c, g = atom c → c ∈ letters := by
  simp only [Over, mem_operators, mem_atoms]
  constructor
  · rintro ⟨hop, hat⟩ g hg
    exact ⟨fun op h => hop op ⟨g, hg, h⟩, fun c h => hat c (h ▸ hg)⟩
  · intro h
    refine ⟨?_, fun c hc => (h _ hc).2 c rfl⟩
    rintro op ⟨g, hg, hop⟩
    exact (h g hg).1 op hop

theorem over_unary {op : UnaryOp} :
    (unary op a).Over ops letters ↔ .unary op ∈ ops ∧ a.Over ops letters := by
  simp [over_iff, operator?]

theorem over_binary {op : BinaryOp} : (binary op a b).Over ops letters ↔
    .binary op ∈ ops ∧ a.Over ops letters ∧ b.Over ops letters := by
  simp [over_iff, operator?, or_imp, forall_and]
  tauto

theorem over_top : top.Over ops letters ↔ Operator.top ∈ ops := by
  simp [over_iff, operator?]

theorem over_bot : bot.Over ops letters ↔ Operator.bot ∈ ops := by
  simp [over_iff, operator?]

theorem over_atom {c : Atom} : (atom c).Over ops letters ↔ c ∈ letters := by
  simp [over_iff, operator?]

end Over

end Formula

end Countermodels
