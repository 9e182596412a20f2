import Countermodels.Proofs.Formula.Expansion
import Countermodels.Proofs.Formula.Valuation

/-! What stands in a formula, and what is found by reading it. A formula stands in another if it is reached through
children, and reading finds just these, each as often as it stands there. The letters, the operators and the dependence on
the world are read off, so they are those that stand in the formula. The counterfactual modals are abbreviations, and are
found as counterfactuals when they have been written out. -/

namespace Countermodels

open Relation

/-- The conditionals that look at other worlds than the one at which they are evaluated. -/
def Operator.counterfactuals : List Operator := [.binary .boxRight, .binary .diamondRight]

/-- The abbreviations of counterfactuals. -/
def Operator.counterfactualModals : List Operator := [.unary .cfBox, .unary .cfDiamond]

namespace Formula

variable {f g : Formula} {op : Operator}

/-- The first formula stands somewhere in the second. -/
def Occurs (g f : Formula) : Prop := ReflTransGen (fun c f => c ∈ f.children) g f

/-- The operator stands somewhere in the formula. -/
def Uses (f : Formula) (op : Operator) : Prop := ∃ g : Formula, g.Occurs f ∧ g.operator? = some op

theorem occurs_iff : g.Occurs f ↔ g = f ∨ ∃ c ∈ f.children, g.Occurs c := by
  rw [Occurs, ReflTransGen.cases_tail_iff, eq_comm]
  exact or_congr_right (exists_congr fun c => and_comm)

theorem mem_subformulas : g ∈ f.subformulas ↔ g.Occurs f := by
  induction f with
  | atom a => rw [occurs_iff]; simp [children]
  | top => rw [occurs_iff]; simp [children]
  | bot => rw [occurs_iff]; simp [children]
  | unary op a ih => rw [occurs_iff]; simp [children, ih]
  | binary op a b iha ihb => rw [occurs_iff]; simp [children, iha, ihb]

theorem mem_operators_iff_uses : op ∈ f.operators ↔ f.Uses op := by
  simp only [mem_operators, mem_subformulas, Uses]

/-- Number of nodes with a property. -/
def count (p : Formula → Bool) : Formula → Nat
  | unary op a => a.count p + if p (unary op a) then 1 else 0
  | binary op a b => a.count p + b.count p + if p (binary op a b) then 1 else 0
  | f => if p f then 1 else 0

theorem countP_subformulas (p : Formula → Bool) (f : Formula) : f.subformulas.countP p = f.count p := by
  induction f with
  | atom a => simp [count, List.countP_singleton]
  | top => simp [count, List.countP_singleton]
  | bot => simp [count, List.countP_singleton]
  | unary op a ih => rw [subformulas_unary, List.countP_cons, ih, count]
  | binary op a b iha ihb => rw [subformulas_binary, List.countP_cons, List.countP_append, iha, ihb, count]

theorem complexity_eq (f : Formula) : f.complexity = f.count (·.atom?.isNone) := by
  rw [← countP_subformulas, complexity, List.countP_eq_length_filter]
  congr 2
  funext g
  cases g <;> rfl

theorem isWorldDependent_iff : f.isWorldDependent = true ↔ ∃ op ∈ Operator.counterfactuals, f.Uses op := by
  rw [isWorldDependent, List.any_eq_true]
  constructor
  · rintro ⟨g, hg, hfound⟩
    rw [mem_subformulas] at hg
    split at hfound
    · exact ⟨_, .head _, _, hg, rfl⟩
    · exact ⟨_, .tail _ (.head _), _, hg, rfl⟩
    · cases hfound
  · rintro ⟨op, hop, g, hg, hgop⟩
    refine ⟨g, mem_subformulas.2 hg, ?_⟩
    rcases List.mem_pair.1 hop with rfl | rfl <;> cases g <;> cases hgop <;> rfl

/-- Among operators that have arguments, those that the formula does not use are those that are not applied in it. -/
theorem applies_notMem_iff {ops : List Operator} (hops : ∀ op ∈ ops, 0 < op.arity) :
    f.Applies (· ∉ ops) ↔ ¬ ∃ op ∈ ops, f.Uses op := by
  simp only [Applies, mem_operators_iff_uses]
  constructor
  · rintro h ⟨op, hop, huses⟩
    exact h op huses (hops op hop) hop
  · exact fun h op huses _ hop => h ⟨op, hop, huses⟩

end Formula

theorem Body.applies_fill_iff {P : Operator → Prop} {args : List Formula} {body : Body} {g : Formula}
    (h : body.fill args = .ok g) :
    g.Applies P ↔ (∀ op ∈ body.operators, 0 < op.arity → P op) ∧ ∀ i ∈ body.holes, ∀ a ∈ args[i]?, a.Applies P := by
  induction body generalizing g with
  | arg i =>
    rw [fill] at h
    split at h
    · next f hf =>
      obtain rfl := Except.ok.inj h
      simp [operators, holes, hf]
    · cases h
  | top =>
    obtain rfl := Except.ok.inj h
    simp [operators, holes, Formula.applies_top, Operator.arity]
  | bot =>
    obtain rfl := Except.ok.inj h
    simp [operators, holes, Formula.applies_bot, Operator.arity]
  | unary op a ih =>
    obtain ⟨a', ha, h⟩ := bind_eq_ok.1 h
    obtain rfl := Except.ok.inj h
    rw [Formula.applies_unary, ih ha, operators, holes, List.forall_mem_cons, and_assoc]
    simp [Operator.arity]
  | binary op a b iha ihb =>
    obtain ⟨a', ha, h⟩ := bind_eq_ok.1 h
    obtain ⟨b', hb, h⟩ := bind_eq_ok.1 h
    obtain rfl := Except.ok.inj h
    rw [Formula.applies_binary, iha ha, ihb hb, operators, holes, List.forall_mem_cons, List.forall_mem_append,
      List.forall_mem_append]
    simp only [Operator.arity, Nat.two_pos, true_imp_iff]
    tauto

namespace Definitions

variable {d : Definitions} {P : Operator → Prop} {f g : Formula}

/-- The property can be told before and after writing out: a derived operator has it just if the operators of its body
have it, and no body leaves out an argument. -/
def Keeps (d : Definitions) (P : Operator → Prop) : Prop := ∀ op, ∀ body ∈ d.body? op,
  (P op ↔ ∀ other ∈ body.operators, 0 < other.arity → P other) ∧ ∀ i < op.arity, i ∈ body.holes

/-- A body that is filled has the property just if its operator and all arguments have it. -/
theorem Keeps.applies_fill_iff (hd : d.Keeps P) {op : Operator} {body : Body} {args : List Formula}
    (hbody : d.body? op = some body) (hargs : args.length = op.arity) (hfill : body.fill args = .ok g) :
    g.Applies P ↔ P op ∧ ∀ a ∈ args, a.Applies P := by
  obtain ⟨hop, hholes⟩ := hd op body hbody
  rw [Body.applies_fill_iff hfill, ← hop]
  refine and_congr_right fun _ => ⟨fun h a ha => ?_, fun h i _ a ha => h a (List.mem_of_getElem? ha)⟩
  obtain ⟨i, hi, rfl⟩ := List.getElem_of_mem ha
  exact h i (hholes i (hargs ▸ hi)) _ (List.getElem?_eq_getElem hi)

theorem Expands.applies_iff (hd : d.Keeps P) (h : d.Expands f g) : g.Applies P ↔ f.Applies P := by
  induction h with
  | atom a => rfl
  | top => rfl
  | bot => rfl
  | unary _ _ iha => rw [Formula.applies_unary, Formula.applies_unary, iha]
  | unaryDerived _ hop hfill _ iha ihg =>
    rw [ihg, hd.applies_fill_iff hop rfl hfill, Formula.applies_unary, List.forall_mem_singleton, iha]
  | binary _ _ _ iha ihb => rw [Formula.applies_binary, Formula.applies_binary, iha, ihb]
  | binaryDerived _ _ hop hfill _ iha ihb ihg =>
    rw [ihg, hd.applies_fill_iff hop rfl hfill, Formula.applies_binary, List.forall_mem_cons,
      List.forall_mem_singleton, iha, ihb]

theorem standard_keeps : standard.Keeps (· ∉ Operator.counterfactuals ++ Operator.counterfactualModals) := by
  have h : ∀ op ∈ Operator.all, ∀ body ∈ standard.body? op,
      (op ∉ Operator.counterfactuals ++ Operator.counterfactualModals ↔ ∀ other ∈ body.operators, 0 < other.arity →
        other ∉ Operator.counterfactuals ++ Operator.counterfactualModals) ∧ ∀ i < op.arity, i ∈ body.holes := by
    decide
  exact fun op => h op op.mem_all

/-- A formula that has been written out depends on the world just if a counterfactual, or an abbreviation of one, stood in
the formula. -/
theorem isWorldDependent_expand (f : Formula) : ∃ g, standard.expand f = .ok g ∧
    (g.isWorldDependent = true ↔ ∃ op ∈ Operator.counterfactuals ++ Operator.counterfactualModals, f.Uses op) := by
  obtain ⟨g, hexpand, hg, hplain⟩ := acyclic_standard.expand_gives (fitted_start (.inr rfl)) f
  refine ⟨g, hexpand, ?_⟩
  have hmodal : ∀ op ∈ Operator.counterfactualModals, ¬ g.Uses op := by
    intro op hop huses
    have hderived : ∀ op ∈ Operator.counterfactualModals, 0 < op.arity ∧ standard.body? op ≠ none := by decide
    exact (hderived op hop).2 (hplain op (Formula.mem_operators_iff_uses.2 huses) (hderived op hop).1)
  have harity : ∀ op ∈ Operator.counterfactuals ++ Operator.counterfactualModals, 0 < op.arity := by decide
  have hsame := hg.applies_iff standard_keeps
  rw [Formula.applies_notMem_iff harity, Formula.applies_notMem_iff harity, not_iff_not] at hsame
  rw [Formula.isWorldDependent_iff, ← hsame]
  constructor
  · rintro ⟨op, hop, huses⟩
    exact ⟨op, List.mem_append_left _ hop, huses⟩
  · rintro ⟨op, hop, huses⟩
    exact ⟨op, (List.mem_append.1 hop).resolve_right fun h => hmodal op h huses, huses⟩

end Definitions

namespace Formula

/-- The walk through a formula makes one step for each of its nodes and ends with the formula followed by the lists of its
children. So it meets just what stands in the formula: it counts the nodes and those that are no letters, lists the letters
and the operators, each once and in order, and tells whether a counterfactual stands anywhere in the formula. A
counterfactual that is abbreviated is met when the formula has been written out. -/
theorem walk_meets_what_occurs (f : Formula) :
    ((Walk.mk [f] 0).steps? f.size = some ⟨f.subformulas, f.size⟩ ∧ Walk.step? ⟨f.subformulas, f.size⟩ = none) ∧
    (f.subformulas = f.preorder ∧ f.preorder = f :: f.children.flatMap preorder ∧ ∀ g, g ∈ f.subformulas ↔ g.Occurs f) ∧
    f.subformulas.length = f.size ∧ f.complexity = f.count (·.atom?.isNone) ∧
    (Atom.Alphabetical f.atoms ∧ ∀ a, a ∈ f.atoms ↔ (atom a).Occurs f) ∧
    (f.operators.Sublist Operator.all ∧ ∀ op, op ∈ f.operators ↔ f.Uses op) ∧
    (f.isWorldDependent = true ↔ ∃ op ∈ Operator.counterfactuals, f.Uses op) ∧
    ∃ g, Definitions.standard.expand f = .ok g ∧
      (g.isWorldDependent = true ↔ ∃ op ∈ Operator.counterfactuals ++ Operator.counterfactualModals, f.Uses op) := by
  have hend : Walk.between f.preorder [] = ⟨f.subformulas, f.size⟩ := by
    rw [Walk.between, List.append_nil, length_preorder, subformulas_eq_preorder]
  refine ⟨⟨?_, ?_⟩, ⟨subformulas_eq_preorder f, preorder_eq f, fun g => mem_subformulas⟩, ?_, complexity_eq f,
    ⟨Atom.alphabetical_sorted _, fun a => mem_atoms.trans mem_subformulas⟩,
    ⟨List.filter_sublist, fun op => mem_operators_iff_uses⟩, isWorldDependent_iff, Definitions.isWorldDependent_expand f⟩
  · rw [steps?_formula, hend]
  · rw [← hend, Walk.step?_between_nil]
  · rw [subformulas_eq_preorder, length_preorder]

end Formula

end Countermodels
