import Countermodels.Proofs.Formula.Definitions
import Countermodels.Proofs.Gives
import Countermodels.Theory

/-! Writing out derived operators. Among definitions that do not run in a circle and ask for no argument that their
operator does not have, every formula can be written out, and no derived operator is left that has arguments. Constants are
left as they are, also where they are derived. -/

namespace Countermodels

namespace Formula

variable {P Q : Operator → Prop} {a b : Formula}

/-- The property holds of every operator in the formula that has arguments. -/
def Applies (P : Operator → Prop) (f : Formula) : Prop := ∀ op ∈ f.operators, 0 < op.arity → P op

theorem applies_atom (c : Atom) : (atom c).Applies P := by simp [Applies, mem_operators, operator?]

theorem applies_top : top.Applies P := by simp [Applies, mem_operators, operator?, Operator.arity]

theorem applies_bot : bot.Applies P := by simp [Applies, mem_operators, operator?, Operator.arity]

theorem applies_unary {op : UnaryOp} : (unary op a).Applies P ↔ P (.unary op) ∧ a.Applies P := by
  simp [Applies, mem_operators, operator?, or_and_right, exists_or, or_imp, forall_and, Operator.arity]

theorem applies_binary {op : BinaryOp} :
    (binary op a b).Applies P ↔ P (.binary op) ∧ a.Applies P ∧ b.Applies P := by
  simp [Applies, mem_operators, operator?, or_and_right, exists_or, or_imp, forall_and, Operator.arity]

theorem Applies.imp {f : Formula} (hf : f.Applies P) (h : ∀ op, P op → Q op) : f.Applies Q :=
  fun op hop happlied => h op (hf op hop happlied)

end Formula

namespace Body

variable {P : Operator → Prop} {args : List Formula}

/-- The numbers of the arguments that a body asks for. -/
def holes : Body → List Nat
  | arg i => [i]
  | top | bot => []
  | unary _ a => a.holes
  | binary _ a b => a.holes ++ b.holes

/-- With an argument for every hole, a body can be filled, and has the operators of the body and of the arguments. -/
theorem fill_gives (body : Body) (hholes : ∀ i ∈ body.holes, i < args.length)
    (hbody : ∀ op ∈ body.operators, 0 < op.arity → P op) (hargs : ∀ a ∈ args, a.Applies P) :
    Gives (body.fill args) (·.Applies P) := by
  induction body with
  | arg i =>
    have hi : i < args.length := hholes i List.mem_cons_self
    rw [fill, List.getElem?_eq_getElem hi]
    exact .ok (hargs _ (List.getElem_mem hi))
  | top => exact .ok Formula.applies_top
  | bot => exact .ok Formula.applies_bot
  | unary op a ih =>
    rw [operators, List.forall_mem_cons] at hbody
    refine (ih hholes hbody.2).bind fun a' ha' => .pure ?_
    exact Formula.applies_unary.2 ⟨hbody.1 Nat.one_pos, ha'⟩
  | binary op a b iha ihb =>
    rw [operators, List.forall_mem_cons, List.forall_mem_append] at hbody
    rw [holes, List.forall_mem_append] at hholes
    refine (iha hholes.1 hbody.2.1).bind fun a' ha' => (ihb hholes.2 hbody.2.2).bind fun b' hb' => .pure ?_
    exact Formula.applies_binary.2 ⟨hbody.1 Nat.two_pos, ha', hb'⟩

end Body

namespace Definitions

variable {d : Definitions} {f : Formula}

/-- No derived operator is applied in the formula. -/
def Plain (d : Definitions) (f : Formula) : Prop := f.Applies (d.body? · = none)

/-- Every definition asks only for arguments that its operator has. -/
def Fitted (d : Definitions) : Prop := ∀ op, ∀ body ∈ d.body? op, ∀ i ∈ body.holes, i < op.arity

instance (d : Definitions) : Decidable d.Fitted :=
  decidable_of_iff (∀ op ∈ Operator.all, ∀ body ∈ d.body? op, ∀ i ∈ body.holes, i < op.arity)
    ⟨fun h op => h op op.mem_all, fun h op _ => h op⟩

theorem Fitted.attempt (hd : d.Fitted) {call : Operator × Body} (hcall : ∀ i ∈ call.2.holes, i < call.1.arity) :
    (d.attempt call).Fitted := by
  unfold Definitions.attempt
  rcases d.define_cases call.1 call.2 with ⟨-, hrun⟩ | ⟨-, d', hrun, h⟩
  · rwa [hrun]
  · rw [hrun]
    intro op body hbody
    rw [h op] at hbody
    split at hbody
    · next heq => exact heq ▸ Option.mem_some_iff.1 hbody ▸ hcall
    · exact hd op body hbody

theorem Fitted.after (hd : d.Fitted) {calls : List (Operator × Body)}
    (hcalls : ∀ call ∈ calls, ∀ i ∈ call.2.holes, i < call.1.arity) : (d.after calls).Fitted := by
  induction calls generalizing d with
  | nil => exact hd
  | cons call calls ih =>
    rw [List.forall_mem_cons] at hcalls
    exact ih (hd.attempt hcalls.1) hcalls.2

/-- How a formula is written out from the inside. A derived operator is replaced by its body, which is filled with the
arguments as they have been written out, and is written out in turn. -/
inductive Expands (d : Definitions) : Formula → Formula → Prop
  | atom (a : Atom) : d.Expands (.atom a) (.atom a)
  | top : d.Expands .top .top
  | bot : d.Expands .bot .bot
  | unary {op : UnaryOp} {a a' : Formula} (ha : d.Expands a a') (hop : d.body? (.unary op) = none) :
      d.Expands (.unary op a) (.unary op a')
  | unaryDerived {op : UnaryOp} {a a' g g' : Formula} {body : Body} (ha : d.Expands a a')
      (hop : d.body? (.unary op) = some body) (hfill : body.fill [a'] = .ok g) (hg : d.Expands g g') :
      d.Expands (.unary op a) g'
  | binary {op : BinaryOp} {a a' b b' : Formula} (ha : d.Expands a a') (hb : d.Expands b b')
      (hop : d.body? (.binary op) = none) : d.Expands (.binary op a b) (.binary op a' b')
  | binaryDerived {op : BinaryOp} {a a' b b' g g' : Formula} {body : Body} (ha : d.Expands a a') (hb : d.Expands b b')
      (hop : d.body? (.binary op) = some body) (hfill : body.fill [a', b'] = .ok g) (hg : d.Expands g g') :
      d.Expands (.binary op a b) g'

/-- A formula is written out if its derived operators have bodies that are, once they are filled. -/
theorem expandWith_gives {P : Operator → Prop} {writeOut : Formula → Except Fault Formula} (hf : f.Applies P)
    (hwrite : ∀ op body args, P op → d.body? op = some body → args.length = op.arity → (∀ a ∈ args, d.Plain a) →
      Gives (body.fill args >>= writeOut) fun g' => (∃ g, body.fill args = .ok g ∧ d.Expands g g') ∧ d.Plain g') :
    Gives (d.expandWith writeOut f) fun g => d.Expands f g ∧ d.Plain g := by
  induction f with
  | atom a => exact .ok ⟨.atom a, Formula.applies_atom a⟩
  | top => exact .ok ⟨.top, Formula.applies_top⟩
  | bot => exact .ok ⟨.bot, Formula.applies_bot⟩
  | unary op a ih =>
    obtain ⟨hop, ha⟩ := Formula.applies_unary.1 hf
    rw [expandWith]
    refine (ih ha).bind fun a' ha' => ?_
    cases hbody : d.body? (.unary op) with
    | none => exact .pure ⟨.unary ha'.1 hbody, Formula.applies_unary.2 ⟨hbody, ha'.2⟩⟩
    | some body =>
      refine (hwrite _ body [a'] hop hbody rfl (by simpa using ha'.2)).imp ?_
      rintro g' ⟨⟨g, hfill, hg⟩, hplain⟩
      exact ⟨.unaryDerived ha'.1 hbody hfill hg, hplain⟩
  | binary op a b iha ihb =>
    obtain ⟨hop, ha, hb⟩ := Formula.applies_binary.1 hf
    rw [expandWith]
    refine (iha ha).bind fun a' ha' => (ihb hb).bind fun b' hb' => ?_
    cases hbody : d.body? (.binary op) with
    | none => exact .pure ⟨.binary ha'.1 hb'.1 hbody, Formula.applies_binary.2 ⟨hbody, ha'.2, hb'.2⟩⟩
    | some body =>
      refine (hwrite _ body [a', b'] hop hbody rfl (by simpa using ⟨ha'.2, hb'.2⟩)).imp ?_
      rintro g' ⟨⟨g, hfill, hg⟩, hplain⟩
      exact ⟨.binaryDerived ha'.1 hb'.1 hbody hfill hg, hplain⟩

theorem expandWithin_gives (hd : d.Fitted) (depth : Nat) (hf : f.Applies (d.Within depth)) :
    Gives (d.expandWithin depth f) fun g => d.Expands f g ∧ d.Plain g := by
  induction depth generalizing f with
  | zero =>
    refine expandWith_gives hf fun op body args hop hbody => ?_
    rw [show d.body? op = none from hop] at hbody
    cases hbody
  | succ depth ih =>
    refine expandWith_gives hf fun op body args hop hbody hargs hplain => ?_
    have hholes : ∀ i ∈ body.holes, i < args.length := hargs ▸ hd op body hbody
    have hargs' : ∀ a ∈ args, a.Applies (d.Within depth) :=
      fun a ha => (hplain a ha).imp fun _ h => within_of_none h depth
    obtain ⟨g, hfill, hg⟩ := body.fill_gives hholes (hop body hbody) hargs'
    rw [hfill]
    exact (ih hg).imp fun g' hg' => ⟨⟨g, rfl, hg'.1⟩, hg'.2⟩

/-- Every formula can be written out. -/
theorem Acyclic.expand_gives (hacyclic : d.Acyclic) (hd : d.Fitted) (f : Formula) :
    Gives (d.expand f) fun g => d.Expands f g ∧ d.Plain g :=
  expandWithin_gives hd _ fun op _ _ => hacyclic.within op

/-- What has no derived operator with arguments is left as it is. -/
theorem expandWith_of_plain (hf : d.Plain f) (writeOut : Formula → Except Fault Formula) :
    d.expandWith writeOut f = .ok f := by
  induction f with
  | atom a => rfl
  | top => rfl
  | bot => rfl
  | unary op a ih =>
    obtain ⟨hop, ha⟩ := Formula.applies_unary.1 hf
    rw [expandWith, ih ha, ok_bind, hop]
    rfl
  | binary op a b iha ihb =>
    obtain ⟨hop, ha, hb⟩ := Formula.applies_binary.1 hf
    rw [expandWith, iha ha, ok_bind, ihb hb, ok_bind, hop]
    rfl

theorem expandWithin_of_plain (hf : d.Plain f) (depth : Nat) : d.expandWithin depth f = .ok f := by
  cases depth <;> exact expandWith_of_plain hf _

/-! The two starting points of a registry. -/

section registered

variable {start : Definitions} (hstart : start = {} ∨ start = standard)
include hstart

theorem acyclic_after (calls : List (Operator × Body)) : (start.after calls).Acyclic := by
  rcases hstart with rfl | rfl
  · exact acyclic_empty.after calls
  · exact acyclic_standard.after calls

theorem fitted_start : start.Fitted := by
  rcases hstart with rfl | rfl <;> decide

/-- Whatever calls have been made, the next one is refused exactly if its body leads back to its operator, and then nothing
changes. The definitions never run in a circle; so if they ask only for arguments that there are, every formula can be
written out. -/
theorem definitions_stay_acyclic (calls : List (Operator × Body)) (op : Operator) (body : Body) :
    let d := start.after calls
    (d.define op body = .error ⟨op⟩ ↔ d.LeadsBack op body) ∧
      (∀ e, d.define op body = .error e → e = ⟨op⟩ ∧ start.after (calls ++ [(op, body)]) = d) ∧
      (∀ d', d.define op body = .ok d' → start.after (calls ++ [(op, body)]) = d' ∧ d.Redefined op body d') ∧
      d.Acyclic ∧ (d.Fitted → ∀ f, ∃ g, d.expand f = .ok g ∧ d.Expands f g) := by
  intro d
  have hnext : start.after (calls ++ [(op, body)]) = d.attempt (op, body) := by simp [after, d]
  have hexpand : d.Fitted → ∀ f, ∃ g, d.expand f = .ok g ∧ d.Expands f g := fun hd f =>
    (((acyclic_after hstart calls).expand_gives hd f).imp fun _ h => h.1 : Gives _ (d.Expands f))
  rw [hnext, attempt]
  rcases d.define_cases op body with ⟨hback, hrun⟩ | ⟨hback, d', hrun, h⟩
  · rw [hrun]
    exact ⟨iff_of_true rfl hback, by simp, by simp, acyclic_after hstart calls, hexpand⟩
  · rw [hrun]
    exact ⟨iff_of_false (by simp) hback, by simp, by simpa using h, acyclic_after hstart calls, hexpand⟩

/-- Of the derived operators, only constants are left when a formula has been written out; and they are left wherever
they stand, so that all derived operators are removed just if no constant is derived. -/
theorem only_derived_constants_stay {calls : List (Operator × Body)}
    (hcalls : ∀ call ∈ calls, ∀ i ∈ call.2.holes, i < call.1.arity) :
    let d := start.after calls
    (∀ f, ∃ g, d.expand f = .ok g ∧ ∀ op ∈ g.operators, d.isDefined op = true → op = .top ∨ op = .bot) ∧
      ((∀ f g, d.expand f = .ok g → ∀ op ∈ g.operators, d.isDefined op = false) ↔
        d.isDefined .top = false ∧ d.isDefined .bot = false) := by
  intro d
  have hd : d.Fitted := (fitted_start hstart).after hcalls
  have hplain : ∀ f, Gives (d.expand f) d.Plain := fun f =>
    ((acyclic_after hstart calls).expand_gives hd f).imp fun _ h => h.2
  have hconstant : ∀ {g}, d.Plain g → ∀ op ∈ g.operators, d.isDefined op = true → op = .top ∨ op = .bot := by
    intro g hg op hop hderived
    have hnone : 0 < op.arity → d.body? op = none := hg op hop
    cases op with
    | top => exact .inl rfl
    | bot => exact .inr rfl
    | unary op => simp [isDefined, hnone Nat.one_pos] at hderived
    | binary op => simp [isDefined, hnone Nat.two_pos] at hderived
  refine ⟨fun f => (hplain f).imp fun g hg => hconstant hg, fun h => ⟨?_, ?_⟩, fun h f g hg op hop => ?_⟩
  · exact h .top .top (expandWithin_of_plain Formula.applies_top _) .top (by decide +kernel)
  · exact h .bot .bot (expandWithin_of_plain Formula.applies_bot _) .bot (by decide +kernel)
  · rw [← Bool.not_eq_true]
    intro hderived
    rcases hconstant ((hplain f).apply hg) op hop hderived with rfl | rfl
    · rw [h.1] at hderived
      cases hderived
    · rw [h.2] at hderived
      cases hderived

end registered

/-- Possibility is defined by necessity, and then necessity cannot be defined by possibility; possible conditionals are
written out through two definitions. -/
theorem definitions_stay_acyclic_diamond :
    let may := Body.unary .neg (.unary .box (.unary .neg (.arg 0)))
    let must := Body.unary .neg (.unary .diamond (.unary .neg (.arg 0)))
    let d := standard.after [(.unary .diamond, may)]
    d.LeadsBack (.unary .box) must ∧ d.define (.unary .box) must = .error ⟨.unary .box⟩ ∧ d.Acyclic ∧ d.Fitted ∧
      ∃ g, d.expand (.unary .diamond (.binary .implies .top .bot)) = .ok g ∧
        d.Expands (.unary .diamond (.binary .implies .top .bot)) g := by
  intro may must d
  have hbody : d.body? (.unary .diamond) = some may := by unfold d; cbv
  have hback : d.LeadsBack (.unary .box) must :=
    .inr ⟨.unary .diamond, by decide, .single (mentions_iff.2 ⟨may, hbody, by decide⟩)⟩
  have hd : d.Fitted := (fitted_start (.inr rfl)).after (by decide)
  obtain ⟨hrefused, -, -, hacyclic, hexpand⟩ :=
    definitions_stay_acyclic (.inr rfl) [(.unary .diamond, may)] (.unary .box) must
  exact ⟨hback, hrefused.2 hback, hacyclic, hd, hexpand hd _⟩

/-- Truth is defined as the negation of falsity, and is left where it stands. -/
theorem derived_top_stays :
    let d := ({} : Definitions).after [(.top, .unary .neg .bot)]
    d.isDefined .top = true ∧ d.expand .top = .ok .top ∧ Operator.top ∈ Formula.top.operators := by
  intro d
  exact ⟨by unfold d; cbv, by unfold d; cbv, by decide +kernel⟩

/-- With the standard definitions and possibility defined by necessity, no derived operator is left. -/
theorem only_derived_constants_stay_diamond :
    let d := standard.after [(.unary .diamond, .unary .neg (.unary .box (.unary .neg (.arg 0))))]
    (∀ i ∈ (Body.unary .neg (.unary .box (.unary .neg (.arg 0)))).holes, i < (Operator.unary .diamond).arity) ∧
      d.isDefined .top = false ∧ d.isDefined .bot = false ∧
      ∀ f g, d.expand f = .ok g → ∀ op ∈ g.operators, d.isDefined op = false := by
  intro d
  have hcall : ∀ i ∈ (Body.unary .neg (.unary .box (.unary .neg (.arg 0)))).holes, i < (Operator.unary .diamond).arity := by
    decide
  have htop : d.isDefined .top = false := by unfold d; cbv
  have hbot : d.isDefined .bot = false := by unfold d; cbv
  have hcalls : ∀ call ∈ [(Operator.unary .diamond, Body.unary .neg (.unary .box (.unary .neg (.arg 0))))],
      ∀ i ∈ call.2.holes, i < call.1.arity := List.forall_mem_singleton.2 hcall
  obtain ⟨-, hall⟩ := only_derived_constants_stay (.inr rfl) hcalls
  exact ⟨hcall, htop, hbot, hall.2 ⟨htop, hbot⟩⟩

/-- No primitive operator is an abbreviation. -/
theorem body?_primitive (theory : Theory) : ∀ op ∈ theory.primitives, standard.body? op = none := by
  cases theory <;> decide

theorem plain_of_over {theory : Theory} {letters : List Atom} (hf : f.Over theory.primitives letters) :
    standard.Plain f := fun op hop _ => body?_primitive theory op (hf.1 op hop)

/-- Counterfactual necessity is a counterfactual with a trivial antecedent. -/
theorem expand_cfBox {letters : List Atom} (hf : f.Over Theory.counterfactual.primitives letters) :
    standard.expand (.unary .cfBox f) = .ok (.binary .boxRight .top f) := by
  have hbody : (Formula.binary .boxRight .top f).Over Theory.counterfactual.primitives letters :=
    Formula.over_binary.2 ⟨by decide, Formula.over_top.2 (by decide), hf⟩
  show standard.expandWith (standard.expandWithin 5) (.unary .cfBox f) = _
  rw [expandWith, expandWith_of_plain (plain_of_over hf), ok_bind]
  exact expandWithin_of_plain (plain_of_over hbody) 5

end Definitions

end Countermodels
