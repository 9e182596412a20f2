import Countermodels.Proofs.Formula.Expansion

/-! Writing out a formula in parts. A formula has one expansion, whichever of its subformulas are written out before the
whole: the arguments of a derived operator are written out before they enter its body, so it makes no difference if they
were written out already. -/

namespace Countermodels.Definitions

open Relation

variable {d : Definitions} {f f' g g' : Formula}

/-- Some subformulas are replaced by their expansions, each at the place where it stands. -/
inductive Replaces (d : Definitions) : Formula → Formula → Prop
  | kept (f : Formula) : d.Replaces f f
  | expanded {f g : Formula} (h : d.expand f = .ok g) : d.Replaces f g
  | unary {op : UnaryOp} {a a' : Formula} (ha : d.Replaces a a') : d.Replaces (.unary op a) (.unary op a')
  | binary {op : BinaryOp} {a a' b b' : Formula} (ha : d.Replaces a a') (hb : d.Replaces b b') :
      d.Replaces (.binary op a b) (.binary op a' b')

/-- A formula can be written out in one way only. -/
theorem Expands.unique (h : d.Expands f g) (h' : d.Expands f g') : g = g' := by
  induction h generalizing g' with
  | atom a =>
    cases h'
    rfl
  | top =>
    cases h'
    rfl
  | bot =>
    cases h'
    rfl
  | unary _ hop iha =>
    cases h' with
    | unary ha' _ => rw [iha ha']
    | unaryDerived _ hop' => simp [hop] at hop'
  | unaryDerived _ hop hfill _ iha ihg =>
    cases h' with
    | unary _ hop' => simp [hop] at hop'
    | unaryDerived ha' hop' hfill' hg' =>
      obtain rfl := iha ha'
      obtain rfl := Option.some.inj (hop.symm.trans hop')
      obtain rfl := Except.ok.inj (hfill.symm.trans hfill')
      exact ihg hg'
  | binary _ _ hop iha ihb =>
    cases h' with
    | binary ha' hb' _ => rw [iha ha', ihb hb']
    | binaryDerived _ _ hop' => simp [hop] at hop'
  | binaryDerived _ _ hop hfill _ iha ihb ihg =>
    cases h' with
    | binary _ _ hop' => simp [hop] at hop'
    | binaryDerived ha' hb' hop' hfill' hg' =>
      obtain rfl := iha ha'
      obtain rfl := ihb hb'
      obtain rfl := Option.some.inj (hop.symm.trans hop')
      obtain rfl := Except.ok.inj (hfill.symm.trans hfill')
      exact ihg hg'

/-- What has no derived operator with arguments is its own expansion. -/
theorem Plain.expands_self (hf : d.Plain f) : d.Expands f f := by
  induction f with
  | atom a => exact .atom a
  | top => exact .top
  | bot => exact .bot
  | unary op a ih =>
    obtain ⟨hop, ha⟩ := Formula.applies_unary.1 hf
    exact .unary (ih ha) hop
  | binary op a b iha ihb =>
    obtain ⟨hop, ha, hb⟩ := Formula.applies_binary.1 hf
    exact .binary (iha ha) (ihb hb) hop

section total

variable (hacyclic : d.Acyclic) (hd : d.Fitted)
include hacyclic hd

theorem Acyclic.expand_eq_ok_iff : d.expand f = .ok g ↔ d.Expands f g := by
  obtain ⟨g', hexpand, hg', -⟩ := hacyclic.expand_gives hd f
  rw [hexpand, Except.ok.injEq]
  constructor
  · rintro rfl
    exact hg'
  · exact fun hg => hg'.unique hg

/-- Replacing subformulas by their expansions leaves the expansion of the whole as it is. -/
theorem Replaces.expands (hreplaces : d.Replaces f f') (hf : d.Expands f g) : d.Expands f' g := by
  -- along the replacement; the expansion is taken apart where both go into the arguments
  induction hreplaces generalizing g with
  | kept f => exact hf
  | @expanded f g' h =>
    obtain ⟨hg', hplain⟩ := (hacyclic.expand_gives hd f).apply h
    obtain rfl := hg'.unique hf
    exact hplain.expands_self
  | unary _ ih =>
    cases hf with
    | unary ha hop => exact .unary (ih ha) hop
    | unaryDerived ha hop hfill hg => exact .unaryDerived (ih ha) hop hfill hg
  | binary _ _ iha ihb =>
    cases hf with
    | binary ha hb hop => exact .binary (iha ha) (ihb hb) hop
    | binaryDerived ha hb hop hfill hg => exact .binaryDerived (iha ha) (ihb hb) hop hfill hg

theorem expands_of_replacements (h : ReflTransGen d.Replaces f f') (hf : d.Expands f g) : d.Expands f' g := by
  induction h with
  | refl => exact hf
  | tail _ hreplaces ih => exact hreplaces.expands hacyclic hd ih

end total

/-- Whatever calls have been made, a formula has one expansion. It is written out in full already, so that writing it out
again changes nothing, and it is reached whichever subformulas are replaced by their expansions before, and however often
this is done. -/
theorem expansion_idempotent_and_confluent {start : Definitions} (hstart : start = {} ∨ start = standard)
    {calls : List (Operator × Body)} (hcalls : ∀ call ∈ calls, ∀ i ∈ call.2.holes, i < call.1.arity) (f : Formula) :
    let d := start.after calls
    ∃ g, d.expand f = .ok g ∧ d.Expands f g ∧ d.expand g = .ok g ∧
      ∀ f', ReflTransGen d.Replaces f f' → d.expand f' = .ok g := by
  intro d
  have hacyclic : d.Acyclic := acyclic_after hstart calls
  have hd : d.Fitted := (fitted_start hstart).after hcalls
  obtain ⟨g, hexpand, hg, hplain⟩ := hacyclic.expand_gives hd f
  refine ⟨g, hexpand, hg, expandWithin_of_plain hplain _, fun f' hf' => ?_⟩
  exact (hacyclic.expand_eq_ok_iff hd).2 (expands_of_replacements hacyclic hd hf' hg)

/-- Possibility is defined by necessity, and a conditional that is possible is written out from the inside. -/
theorem expansion_idempotent_and_confluent_diamond :
    let may := Body.unary .neg (.unary .box (.unary .neg (.arg 0)))
    let d := standard.after [(.unary .diamond, may)]
    let inside := Formula.binary .or (.unary .neg .top) .bot
    let whole := Formula.unary .neg (.unary .box (.unary .neg inside))
    (∀ i ∈ may.holes, i < (Operator.unary .diamond).arity) ∧
      d.Replaces (.unary .diamond (.binary .implies .top .bot)) (.unary .diamond inside) ∧
      d.expand (.unary .diamond (.binary .implies .top .bot)) = .ok whole ∧ d.expand (.unary .diamond inside) = .ok whole ∧
      d.expand whole = .ok whole := by
  intro may d inside whole
  have hmay : ∀ i ∈ may.holes, i < (Operator.unary .diamond).arity := by decide
  have hreplaces : d.Replaces (.unary .diamond (.binary .implies .top .bot)) (.unary .diamond inside) :=
    .unary (.expanded (by unfold d may inside; cbv))
  have hwhole : d.expand (.unary .diamond (.binary .implies .top .bot)) = .ok whole := by
    unfold d may whole inside
    cbv
  obtain ⟨g, hexpand, -, hagain, hparts⟩ := expansion_idempotent_and_confluent (.inr rfl)
    (show ∀ call ∈ [(Operator.unary .diamond, may)], ∀ i ∈ call.2.holes, i < call.1.arity from
      List.forall_mem_singleton.2 hmay) (.unary .diamond (.binary .implies .top .bot))
  obtain rfl := Except.ok.inj (hwhole.symm.trans hexpand)
  exact ⟨hmay, hreplaces, hwhole, hparts _ (.single hreplaces), hagain⟩

end Countermodels.Definitions
