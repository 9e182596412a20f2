import Countermodels.Proofs.Check.Support
import Countermodels.Proofs.Truthmaker.Ground

/-! Ground as an order. Verifiers and falsifiers are tested in different ways, so that neither transitivity nor antisymmetry
can be read off the test. Both come from disjunction: on contents that are closed under fusion it is commutative,
associative and idempotent, and a content grounds another just if it disappears in their disjunction. Such an operation is
the join of an order. Essence is the order that this makes of the negations. -/

namespace Countermodels.Truthmaker

open Meaning (Fused Joined)

variable {m : Model} {U V W : State → Prop} {f g k : Formula} {s w : State}

theorem fused_assoc : Fused (Fused U V) W s ↔ Fused U (Fused V W) s := by
  constructor
  · rintro ⟨_, ⟨x, hx, y, hy, rfl⟩, z, hz, rfl⟩
    exact ⟨x, hx, y.fusion z, ⟨y, hy, z, hz, rfl⟩, (State.fusion_assoc ..).symm⟩
  · rintro ⟨x, hx, _, ⟨y, hy, z, hz, rfl⟩, rfl⟩
    exact ⟨x.fusion y, ⟨x, hx, y, hy, rfl⟩, z, hz, State.fusion_assoc ..⟩

theorem fused_joined : Fused (Joined U V) W s ↔ (Fused U W s ∨ Fused V W s) ∨ Fused (Fused U V) W s := by
  have hor : ∀ P Q : State → Prop, Fused (fun s => P s ∨ Q s) W s ↔ Fused P W s ∨ Fused Q W s := fun P Q => by
    simp only [Fused, or_and_right, exists_or]
  exact (hor _ _).trans (or_congr_left (hor _ _))

theorem joined_assoc : Joined (Joined U V) W s ↔ Joined U (Joined V W) s := by
  have hleft : Fused (Joined U V) W s ↔ (Fused U W s ∨ Fused V W s) ∨ Fused U (Fused V W) s := by
    rw [fused_joined, fused_assoc]
  have hright : Fused U (Joined V W) s ↔ (Fused U V s ∨ Fused U W s) ∨ Fused U (Fused V W) s := by
    rw [fused_comm, fused_joined, fused_comm (W := U), fused_comm (W := U), fused_comm (W := U)]
  -- both sides are the members, the fusions of two and the fusions of three
  unfold Meaning.Joined at hleft hright ⊢
  rw [hleft, hright, iff_eq_eq]
  ac_rfl

namespace Content

variable (c d e : Content)

theorem or_comm : c.or d = d.or c := by
  refine eq_iff.2 ⟨fun s => ?_, fun s => ?_⟩
  · rw [mem_ver_or, mem_ver_or, joined_comm]
  · rw [mem_fal_or, mem_fal_or, fused_comm]

theorem or_assoc : (c.or d).or e = c.or (d.or e) := by
  refine eq_iff.2 ⟨fun s => ?_, fun s => ?_⟩
  · simp only [mem_ver_or, joined_assoc]
  · simp only [mem_fal_or, fused_assoc]

/-- Closure under fusion is what a disjunction with itself needs. -/
theorem FusionClosed.or_self {c : Content} (hc : c.FusionClosed) : c.or c = c := by
  refine eq_iff.2 ⟨fun s => ?_, fun s => ?_⟩
  · rw [mem_ver_or]
    refine ⟨?_, fun hs => .inl (.inl hs)⟩
    rintro ((hs | hs) | ⟨x, hx, y, hy, rfl⟩)
    · exact hs
    · exact hs
    · exact hc.ver x hx y hy
  · rw [mem_fal_or]
    refine ⟨?_, fun hs => ⟨s, hs, s, hs, State.fusion_self s⟩⟩
    rintro ⟨x, hx, y, hy, rfl⟩
    exact hc.fal x hx y hy

end Content

/-- A content that is closed under fusion. -/
@[ext] structure ClosedContent where
  content : Content
  closed : content.FusionClosed

namespace ClosedContent

instance : Max ClosedContent := ⟨fun c d => ⟨c.content.or d.content, c.closed.or d.closed⟩⟩

instance : SemilatticeSup ClosedContent := SemilatticeSup.mk' (fun c d => ClosedContent.ext (c.content.or_comm d.content))
  (fun c d e => ClosedContent.ext (c.content.or_assoc d.content e.content)) (fun c => ClosedContent.ext c.closed.or_self)

theorem grounds_iff_le {c d : ClosedContent} : c.content.grounds d.content = true ↔ c ≤ d := by
  rw [Content.grounds_eq_or d.closed, decide_eq_true_eq, ← sup_eq_right, ClosedContent.ext_iff]
  rfl

end ClosedContent

/-- A comparison of two contents is true if both can be found and it holds between them. -/
theorem compare_eq_true {x y : Except Failure Content} {R : Content → Content → Bool} :
    (do return R (← x) (← y)) = Except.ok true ↔ ∃ c d, x = .ok c ∧ y = .ok d ∧ R c d = true := by
  simp only [bind_eq_ok, pure, Except.pure, Except.ok.injEq]
  constructor
  · rintro ⟨c, hc, d, hd, h⟩
    exact ⟨c, d, hc, hd, h⟩
  · rintro ⟨c, d, hc, hd, h⟩
    exact ⟨c, hc, d, hd, h⟩

namespace Model

theorem isTrue_identity_iff : m.isTrue (.binary .identity f g) w = .ok true ↔
    ∃ c, m.content f w = .ok c ∧ m.content g w = .ok c := by
  refine (compare_eq_true (R := fun c d => c = d)).trans ?_
  constructor
  · rintro ⟨c, d, hc, hd, h⟩
    exact ⟨c, hc, of_decide_eq_true h ▸ hd⟩
  · rintro ⟨c, hc, hd⟩
    exact ⟨c, c, hc, hd, decide_eq_true rfl⟩

theorem content_neg : m.content (.unary .neg f) w = (do return (← m.content f w).swapped) := rfl

theorem isTrue_essence_eq : m.isTrue (.binary .essence f g) w =
    m.isTrue (.binary .ground (.unary .neg f) (.unary .neg g)) w := Meaning.essence_eq_ground_neg

theorem isTrue_identity_neg : m.isTrue (.binary .identity (.unary .neg f) (.unary .neg g)) w = .ok true ↔
    m.isTrue (.binary .identity f g) w = .ok true := by
  simp only [isTrue_identity_iff, content_neg, bind_eq_ok, pure, Except.pure, Except.ok.injEq]
  constructor
  · rintro ⟨_, ⟨c, hc, rfl⟩, d, hd, h⟩
    exact ⟨c, hc, Content.swapped_inj.1 h ▸ hd⟩
  · rintro ⟨c, hc, hd⟩
    exact ⟨c.swapped, ⟨c, hc, rfl⟩, c, hd, rfl⟩

namespace FusionClosed

variable (hm : m.FusionClosed)
include hm

/-- Ground is the order of the contents at a state. -/
theorem isTrue_ground_iff : m.isTrue (.binary .ground f g) w = .ok true ↔
    ∃ c d : ClosedContent, m.content f w = .ok c.content ∧ m.content g w = .ok d.content ∧ c ≤ d := by
  refine compare_eq_true.trans ?_
  constructor
  · rintro ⟨c, d, hc, hd, h⟩
    exact ⟨⟨c, hm.content hc⟩, ⟨d, hm.content hd⟩, hc, hd, ClosedContent.grounds_iff_le.1 h⟩
  · rintro ⟨c, d, hc, hd, h⟩
    exact ⟨c.content, d.content, hc, hd, ClosedContent.grounds_iff_le.2 h⟩

theorem ground_refl {c : Content} (hc : m.content f w = .ok c) : m.isTrue (.binary .ground f f) w = .ok true :=
  hm.isTrue_ground_iff.2 ⟨⟨c, hm.content hc⟩, ⟨c, hm.content hc⟩, hc, hc, le_refl _⟩

theorem ground_trans (hfg : m.isTrue (.binary .ground f g) w = .ok true)
    (hgk : m.isTrue (.binary .ground g k) w = .ok true) : m.isTrue (.binary .ground f k) w = .ok true := by
  obtain ⟨c, d, hc, hd, hcd⟩ := hm.isTrue_ground_iff.1 hfg
  obtain ⟨d', e, hd', he, hde⟩ := hm.isTrue_ground_iff.1 hgk
  obtain rfl : d = d' := ClosedContent.ext (Except.ok.inj (hd.symm.trans hd'))
  exact hm.isTrue_ground_iff.2 ⟨c, e, hc, he, hcd.trans hde⟩

theorem ground_antisymm_iff : m.isTrue (.binary .ground f g) w = .ok true ∧
    m.isTrue (.binary .ground g f) w = .ok true ↔ m.isTrue (.binary .identity f g) w = .ok true := by
  constructor
  · rintro ⟨hfg, hgf⟩
    obtain ⟨c, d, hc, hd, hcd⟩ := hm.isTrue_ground_iff.1 hfg
    obtain ⟨d', c', hd', hc', hdc⟩ := hm.isTrue_ground_iff.1 hgf
    obtain rfl : c = c' := ClosedContent.ext (Except.ok.inj (hc.symm.trans hc'))
    obtain rfl : d = d' := ClosedContent.ext (Except.ok.inj (hd.symm.trans hd'))
    exact isTrue_identity_iff.2 ⟨c.content, hc, le_antisymm hcd hdc ▸ hd⟩
  · intro h
    obtain ⟨c, hc, hd⟩ := isTrue_identity_iff.1 h
    have hle : (⟨c, hm.content hc⟩ : ClosedContent) ≤ ⟨c, hm.content hc⟩ := le_refl _
    exact ⟨hm.isTrue_ground_iff.2 ⟨_, _, hc, hd, hle⟩, hm.isTrue_ground_iff.2 ⟨_, _, hd, hc, hle⟩⟩

end FusionClosed

end Model

/-- Where the contents of the letters are closed under fusion, ground and essence are orders, with identity for equality.
Every formula over the primitive operators stands in them to itself as long as the states of the space can be counted,
and in any space wherever it has a content; they are transitive; and two formulas that stand in one of them to each other
are identical, as are no others. -/
theorem ground_and_essence_are_orders (hm : m.FusionClosed) (w : State) {op : BinaryOp}
    (hop : op = .ground ∨ op = .essence) :
    (∀ f : Formula, (∀ o ∈ f.operators, o ∈ Theory.counterfactual.primitives) → m.space.n < 64 →
      m.isTrue (.binary op f f) w = .ok true) ∧
    (∀ f c, m.content f w = .ok c → m.isTrue (.binary op f f) w = .ok true) ∧
    (∀ f g k, m.isTrue (.binary op f g) w = .ok true → m.isTrue (.binary op g k) w = .ok true →
      m.isTrue (.binary op f k) w = .ok true) ∧
    ∀ f g, m.isTrue (.binary op f g) w = .ok true ∧ m.isTrue (.binary op g f) w = .ok true ↔
      m.isTrue (.binary .identity f g) w = .ok true := by
  have hrefl : ∀ f c, m.content f w = .ok c → m.isTrue (.binary op f f) w = .ok true := by
    intro f c hc
    rcases hop with rfl | rfl
    · exact hm.ground_refl hc
    · rw [Model.isTrue_essence_eq]
      exact hm.ground_refl (c := c.swapped) (by rw [Model.content_neg, hc]; rfl)
  refine ⟨fun f hf hn => ?_, hrefl, fun f g k hfg hgk => ?_, fun f g => ?_⟩
  · obtain ⟨c, hc⟩ := (Model.evaluates_of_primitive hn hf w).2
    exact hrefl f c hc
  · rcases hop with rfl | rfl
    · exact hm.ground_trans hfg hgk
    · rw [Model.isTrue_essence_eq] at hfg hgk ⊢
      exact hm.ground_trans hfg hgk
  · rcases hop with rfl | rfl
    · exact hm.ground_antisymm_iff
    · rw [Model.isTrue_essence_eq, Model.isTrue_essence_eq, hm.ground_antisymm_iff, Model.isTrue_identity_neg]

/-- At an impossible state: the letter grounds that it or its negation holds, hence also what this grounds, which is
identical to it. But the letter is not identical to it, so it does not ground the letter. -/
theorem ground_and_essence_are_orders_split :
    let a := Formula.atom splitLetter
    let b := Formula.binary .or a (.unary .neg a)
    let c := Formula.binary .or b a
    split.FusionClosed ∧ split.isTrue (.binary .ground a b) ⟨3⟩ = .ok true ∧
      split.isTrue (.binary .ground b c) ⟨3⟩ = .ok true ∧ split.isTrue (.binary .ground a c) ⟨3⟩ = .ok true ∧
      split.isTrue (.binary .ground c b) ⟨3⟩ = .ok true ∧ split.isTrue (.binary .identity b c) ⟨3⟩ = .ok true ∧
      split.isTrue (.binary .identity a b) ⟨3⟩ = .ok false ∧ split.isTrue (.binary .ground b a) ⟨3⟩ ≠ .ok true ∧
      split.isTrue (.binary .essence c c) ⟨3⟩ = .ok true := by
  intro a b c
  have hm := split_admissible.lawful.fusionClosed
  have hab : split.isTrue (.binary .ground a b) ⟨3⟩ = .ok true := by cbv
  have hbc : split.isTrue (.binary .ground b c) ⟨3⟩ = .ok true := by cbv
  have hcb : split.isTrue (.binary .ground c b) ⟨3⟩ = .ok true := by cbv
  have hdiffer : split.isTrue (.binary .identity a b) ⟨3⟩ = .ok false := by cbv
  have hc : c.Over Theory.counterfactual.primitives split.valuation.letters := by
    simp only [a, b, c, Formula.over_unary, Formula.over_binary, Formula.over_atom]
    decide
  obtain ⟨-, -, htrans, hantisymm⟩ := ground_and_essence_are_orders hm ⟨3⟩ (.inl rfl)
  obtain ⟨hrefl, -⟩ := ground_and_essence_are_orders hm ⟨3⟩ (.inr rfl)
  refine ⟨hm, hab, hbc, htrans a b c hab hbc, hcb, (hantisymm b c).1 ⟨hbc, hcb⟩, hdiffer, fun hba => ?_,
    hrefl c hc.1 (by decide)⟩
  have hsame := (hantisymm a b).1 ⟨hab, hba⟩
  rw [hdiffer] at hsame
  cases hsame

/-- A space whose states cannot be counted. -/
def countless : Model := { wide with space := ⟨64⟩ }

/-- Where the states cannot be counted, the truth has no content, and it is not found to ground itself. -/
theorem ground_not_reflexive_countless :
    countless.FusionClosed ∧ Formula.top.Over Theory.counterfactual.primitives [] ∧
      countless.isTrue (.binary .ground .top .top) .null = .error (.fault .overflow) ∧
      countless.isTrue (.binary .essence .top .top) .null = .error (.fault .overflow) :=
  ⟨List.forall_mem_nil _, Formula.over_top.2 (by decide), by cbv, by cbv⟩

end Countermodels.Truthmaker
