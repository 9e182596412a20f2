import Countermodels.Proofs.Formula.Expansion
import Countermodels.Proofs.Truthmaker.Alternatives

/-! Laws of counterfactuals. What would be the case at a world is found by imposing the verifiers that the antecedent has
there; whether the consequent is true is asked at the alternatives. Some laws need no more than that truth at a world is
having a verifier: a true antecedent imposes what the world already has, and the trivial antecedent imposes every world
whole. Others need that a content is the same at all worlds, because a verifier taken at one world must make the sentence
true at another. The laws that take a world for an alternative to itself are about the worlds that the space has: in a
space too wide to have states, the null state can be maximal, but it is no alternative to anything. -/

namespace Countermodels.Truthmaker

variable {m : Model} {f g k : Formula} {s u w : State}

namespace Model

theorem n_lt_of_mem_worlds (hw : w ∈ m.worlds) : m.space.n < 32 :=
  (StateSpace.mem_states.1 (mem_worlds.1 hw).1).1

theorem countable_of_mem_worlds (hw : w ∈ m.worlds) : m.space.n < 64 :=
  Nat.lt_trans (n_lt_of_mem_worlds hw) (by decide)

section operators

variable {letters : List Atom} (hn : m.space.n < 64) (hf : Sentence letters f) (hg : Sentence letters g)
include hn hf hg

theorem isTrue_boxRight (w : State) : m.isTrue (.binary .boxRight f g) w = .ok true ↔
    ∀ x, (m.meaning f).Verifies w x → ∀ u ∈ m.alternatives w x, m.isTrue g u = .ok true :=
  Meaning.holds_of_gives (Meaning.truth_boxRight hn (total_of_sentence hn hf) (total_of_sentence hn hg) w)

theorem isTrue_diamondRight (w : State) : m.isTrue (.binary .diamondRight f g) w = .ok true ↔
    ∃ x, (m.meaning f).Verifies w x ∧ ∃ u ∈ m.alternatives w x, m.isTrue g u = .ok true :=
  Meaning.holds_of_gives (Meaning.truth_diamondRight hn (total_of_sentence hn hf) (total_of_sentence hn hg) w)

end operators

/-- What would be the case whatever held is necessary. -/
theorem isTrue_trivial_boxRight {letters : List Atom} (hf : Sentence letters f) (hw : w ∈ m.worlds) :
    m.isTrue (.binary .boxRight .top f) w = .ok true ↔ m.isTrue (.unary .box f) w = .ok true := by
  have hn := countable_of_mem_worlds hw
  have hbox : m.isTrue (.unary .box f) w = .ok true ↔ ∀ u ∈ m.worlds, m.isTrue f u = .ok true :=
    Meaning.holds_of_gives (Meaning.truth_box hn (total_of_sentence hn hf) w)
  rw [isTrue_boxRight hn .top hf, hbox]
  constructor
  · -- every world verifies the trivial antecedent, and results from imposing it
    intro hall u hu
    obtain ⟨hspace, -⟩ := mem_worlds.1 hu
    exact hall u ((verifies_top (n_lt_of_mem_worlds hw)).2 hspace) u (mem_alternatives_world (mem_worlds.1 hw).1 hu)
  · intro hall x _ u hu
    exact hall u (mem_alternatives.1 hu).1

/-- Without a counterfactual, the verifiers are the same at every state. -/
theorem verifies_fixed (hf : f.isWorldDependent = false) (w u : State) :
    (m.meaning f).Verifies w s ↔ (m.meaning f).Verifies u s := by
  rw [Meaning.Verifies, Meaning.Verifies, content_fixed hf w u]

namespace Lawful

variable (hm : m.Lawful) (hf : Sentence m.valuation.letters f) (hg : Sentence m.valuation.letters g)
  (hk : Sentence m.valuation.letters k) (hw : w ∈ m.worlds)

include hm hf hw in
/-- A sentence is true at a world just if the world has a verifier as a part. -/
theorem isTrue_iff_reaches : m.isTrue f w = .ok true ↔ Reaches ((m.meaning f).Verifies w) w :=
  (hm.truthmade (n_lt_of_mem_worlds hw) hf).holds_iff w (mem_worlds.1 hw).2

include hm hf hg hw in
/-- A counterfactual with a true antecedent has a true consequent. -/
theorem detach (htrue : m.isTrue f w = .ok true) (hwould : m.isTrue (.binary .boxRight f g) w = .ok true) :
    m.isTrue g w = .ok true := by
  obtain ⟨x, hx, hxw⟩ := (hm.isTrue_iff_reaches hf hw).1 htrue
  exact (isTrue_boxRight (countable_of_mem_worlds hw) hf hg w).1 hwould x hx w (mem_alternatives_self hw hxw)

include hm hf hg hw in
/-- Of two true sentences, the second might be true if the first were. -/
theorem center (htrue : m.isTrue f w = .ok true) (htrue' : m.isTrue g w = .ok true) :
    m.isTrue (.binary .diamondRight f g) w = .ok true := by
  obtain ⟨x, hx, hxw⟩ := (hm.isTrue_iff_reaches hf hw).1 htrue
  exact (isTrue_diamondRight (countable_of_mem_worlds hw) hf hg w).2 ⟨x, hx, w, mem_alternatives_self hw hxw, htrue'⟩

include hm hf in
/-- A sentence would be true if it were. -/
theorem success (hn : m.space.n < 64) (hfixed : f.isWorldDependent = false) (w : State) :
    m.isTrue (.binary .boxRight f f) w = .ok true := by
  refine (isTrue_boxRight hn hf hf w).2 fun x hx u hu => ?_
  obtain ⟨hworld, hxu, -⟩ := mem_alternatives.1 hu
  exact (hm.isTrue_iff_reaches hf hworld).2 ⟨x, (verifies_fixed hfixed w u).1 hx, hxu⟩

include hm hf hg hk in
/-- What would be the case if two sentences held, of which one would hold if the other did, would be the case if this
other did. -/
theorem weak_transitivity (hn : m.space.n < 64) (hfixed : g.isWorldDependent = false)
    (hwould : m.isTrue (.binary .boxRight f g) w = .ok true)
    (hboth : m.isTrue (.binary .boxRight (.binary .and f g) k) w = .ok true) :
    m.isTrue (.binary .boxRight f k) w = .ok true := by
  refine (isTrue_boxRight hn hf hk w).2 fun x hx u hu => ?_
  have hworld := (mem_alternatives.1 hu).1
  -- the alternative has a verifier of the middle sentence, and stays one when this is imposed too
  have htrue := (isTrue_boxRight hn hf hg w).1 hwould x hx u hu
  obtain ⟨y, hy, hyu⟩ := (hm.isTrue_iff_reaches hg hworld).1 htrue
  have hfusion : (m.meaning (.binary .and f g)).Verifies w (x.fusion y) :=
    (Meaning.verifies_and (total_of_sentence hn hf) (total_of_sentence hn hg) w _).2
      ⟨x, hx, y, (verifies_fixed hfixed w u).2 hy, rfl⟩
  have hmore : u ∈ m.alternatives w (x.fusion y) := alternatives_mono hm.part hu (State.isPartOf_fusion_left x y)
    (State.fusion_isPartOf.2 ⟨(mem_alternatives.1 hu).2.1, hyu⟩)
  exact (isTrue_boxRight hn (.and hf hg) hk w).1 hboth _ hfusion u hmore

include hm hf hw in
/-- If a contradiction would hold if a sentence failed, then the sentence is necessary. -/
theorem isTrue_of_impossible_negation (hfixed : f.isWorldDependent = false)
    (hwould : m.isTrue (.binary .boxRight (.unary .neg f) .bot) w = .ok true) (hu : u ∈ m.worlds) :
    m.isTrue f u = .ok true := by
  have hn := countable_of_mem_worlds hw
  by_contra hfalse
  have hneg : m.isTrue (.unary .neg f) u = .ok true :=
    (Meaning.holds_neg (total_of_sentence hn hf) u).2 hfalse
  obtain ⟨y, hy, hyu⟩ := (hm.isTrue_iff_reaches (.neg hf) hu).1 hneg
  have hspace : y ∈ m.space.states := StateSpace.mem_states.2
    ⟨n_lt_of_mem_worlds hw, StateSpace.lt_of_isPartOf hyu (StateSpace.mem_states.1 (mem_worlds.1 hu).1).2⟩
  -- a part of a world can be imposed, and no alternative makes the contradiction true
  obtain ⟨v, hv⟩ := exists_alternative (mem_worlds.1 hw).1 (hm.part u (possible_of_mem_worlds hu) y hyu) hspace
  have hfixed' : (Formula.unary .neg f).isWorldDependent = false := by rw [Formula.isWorldDependent_unary, hfixed]
  have hbot := (isTrue_boxRight hn (.neg hf) .bot w).1 hwould y ((verifies_fixed hfixed' w u).2 hy) v hv
  cases hbot

end Lawful

end Model

/-- In a lawful model, at every world of the space: a counterfactual with a true antecedent has a true consequent; what
is true might be true if anything else that is true were; and counterfactual necessity, which is written out as a
counterfactual with the trivial antecedent, is necessity. -/
theorem counterfactual_laws_for_all_sentences (hm : m.Lawful)
    (hf : f.Over Theory.counterfactual.primitives m.valuation.letters)
    (hg : g.Over Theory.counterfactual.primitives m.valuation.letters) (hw : w ∈ m.worlds) :
    (m.isTrue f w = .ok true → m.isTrue (.binary .boxRight f g) w = .ok true → m.isTrue g w = .ok true) ∧
    (m.isTrue f w = .ok true → m.isTrue g w = .ok true → m.isTrue (.binary .diamondRight f g) w = .ok true) ∧
    Definitions.standard.expand (.unary .cfBox f) = .ok (.binary .boxRight .top f) ∧
    ∃ t, m.isTrue (.binary .boxRight .top f) w = .ok t ∧ m.isTrue (.unary .box f) w = .ok t := by
  have hn := Model.countable_of_mem_worlds hw
  have hf' := Sentence.of_over hf
  have hg' := Sentence.of_over hg
  refine ⟨hm.detach hf' hg' hw, hm.center hf' hg' hw, Definitions.expand_cfBox hf, ?_⟩
  obtain ⟨t, ht⟩ := (m.total_of_sentence hn (.boxRight .top hf')).truth w
  obtain ⟨t', ht'⟩ := (m.total_of_sentence hn (.box hf')).truth w
  have hsame : t = true ↔ t' = true := by
    have hiff := Model.isTrue_trivial_boxRight hf' hw
    rw [Model.isTrue, Model.isTrue, ht, ht', Except.ok.injEq, Except.ok.injEq] at hiff
    exact hiff
  exact ⟨t, ht, Bool.eq_iff_iff.2 hsame ▸ ht'⟩

/-- At the world where `A` holds, with a counterfactual as the consequent: `A` would fail if it failed. -/
theorem counterfactual_laws_for_all_sentences_split :
    let a := Formula.atom splitLetter
    let b := Formula.binary .boxRight (.unary .neg a) (.unary .neg a)
    split.Lawful ∧ ⟨1⟩ ∈ split.worlds ∧ a.Over Theory.counterfactual.primitives split.valuation.letters ∧
      b.Over Theory.counterfactual.primitives split.valuation.letters ∧
      split.isTrue a ⟨1⟩ = .ok true ∧ split.isTrue (.binary .boxRight a b) ⟨1⟩ = .ok true ∧
      split.isTrue b ⟨1⟩ = .ok true ∧ split.isTrue (.binary .diamondRight a b) ⟨1⟩ = .ok true ∧
      Definitions.standard.expand (.unary .cfBox a) = .ok (.binary .boxRight .top a) ∧
      ∃ t, split.isTrue (.binary .boxRight .top a) ⟨1⟩ = .ok t ∧ split.isTrue (.unary .box a) ⟨1⟩ = .ok t := by
  intro a b
  have ha : a.Over Theory.counterfactual.primitives split.valuation.letters := Formula.over_atom.2 (by decide)
  have hb : b.Over Theory.counterfactual.primitives split.valuation.letters := by
    simp only [a, b, Formula.over_unary, Formula.over_binary, Formula.over_atom]
    decide
  have hworld : ⟨1⟩ ∈ split.worlds := by decide
  have htrue : split.isTrue a ⟨1⟩ = .ok true := rfl
  have hwould : split.isTrue (.binary .boxRight a b) ⟨1⟩ = .ok true := by cbv
  obtain ⟨hdetach, hcenter, hbox⟩ := counterfactual_laws_for_all_sentences split_admissible.lawful ha hb hworld
  have hb' := hdetach htrue hwould
  exact ⟨split_admissible.lawful, hworld, ha, hb, htrue, hwould, hb', hcenter htrue hb', hbox⟩

/-- A possible state outside the space, which no state of the space shows not to be maximal. -/
def outlying : Model where
  space := ⟨1⟩
  possible := ⟨[⟨0⟩, ⟨2⟩], by decide⟩
  evalWorld := ⟨2⟩
  valuation := []

theorem outlying_lawful : outlying.Lawful where
  null := by decide
  part s hs t ht := by
    have hparts : ∀ s ∈ outlying.possible.elems, ∀ t ∈ s.parts, t ∈ outlying.possible := by decide +kernel
    exact hparts s hs t (State.mem_parts.2 ht)
  letter _ hp := nomatch hp

/-- Detachment and centering fail where a state is maximal without being a world of the space: in a space too wide to
have states, and outside a space. -/
theorem detachment_fails_wide :
    Formula.top.Over Theory.counterfactual.primitives [] ∧ Formula.bot.Over Theory.counterfactual.primitives [] ∧
    (wide.Lawful ∧ wide.isWorld .null = true ∧ wide.isTrue .top .null = .ok true ∧
      wide.isTrue (.binary .boxRight .top .bot) .null = .ok true ∧ wide.isTrue .bot .null = .ok false ∧
      wide.isTrue (.binary .diamondRight .top .top) .null = .ok false) ∧
    outlying.Lawful ∧ outlying.isWorld ⟨2⟩ = true ∧ outlying.isTrue .top ⟨2⟩ = .ok true ∧
      outlying.isTrue (.binary .boxRight .top .bot) ⟨2⟩ = .ok true ∧ outlying.isTrue .bot ⟨2⟩ = .ok false ∧
      outlying.isTrue (.binary .diamondRight .top .top) ⟨2⟩ = .ok false :=
  ⟨Formula.over_top.2 (by decide), Formula.over_bot.2 (by decide),
    ⟨wide_lawful, by decide, rfl, by cbv, rfl, by cbv⟩, outlying_lawful, by decide, rfl, by cbv, rfl, by cbv⟩

/-- In a lawful model whose states can be counted, at every state: a sentence without counterfactuals would be true if it
were; and what would be the case if two sentences held, of which the second has no counterfactuals and would hold if the
first did, would be the case if the first did. At a world of the space, moreover: if a contradiction would hold if a
sentence without counterfactuals failed, then the sentence is true at all worlds. -/
theorem counterfactual_laws_for_fixed_contents (hm : m.Lawful) (hn : m.space.n < 64)
    (hf : f.Over Theory.counterfactual.primitives m.valuation.letters)
    (hg : g.Over Theory.counterfactual.primitives m.valuation.letters)
    (hk : k.Over Theory.counterfactual.primitives m.valuation.letters) (w : State) :
    (f.isWorldDependent = false → m.isTrue (.binary .boxRight f f) w = .ok true) ∧
    (g.isWorldDependent = false → m.isTrue (.binary .boxRight f g) w = .ok true →
      m.isTrue (.binary .boxRight (.binary .and f g) k) w = .ok true → m.isTrue (.binary .boxRight f k) w = .ok true) ∧
    (f.isWorldDependent = false → w ∈ m.worlds → m.isTrue (.binary .boxRight (.unary .neg f) .bot) w = .ok true →
      ∀ u ∈ m.worlds, m.isTrue f u = .ok true) := by
  have hf' := Sentence.of_over hf
  have hg' := Sentence.of_over hg
  have hk' := Sentence.of_over hk
  exact ⟨fun hfixed => hm.success hf' hn hfixed w, hm.weak_transitivity hf' hg' hk' hn,
    fun hfixed hw hwould u hu => hm.isTrue_of_impossible_negation hf' hw hfixed hwould hu⟩

/-- At the world where `A` holds: if it failed, then either it or its negation would hold, and this is necessary, because
a contradiction would hold if neither did. -/
theorem counterfactual_laws_for_fixed_contents_split :
    let a := Formula.unary .neg (.atom splitLetter)
    let b := Formula.binary .or (.atom splitLetter) a
    split.Lawful ∧ ⟨1⟩ ∈ split.worlds ∧ a.isWorldDependent = false ∧ b.isWorldDependent = false ∧
      split.isTrue (.binary .boxRight b b) ⟨1⟩ = .ok true ∧
      split.isTrue (.binary .boxRight a b) ⟨1⟩ = .ok true ∧
      split.isTrue (.binary .boxRight (.binary .and a b) a) ⟨1⟩ = .ok true ∧
      split.isTrue (.binary .boxRight a a) ⟨1⟩ = .ok true ∧
      split.isTrue (.binary .boxRight (.unary .neg b) .bot) ⟨1⟩ = .ok true ∧
      ∀ u ∈ split.worlds, split.isTrue b u = .ok true := by
  intro a b
  have ha : a.Over Theory.counterfactual.primitives split.valuation.letters := by
    simp only [a, Formula.over_unary, Formula.over_atom]
    decide
  have hb : b.Over Theory.counterfactual.primitives split.valuation.letters := by
    simp only [a, b, Formula.over_unary, Formula.over_binary, Formula.over_atom]
    decide
  have hworld : ⟨1⟩ ∈ split.worlds := by decide
  have hafixed : a.isWorldDependent = false := by cbv
  have hbfixed : b.isWorldDependent = false := by cbv
  have hwould : split.isTrue (.binary .boxRight a b) ⟨1⟩ = .ok true := by cbv
  have hboth : split.isTrue (.binary .boxRight (.binary .and a b) a) ⟨1⟩ = .ok true := by cbv
  have himpossible : split.isTrue (.binary .boxRight (.unary .neg b) .bot) ⟨1⟩ = .ok true := by cbv
  obtain ⟨-, htransitive, -⟩ :=
    counterfactual_laws_for_fixed_contents split_admissible.lawful (by decide) ha hb ha ⟨1⟩
  obtain ⟨hsuccess, -, hnecessary⟩ :=
    counterfactual_laws_for_fixed_contents split_admissible.lawful (by decide) hb hb hb ⟨1⟩
  exact ⟨split_admissible.lawful, hworld, hafixed, hbfixed, hsuccess hbfixed, hwould, hboth,
    htransitive hbfixed hwould hboth, himpossible, hnecessary hbfixed hworld himpossible⟩

/-- What has an impossible negation need not be true at a maximal state that is no world of the space. -/
theorem impossible_negation_fails_wide :
    Formula.bot.Over Theory.counterfactual.primitives [] ∧ Formula.bot.isWorldDependent = false ∧
    (wide.Lawful ∧ wide.isWorld .null = true ∧
      wide.isTrue (.binary .boxRight (.unary .neg .bot) .bot) .null = .ok true ∧ wide.isTrue .bot .null = .ok false) ∧
    outlying.Lawful ∧ outlying.isWorld ⟨2⟩ = true ∧
      outlying.isTrue (.binary .boxRight (.unary .neg .bot) .bot) ⟨2⟩ = .ok true ∧
      outlying.isTrue .bot ⟨2⟩ = .ok false :=
  ⟨Formula.over_bot.2 (by decide), by cbv, ⟨wide_lawful, by decide, by cbv, rfl⟩, outlying_lawful, by decide, by cbv, rfl⟩

end Countermodels.Truthmaker
