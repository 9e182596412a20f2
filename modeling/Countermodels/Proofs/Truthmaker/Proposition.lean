import Countermodels.Proofs.Truthmaker.Footing

/-! Contents are propositions. Truth is found by one recursion over formulas and content by another, which asks for
truth at modal and counterfactual operators. They agree at worlds: a sentence is true at a world if a verifier is part of
it, and false if a falsifier is. What carries the induction is that the content of every sentence at every state is a
proposition; the content of a sentence that is only true or false is one because the null state is part of all others.
The space must have fewer than 32 atomic states. A wider one has no states at all, and nothing verifies the truth. -/

namespace Countermodels.Truthmaker

variable {m : Model} {V W F G : State → Prop} {P : Prop} {s u w x : State}

/-- A set of states to which the fusions of its members belong. -/
def Closed (V : State → Prop) : Prop := ∀ x, V x → ∀ y, V y → V (x.fusion y)

/-- Verifiers and falsifiers that make a proposition: each of the two sets is closed under fusion, no verifier fuses with
a falsifier into a possible state, and all worlds have one of them as a part. -/
structure Model.Proposition (m : Model) (V F : State → Prop) : Prop where
  ver_closed : Closed V
  fal_closed : Closed F
  exclusive : ∀ x, V x → ∀ y, F y → x.fusion y ∉ m.possible
  exhaustive : ∀ u, m.isWorld u = true → ∃ s, s.isPartOf u = true ∧ (V s ∨ F s)

/-- Parts of possible states are possible. -/
def Model.PartClosed (m : Model) : Prop := ∀ s ∈ m.possible, ∀ t, t.isPartOf s = true → t ∈ m.possible

/-- The null state is possible, parts of possible states are possible, and the letters stand for propositions. This is all
of `Model.Admissible` that the laws of truth and of counterfactuals need. An encoder admits models under more demands: that
all states belong to the space of the settings, that the world of evaluation is a world, and what the settings ask of the
letters. The laws hold without them, also in models that no encoder describes. -/
structure Model.Lawful (m : Model) : Prop where
  null : .null ∈ m.possible
  part : m.PartClosed
  letter : ∀ p ∈ m.valuation, m.Proposition (· ∈ p.2.ver) (· ∈ p.2.fal)

theorem Model.Admissible.lawful {settings : Settings} {letters : List Atom} (hm : m.Admissible settings letters) :
    m.Lawful where
  null := hm.null
  part := hm.part
  letter p hp :=
    have hallows := hm.allows p hp
    ⟨hallows.ver_closed, hallows.fal_closed, hallows.exclusive, hallows.exhaustive⟩

theorem Model.null_mem_states (hn : m.space.n < 32) : .null ∈ m.space.states :=
  StateSpace.mem_states.2 ⟨hn, m.space.size_pos⟩

/-- Some state of a set is part of `w`. -/
def Reaches (V : State → Prop) (w : State) : Prop := ∃ x, V x ∧ x.isPartOf w = true

theorem Reaches.congr (h : ∀ s, V s ↔ W s) : Reaches V w ↔ Reaches W w :=
  exists_congr fun s => and_congr_left' (h s)

open Meaning (Fused Joined)

theorem reaches_fused : Reaches (Fused V W) w ↔ Reaches V w ∧ Reaches W w := by
  constructor
  · rintro ⟨_, ⟨x, hx, y, hy, rfl⟩, hw⟩
    obtain ⟨hxw, hyw⟩ := State.fusion_isPartOf.1 hw
    exact ⟨⟨x, hx, hxw⟩, y, hy, hyw⟩
  · rintro ⟨⟨x, hx, hxw⟩, y, hy, hyw⟩
    exact ⟨x.fusion y, ⟨x, hx, y, hy, rfl⟩, State.fusion_isPartOf.2 ⟨hxw, hyw⟩⟩

theorem reaches_joined : Reaches (Joined V W) w ↔ Reaches V w ∨ Reaches W w := by
  constructor
  · rintro ⟨s, (hs | hs) | hs, hw⟩
    · exact .inl ⟨s, hs, hw⟩
    · exact .inr ⟨s, hs, hw⟩
    · exact .inl (reaches_fused.1 ⟨s, hs, hw⟩).1
  · rintro (⟨s, hs, hw⟩ | ⟨s, hs, hw⟩)
    · exact ⟨s, .inl (.inl hs), hw⟩
    · exact ⟨s, .inl (.inr hs), hw⟩

theorem reaches_null : Reaches (fun s => s = .null ∧ P) w ↔ P := by
  simp [Reaches]

/-! Closure under fusion. -/

theorem Closed.fused (hV : Closed V) (hW : Closed W) : Closed (Fused V W) := by
  rintro _ ⟨x, hx, y, hy, rfl⟩ _ ⟨x', hx', y', hy', rfl⟩
  exact ⟨_, hV x hx x' hx', _, hW y hy y' hy', State.fusion_fusion_fusion_comm ..⟩

theorem fused_comm : Fused V W s ↔ Fused W V s := by
  have hswap : ∀ {V W : State → Prop}, Fused V W s → Fused W V s := by
    rintro V W ⟨x, hx, y, hy, rfl⟩
    exact ⟨y, hy, x, hx, State.fusion_comm ..⟩
  exact ⟨hswap, hswap⟩

theorem joined_comm : Joined V W s ↔ Joined W V s := or_congr or_comm fused_comm

theorem Closed.fusion_joined (hV : Closed V) (hx : V x) (hs : Joined V W s) : Joined V W (x.fusion s) := by
  obtain (hs | hs) | ⟨y, hy, z, hz, rfl⟩ := hs
  · exact .inl (.inl (hV x hx s hs))
  · exact .inr ⟨x, hx, s, hs, rfl⟩
  · exact .inr ⟨x.fusion y, hV x hx y hy, z, hz, State.fusion_assoc ..⟩

theorem Closed.joined (hV : Closed V) (hW : Closed W) : Closed (Joined V W) := by
  have hright : ∀ {y s}, W y → Joined V W s → Joined V W (y.fusion s) := fun hy hs =>
    joined_comm.1 (hW.fusion_joined hy (joined_comm.1 hs))
  rintro s ((hs | hs) | ⟨x, hx, y, hy, rfl⟩) t ht
  · exact hV.fusion_joined hs ht
  · exact hright hs ht
  · -- a fusion of two states is joined by them one after the other
    rw [State.fusion_assoc]
    exact hV.fusion_joined hx (hright hy ht)

theorem closed_states (space : StateSpace) : Closed (· ∈ space.states) := fun _ hx _ hy =>
  have hx := StateSpace.mem_states.1 hx
  have hy := StateSpace.mem_states.1 hy
  StateSpace.mem_states.2 ⟨hx.1, StateSpace.fusion_lt hx.2 hy.2⟩

namespace Model.Proposition

theorem congr (h : m.Proposition V F) (hV : ∀ s, W s ↔ V s) (hF : ∀ s, G s ↔ F s) : m.Proposition W G := by
  obtain rfl : W = V := funext fun s => propext (hV s)
  obtain rfl : G = F := funext fun s => propext (hF s)
  exact h

theorem swap (h : m.Proposition V F) : m.Proposition F V where
  ver_closed := h.fal_closed
  fal_closed := h.ver_closed
  exclusive x hx y hy := State.fusion_comm y x ▸ h.exclusive y hy x hx
  exhaustive u hu := by
    obtain ⟨s, hs, hmem⟩ := h.exhaustive u hu
    exact ⟨s, hs, hmem.symm⟩

theorem reaches_or (h : m.Proposition V F) (hu : m.isWorld u = true) : Reaches V u ∨ Reaches F u := by
  obtain ⟨s, hs, hmem⟩ := h.exhaustive u hu
  exact hmem.imp (fun hv => ⟨s, hv, hs⟩) fun hf => ⟨s, hf, hs⟩

/-- What has a part in both is not possible. -/
theorem not_possible (h : m.Proposition V F) (hm : m.PartClosed) (hV : Reaches V s) (hF : Reaches F s) :
    s ∉ m.possible := by
  obtain ⟨x, hx, hxs⟩ := hV
  obtain ⟨y, hy, hys⟩ := hF
  exact fun hs => h.exclusive x hx y hy (hm s hs _ (State.fusion_isPartOf.2 ⟨hxs, hys⟩))

/-- Worlds decide a proposition. -/
theorem reaches_falsifier_iff (h : m.Proposition V F) (hm : m.PartClosed) (hu : m.isWorld u = true) :
    Reaches F u ↔ ¬ Reaches V u := by
  have hpossible := (isWorld_iff.1 hu).1
  exact ⟨fun hF hV => h.not_possible hm hV hF hpossible, (h.reaches_or hu).resolve_left⟩

theorem and (h : m.Proposition V F) (h' : m.Proposition W G) (hm : m.PartClosed) :
    m.Proposition (Fused V W) (Joined F G) where
  ver_closed := h.ver_closed.fused h'.ver_closed
  fal_closed := h.fal_closed.joined h'.fal_closed
  exclusive x hx y hy := by
    obtain ⟨hV, hW⟩ := reaches_fused.1 ⟨x, hx, State.isPartOf_fusion_left x y⟩
    rcases reaches_joined.1 ⟨y, hy, State.isPartOf_fusion_right x y⟩ with hF | hG
    · exact h.not_possible hm hV hF
    · exact h'.not_possible hm hW hG
  exhaustive u hu := by
    -- a world has a verifier of both, or a falsifier of one of them
    have hreach : Reaches (Fused V W) u ∨ Reaches (Joined F G) u := by
      rw [reaches_fused, reaches_joined]
      have := h.reaches_or hu
      have := h'.reaches_or hu
      tauto
    rcases hreach with ⟨s, hs, hsu⟩ | ⟨s, hs, hsu⟩
    · exact ⟨s, hsu, .inl hs⟩
    · exact ⟨s, hsu, .inr hs⟩

theorem or (h : m.Proposition V F) (h' : m.Proposition W G) (hm : m.PartClosed) :
    m.Proposition (Joined V W) (Fused F G) :=
  (h.swap.and h'.swap hm).swap

/-- The null state verifies what is true and falsifies what is false. -/
theorem ofTruth (m : Model) (P : Prop) : m.Proposition (fun s => s = .null ∧ P) (fun s => s = .null ∧ ¬ P) where
  ver_closed := by
    rintro _ ⟨rfl, hP⟩ _ ⟨rfl, -⟩
    exact ⟨State.null_fusion _, hP⟩
  fal_closed := by
    rintro _ ⟨rfl, hP⟩ _ ⟨rfl, -⟩
    exact ⟨State.null_fusion _, hP⟩
  exclusive := by
    rintro x ⟨-, hP⟩ y ⟨-, hnot⟩
    exact absurd hP hnot
  exhaustive u _ := ⟨.null, State.null_isPartOf u, by simp [em]⟩

/-- All states verify, and none falsifies. -/
theorem top (hn : m.space.n < 32) : m.Proposition (· ∈ m.space.states) fun _ => False where
  ver_closed := closed_states m.space
  fal_closed _ hx := hx.elim
  exclusive _ _ _ hy := hy.elim
  exhaustive u _ := ⟨.null, State.null_isPartOf u, .inl (null_mem_states hn)⟩

end Model.Proposition

/-- The content at every state is a proposition, and at worlds the truth is that a verifier is a part. -/
structure Meaning.Truthmade (m : Model) (a : Meaning) : Prop where
  proposition : ∀ w, m.Proposition (a.Verifies w) (a.Falsifies w)
  holds_iff : ∀ w, m.isWorld w = true → (a.Holds w ↔ Reaches (a.Verifies w) w)

namespace Meaning.Truthmade

variable {a b : Meaning}

theorem falsified_iff (ha : a.Truthmade m) (hm : m.PartClosed) (hw : m.isWorld w = true) :
    Reaches (a.Falsifies w) w ↔ ¬ a.Holds w := by
  rw [(ha.proposition w).reaches_falsifier_iff hm hw, ha.holds_iff w hw]

theorem neg (ha : a.Truthmade m) (ht : a.Total) (hm : m.PartClosed) : a.neg.Truthmade m where
  proposition w := (ha.proposition w).swap.congr (verifies_neg ht w) (falsifies_neg ht w)
  holds_iff w hw := by
    rw [holds_neg ht, Reaches.congr (verifies_neg ht w), ha.falsified_iff hm hw]

theorem and (ha : a.Truthmade m) (hb : b.Truthmade m) (ht : a.Total) (ht' : b.Total) (hm : m.PartClosed) :
    (a.and b).Truthmade m where
  proposition w := ((ha.proposition w).and (hb.proposition w) hm).congr (verifies_and ht ht' w) (falsifies_and ht ht' w)
  holds_iff w hw := by
    rw [holds_and ht ht', Reaches.congr (verifies_and ht ht' w), reaches_fused, ha.holds_iff w hw, hb.holds_iff w hw]

theorem or (ha : a.Truthmade m) (hb : b.Truthmade m) (ht : a.Total) (ht' : b.Total) (hm : m.PartClosed) :
    (a.or b).Truthmade m where
  proposition w := ((ha.proposition w).or (hb.proposition w) hm).congr (verifies_or ht ht' w) (falsifies_or ht ht' w)
  holds_iff w hw := by
    rw [holds_or ht ht', Reaches.congr (verifies_or ht ht' w), reaches_joined, ha.holds_iff w hw, hb.holds_iff w hw]

theorem ofTruth {truth : State → Except Failure Bool} {P : State → Prop}
    (h : ∀ w, Gives (truth w) fun t => t = true ↔ P w) : (Meaning.ofTruth truth).Truthmade m where
  proposition w := (Model.Proposition.ofTruth m (P w)).congr (verifies_ofTruth h w) (falsifies_ofTruth h w)
  holds_iff w _ := by
    rw [holds_ofTruth h, Reaches.congr (verifies_ofTruth h w), reaches_null]

end Meaning.Truthmade

theorem Model.verifies_top (hn : m.space.n < 32) : (m.meaning .top).Verifies w s ↔ s ∈ m.space.states := by
  have hcontent : (m.meaning .top).content w = .ok ⟨.ofSpace m.space, .empty⟩ :=
    Meaning.ofFault_counting (by omega) _
  rw [Meaning.verifies_iff hcontent, StateSet.mem_ofSpace]

/-- Sentences are made true by what verifies them. -/
theorem Model.Lawful.truthmade (hm : m.Lawful) (hn : m.space.n < 32) {f : Formula}
    (hf : Sentence m.valuation.letters f) : (m.meaning f).Truthmade m := by
  have hcount : m.space.n < 64 := by omega
  have htotal : ∀ {g}, Sentence m.valuation.letters g → (m.meaning g).Total := total_of_sentence hcount
  -- truth and content are taken together: a negation is true where a falsifier is a part
  induction hf with
  | @atom a ha =>
    obtain ⟨c, hc⟩ := Valuation.mem_letters_iff.1 ha
    have hcontent : ∀ w, (m.meaning (.atom a)).content w = .ok c := fun w => by
      show Except.ok (m.atomContent a) = _
      rw [atomContent, hc, Option.getD_some]
    refine ⟨fun w => ?_, fun w _ => ?_⟩
    · exact (hm.letter (a, c) (Valuation.mem_of_meaning? hc)).congr (fun s => Meaning.verifies_iff (hcontent w))
        fun s => Meaning.falsifies_iff (hcontent w)
    · rw [Reaches.congr fun s => Meaning.verifies_iff (hcontent w)]
      show Except.ok ((m.atomContent a).ver.elems.any (·.isPartOf w)) = .ok true ↔ _
      rw [atomContent, hc, Option.getD_some, Except.ok.injEq, List.any_eq_true]
      rfl
  | top =>
    have hcontent : ∀ w, (m.meaning .top).content w = .ok ⟨.ofSpace m.space, .empty⟩ :=
      fun w => Meaning.ofFault_counting hcount _
    refine ⟨fun w => (Proposition.top hn).congr (fun s => verifies_top hn) fun s => ?_, fun w _ => ?_⟩
    · rw [Meaning.falsifies_iff (hcontent w)]
      simp
    · rw [Reaches.congr fun s => verifies_top hn]
      exact iff_of_true rfl ⟨.null, null_mem_states hn, State.null_isPartOf w⟩
  | bot =>
    have hcontent : ∀ w, (m.meaning .bot).content w = .ok ⟨.empty, .ofSpace m.space⟩ :=
      fun w => Meaning.ofFault_counting hcount _
    have hver : ∀ w s, (m.meaning .bot).Verifies w s ↔ False := fun w s => by
      rw [Meaning.verifies_iff (hcontent w)]
      simp
    refine ⟨fun w => (Proposition.top hn).swap.congr (hver w) fun s => ?_, fun w _ => ?_⟩
    · rw [Meaning.falsifies_iff (hcontent w), StateSet.mem_ofSpace]
    · rw [Reaches.congr (hver w)]
      simp [Meaning.Holds, meaning, Reaches]
  | neg ha iha => exact iha.neg (htotal ha) hm.part
  | box ha _ => exact .ofTruth (Meaning.truth_box hcount (htotal ha))
  | diamond ha _ => exact .ofTruth (Meaning.truth_diamond hcount (htotal ha))
  | and ha hb iha ihb => exact iha.and ihb (htotal ha) (htotal hb) hm.part
  | or ha hb iha ihb => exact iha.or ihb (htotal ha) (htotal hb) hm.part
  | boxRight ha hb _ _ => exact .ofTruth (Meaning.truth_boxRight hcount (htotal ha) (htotal hb))
  | diamondRight ha hb _ _ => exact .ofTruth (Meaning.truth_diamondRight hcount (htotal ha) (htotal hb))
  | ground ha hb _ _ => exact .ofTruth (Meaning.truth_ground (htotal ha) (htotal hb))
  | essence ha hb _ _ => exact .ofTruth (Meaning.truth_essence (htotal ha) (htotal hb))
  | identity ha hb _ _ => exact .ofTruth (Meaning.truth_identity (htotal ha) (htotal hb))

/-- In a lawful model with fewer than 32 atomic states the content of every formula at every state is a proposition. At a
world the formula is true if and only if one of its verifiers is part of the world, and false if and only if one of its
falsifiers is. -/
theorem contents_are_propositions (hm : m.Lawful) (hn : m.space.n < 32) {f : Formula}
    (hf : f.Over Theory.counterfactual.primitives m.valuation.letters) (w : State) :
    ∃ c t, m.content f w = .ok c ∧ m.isTrue f w = .ok t ∧ m.Proposition (· ∈ c.ver) (· ∈ c.fal) ∧
      (m.isWorld w = true → (t = true ↔ ∃ x ∈ c.ver, x.isPartOf w = true) ∧
        (t = false ↔ ∃ y ∈ c.fal, y.isPartOf w = true)) := by
  have hsentence := Sentence.of_over hf
  have hmade := hm.truthmade hn hsentence
  have htotal : (m.meaning f).Total := m.total_of_sentence (by omega) hsentence
  obtain ⟨t, ht⟩ := htotal.truth w
  obtain ⟨c, hc⟩ := htotal.content w
  have hver : ∀ s, (m.meaning f).Verifies w s ↔ s ∈ c.ver := fun s => Meaning.verifies_iff hc
  have hfal : ∀ s, (m.meaning f).Falsifies w s ↔ s ∈ c.fal := fun s => Meaning.falsifies_iff hc
  have htruth : t = true ↔ (m.meaning f).Holds w := by rw [Meaning.Holds, ht, Except.ok.injEq]
  refine ⟨c, t, hc, ht, (hmade.proposition w).congr (fun s => (hver s).symm) fun s => (hfal s).symm, fun hw => ⟨?_, ?_⟩⟩
  · exact (htruth.trans (hmade.holds_iff w hw)).trans (Reaches.congr hver)
  · rw [← Bool.not_eq_true, htruth, ← hmade.falsified_iff hm.part hw]
    exact Reaches.congr hfal

/-- That `A` fails or would hold if it failed, at a world where it holds. -/
theorem contents_are_propositions_split :
    let f := Formula.binary .or (.unary .neg (.atom splitLetter))
      (.binary .boxRight (.unary .neg (.atom splitLetter)) (.atom splitLetter))
    split.Lawful ∧ f.Over Theory.counterfactual.primitives split.valuation.letters ∧ split.isWorld ⟨1⟩ = true ∧
      ∃ c t, split.content f ⟨1⟩ = .ok c ∧ split.isTrue f ⟨1⟩ = .ok t ∧ split.Proposition (· ∈ c.ver) (· ∈ c.fal) ∧
        (t = true ↔ ∃ x ∈ c.ver, x.isPartOf ⟨1⟩ = true) ∧ (t = false ↔ ∃ y ∈ c.fal, y.isPartOf ⟨1⟩ = true) := by
  intro f
  have hf : f.Over Theory.counterfactual.primitives split.valuation.letters := by
    simp only [f, Formula.over_unary, Formula.over_binary, Formula.over_atom]
    decide
  have hworld : split.isWorld ⟨1⟩ = true := by decide
  obtain ⟨c, t, hc, ht, hproposition, htruth⟩ := contents_are_propositions split_admissible.lawful (by decide) hf ⟨1⟩
  exact ⟨split_admissible.lawful, hf, hworld, c, t, hc, ht, hproposition, htruth hworld⟩

/-- A space that is too wide to have states, and the null state as the only world. -/
def wide : Model where
  space := ⟨32⟩
  possible := .singleton .null
  evalWorld := .null
  valuation := []

theorem wide_lawful : wide.Lawful where
  null := StateSet.mem_singleton.2 rfl
  part s hs t ht := by
    obtain rfl := StateSet.mem_singleton.1 hs
    exact StateSet.mem_singleton.2 (congrArg State.mk (Nat.le_zero.1 (State.bits_le_of_isPartOf ht)))
  letter _ hp := nomatch hp

theorem ofSpace_wide : StateSet.ofSpace wide.space = .empty := by
  ext s
  simp [StateSpace.mem_states, wide]

/-- In a wide space the truth is true at the world without a verifier there, and its content is that of the falsehood. -/
theorem top_unverified_wide :
    wide.Lawful ∧ Formula.top.Over Theory.counterfactual.primitives wide.valuation.letters ∧
      wide.isWorld .null = true ∧
      wide.isTrue (.binary .identity .top .bot) .null = .ok true ∧
      ∃ c, wide.content .top .null = .ok c ∧ wide.isTrue .top .null = .ok true ∧
        ¬ wide.Proposition (· ∈ c.ver) (· ∈ c.fal) ∧ ¬ ∃ x ∈ c.ver, x.isPartOf .null = true := by
  have hworld : wide.isWorld .null = true := by decide
  have htop : wide.content .top .null = .ok ⟨.empty, .empty⟩ := by
    show Except.ok (Content.mk (.ofSpace wide.space) .empty) = _
    rw [ofSpace_wide]
  have hbot : wide.content .bot .null = .ok ⟨.empty, .empty⟩ := by
    show Except.ok (Content.mk .empty (.ofSpace wide.space)) = _
    rw [ofSpace_wide]
  have hsame : wide.isTrue (.binary .identity .top .bot) .null = .ok true := by
    show (do return decide ((← wide.content .top .null) = (← wide.content .bot .null))) = _
    rw [htop, hbot]
    rfl
  refine ⟨wide_lawful, Formula.over_top.2 (by decide), hworld, hsame, _, htop, rfl, fun h => ?_, by simp⟩
  obtain ⟨s, -, hs⟩ := h.exhaustive .null hworld
  simp at hs

end Countermodels.Truthmaker
