import Countermodels.Proofs.State.Permute
import Countermodels.Proofs.Truthmaker.Admissible

/-! Models under a permutation of the atomic states: what is admissible stays so, and what a formula says at
a state it says of the image of the model at the image of the state. -/

namespace Countermodels.Truthmaker

variable {m : Model} {π : Equiv.Perm (Fin m.space.n)}

/-- The images of verifiers and falsifiers. -/
def Content.permute {space : StateSpace} (π : Equiv.Perm (Fin space.n)) (c : Content) : Content :=
  ⟨c.ver.permute π, c.fal.permute π⟩

/-- The model with all its states replaced by their images. -/
def Model.permute (m : Model) (π : Equiv.Perm (Fin m.space.n)) : Model where
  space := m.space
  possible := m.possible.permute π
  evalWorld := m.evalWorld.permute π
  valuation := m.valuation.map fun p => (p.1, p.2.permute π)

/-- All states of the model belong to its space, which is small enough to list them. -/
structure Model.Placed (m : Model) : Prop where
  n_lt : m.space.n < 32
  possible : ∀ s ∈ m.possible, s ∈ m.space.states
  located : m.Located

namespace Model.Placed

variable (hm : m.Placed) {s t u w x : State}
include hm

theorem countable : m.space.n < 64 := Nat.lt_trans hm.n_lt (by decide)

theorem mem_states : s ∈ m.space.states ↔ s.bits < m.space.size := by
  rw [StateSpace.mem_states, and_iff_right hm.n_lt]

theorem permute_mem (π : Equiv.Perm (Fin m.space.n)) (s : State) : s.permute π ∈ m.space.states :=
  hm.mem_states.2 (State.permute_lt π s)

/-- Every state is the image of one. -/
theorem exists_image (π : Equiv.Perm (Fin m.space.n)) (ht : t ∈ m.space.states) :
    ∃ s ∈ m.space.states, s.permute π = t :=
  ⟨t.permute π⁻¹, hm.permute_mem _ _, State.permute_inv_permute π (hm.mem_states.1 ht)⟩

theorem mem_possible (hs : s ∈ m.space.states) : s.permute π ∈ (m.permute π).possible ↔ s ∈ m.possible :=
  StateSet.permute_mem_permute hm.possible (hm.mem_states.1 hs)

theorem isPartOf (hs : s ∈ m.space.states) : (s.permute π).isPartOf (t.permute π) = s.isPartOf t :=
  State.isPartOf_permute (hm.mem_states.1 hs)

theorem inj (hs : s ∈ m.space.states) (ht : t ∈ m.space.states) : s.permute π = t.permute π ↔ s = t :=
  State.permute_inj (hm.mem_states.1 hs) (hm.mem_states.1 ht)

theorem fusion (hs : s ∈ m.space.states) (ht : t ∈ m.space.states) : s.fusion t ∈ m.space.states :=
  hm.mem_states.2 (StateSpace.fusion_lt (hm.mem_states.1 hs) (hm.mem_states.1 ht))

theorem part (hs : s ∈ m.space.states) (ht : t.isPartOf s = true) : t ∈ m.space.states :=
  hm.mem_states.2 (StateSpace.lt_of_isPartOf ht (hm.mem_states.1 hs))

theorem isWorld (hs : s ∈ m.space.states) : (m.permute π).isWorld (s.permute π) = true ↔ m.isWorld s = true := by
  rw [Model.isWorld_iff, Model.isWorld_iff, hm.mem_possible hs]
  refine and_congr_right fun _ => ⟨fun h t ht hst htm => ?_, fun h t ht hst htm => ?_⟩
  · exact (hm.inj htm hs).1 (h _ ((hm.mem_possible htm).2 ht) ((hm.isPartOf hs).trans hst) (hm.permute_mem π t))
  · obtain ⟨r, hr, rfl⟩ := hm.exists_image π htm
    exact (hm.inj hr hs).2 (h r ((hm.mem_possible hr).1 ht) ((hm.isPartOf hs).symm.trans hst) hr)

theorem mem_worlds (hu : u ∈ m.space.states) : u.permute π ∈ (m.permute π).worlds ↔ u ∈ m.worlds := by
  rw [Model.mem_worlds, Model.mem_worlds, hm.isWorld hu]
  exact and_congr_left fun _ => iff_of_true (hm.permute_mem π u) hu

theorem mem_maximalCompatibleParts {z : State} (hz : z ∈ m.space.states) (hw : w ∈ m.space.states)
    (hx : x ∈ m.space.states) : z.permute π ∈ (m.permute π).maximalCompatibleParts (w.permute π) (x.permute π) ↔
      z ∈ m.maximalCompatibleParts w x := by
  have hcompatible : ∀ {y : State}, y ∈ m.space.states →
      (y.permute π ∈ (m.permute π).compatibleParts (w.permute π) (x.permute π) ↔ y ∈ m.compatibleParts w x) := by
    intro y hy
    rw [Model.mem_compatibleParts, Model.mem_compatibleParts, hm.isPartOf hy, ← State.permute_fusion,
      hm.mem_possible (hm.fusion hy hx)]
  rw [Model.mem_maximalCompatibleParts, Model.mem_maximalCompatibleParts, hcompatible hz]
  refine and_congr_right fun _ => ⟨fun h y hy hzy => ?_, fun h y hy hzy => ?_⟩
  · have hym := hm.part hw (Model.mem_compatibleParts.1 hy).1
    exact (hm.inj hym hz).1 (h _ ((hcompatible hym).2 hy) ((hm.isPartOf hz).trans hzy))
  · have hym := hm.part (hm.permute_mem π w) (Model.mem_compatibleParts.1 hy).1
    obtain ⟨r, hr, rfl⟩ := hm.exists_image π hym
    exact (hm.inj hr hz).2 (h r ((hcompatible hr).1 hy) ((hm.isPartOf hz).symm.trans hzy))

theorem mem_alternatives (hu : u ∈ m.space.states) (hw : w ∈ m.space.states) (hx : x ∈ m.space.states) :
    u.permute π ∈ (m.permute π).alternatives (w.permute π) (x.permute π) ↔ u ∈ m.alternatives w x := by
  rw [Model.mem_alternatives, Model.mem_alternatives, hm.mem_worlds hu, hm.isPartOf hx]
  refine and_congr_right fun _ => and_congr_right fun _ => ⟨?_, ?_⟩
  · rintro ⟨z, hz, hzu⟩
    obtain ⟨r, hr, rfl⟩ := hm.exists_image π (hm.part (hm.permute_mem π u) hzu)
    exact ⟨r, (hm.mem_maximalCompatibleParts hr hw hx).1 hz, (hm.isPartOf hr).symm.trans hzu⟩
  · rintro ⟨z, hz, hzu⟩
    have hzm := hm.part hu hzu
    exact ⟨_, (hm.mem_maximalCompatibleParts hzm hw hx).2 hz, (hm.isPartOf hzm).trans hzu⟩

omit hm in
theorem atomContent (a : Atom) : (m.permute π).atomContent a = (m.atomContent a).permute π := by
  have hmeaning : (m.permute π).valuation.meaning? a = (m.valuation.meaning? a).map (Content.permute π) := by
    simp only [Model.permute, Valuation.meaning?, List.find?_map, Option.map_map]
    rfl
  have hempty : Content.empty.permute π = Content.empty := by
    simp [Content.permute, Content.empty, StateSet.permute, StateSet.empty, StateSet.ofList, StateSet.sorted,
      StateSet.distinct]
  rw [Model.atomContent, Model.atomContent, hmeaning]
  cases m.valuation.meaning? a with
  | none => exact hempty.symm
  | some c => rfl

theorem permute : (m.permute π).Placed where
  n_lt := hm.n_lt
  possible := StateSet.permute_located hm.possible
  located a s hs := by
    rw [atomContent] at hs
    exact hs.elim (StateSet.permute_located (fun s hs => hm.located a s (.inl hs)) s)
      (StateSet.permute_located (fun s hs => hm.located a s (.inr hs)) s)

end Model.Placed

/-! Conditions on states and their images. -/

section transfer

variable (hm : m.Placed) {P Q P' Q' R S R' S' : State → Prop}

/-- One condition holds of the image of a state just if the other holds of the state, and both only of states
of the space. -/
structure Matches (m : Model) (π : Equiv.Perm (Fin m.space.n)) (P P' : State → Prop) : Prop where
  placed : ∀ s, P s → s ∈ m.space.states
  placed' : ∀ s, P' s → s ∈ m.space.states
  iff : ∀ s ∈ m.space.states, (P' (s.permute π) ↔ P s)

namespace Matches

theorem congr (hP : Matches m π P P') (hPQ : ∀ s, Q s ↔ P s) (hPQ' : ∀ s, Q' s ↔ P' s) : Matches m π Q Q' where
  placed s hs := hP.placed s ((hPQ s).1 hs)
  placed' s hs := hP.placed' s ((hPQ' s).1 hs)
  iff s hs := (hPQ' _).trans ((hP.iff s hs).trans (hPQ s).symm)

theorem or (hP : Matches m π P P') (hQ : Matches m π Q Q') : Matches m π (fun s => P s ∨ Q s) fun s => P' s ∨ Q' s where
  placed s hs := hs.elim (hP.placed s) (hQ.placed s)
  placed' s hs := hs.elim (hP.placed' s) (hQ.placed' s)
  iff s hs := or_congr (hP.iff s hs) (hQ.iff s hs)

variable (hP : Matches m π P P') (hQ : Matches m π Q Q') (hR : Matches m π R R') (hS : Matches m π S S')
include hm

include hP in
theorem forall_iff {T U : State → Prop} (hT : ∀ s ∈ m.space.states, (U (s.permute π) ↔ T s)) :
    (∀ s, P' s → U s) ↔ ∀ s, P s → T s := by
  constructor
  · intro h s hs
    have hsm := hP.placed s hs
    exact (hT s hsm).1 (h _ ((hP.iff s hsm).2 hs))
  · intro h s hs
    obtain ⟨r, hr, rfl⟩ := hm.exists_image π (hP.placed' s hs)
    exact (hT r hr).2 (h r ((hP.iff r hr).1 hs))

include hP in
theorem exists_iff {T T' : State → Prop} (hT : ∀ s ∈ m.space.states, (T' (s.permute π) ↔ T s)) :
    (∃ s, P' s ∧ T' s) ↔ ∃ s, P s ∧ T s := by
  have h := forall_iff hm hP (T := fun s => ¬ T s) (U := fun s => ¬ T' s) fun s hs => not_congr (hT s hs)
  rw [← not_iff_not]
  push Not
  exact h

include hP hQ in
theorem fused : Matches m π (Meaning.Fused P Q) (Meaning.Fused P' Q') where
  placed _ hs := hs.mem_states hP.placed hQ.placed
  placed' _ hs := hs.mem_states hP.placed' hQ.placed'
  iff s hs := hP.exists_iff hm fun x hx => by
    rw [hQ.exists_iff hm (T := fun y => x.fusion y = s) fun y hy => ?_]
    rw [← State.permute_fusion, hm.inj (hm.fusion hx hy) hs]

include hP hQ in
theorem joined : Matches m π (Meaning.Joined P Q) (Meaning.Joined P' Q') where
  placed _ hs := hs.mem_states hP.placed hQ.placed
  placed' _ hs := hs.mem_states hP.placed' hQ.placed'
  iff := ((hP.or hQ).or (fused hm hP hQ)).iff

include hP hQ hR hS in
theorem grounds : Meaning.Grounds P' Q' R' S' ↔ Meaning.Grounds P Q R S := by
  refine and_congr (hP.forall_iff hm hR.iff) (and_congr ?_ ?_)
  · refine hQ.forall_iff hm fun x hx => hS.forall_iff hm fun y hy => ?_
    rw [← State.permute_fusion]
    exact hS.iff _ (hm.fusion hx hy)
  · exact hS.forall_iff hm fun y hy => hQ.exists_iff hm fun x hx => by rw [hm.isPartOf hx]

include hP hQ in
theorem same : (∀ s, P' s ↔ Q' s) ↔ ∀ s, P s ↔ Q s := by
  have hPQ := hP.forall_iff hm hQ.iff
  have hQP := hQ.forall_iff hm hP.iff
  simp only [iff_iff_implies_and_implies, forall_and, hPQ, hQP]

end Matches

end transfer

theorem Model.Placed.matches_image (hm : m.Placed) {c : StateSet} (hc : ∀ s ∈ c, s ∈ m.space.states) :
    Matches m π (· ∈ c) (· ∈ c.permute π) :=
  ⟨hc, StateSet.permute_located hc, fun _ hs => StateSet.permute_mem_permute hc (hm.mem_states.1 hs)⟩

/-! What formulas mean. -/

/-- A meaning in a model, and one in its image, that say the same of states and their images. -/
structure Mirrors (m : Model) (π : Equiv.Perm (Fin m.space.n)) (a a' : Meaning) : Prop where
  holds : ∀ w ∈ m.space.states, (a'.Holds (w.permute π) ↔ a.Holds w)
  verifies : ∀ w ∈ m.space.states, Matches m π (a.Verifies w) (a'.Verifies (w.permute π))
  falsifies : ∀ w ∈ m.space.states, Matches m π (a.Falsifies w) (a'.Falsifies (w.permute π))

namespace Mirrors

variable (hm : m.Placed) {a b a' b' : Meaning}

include hm in
theorem ofTruth {truth truth' : State → Except Failure Bool} {P P' : State → Prop}
    (h : ∀ w, Gives (truth w) fun t => t = true ↔ P w) (h' : ∀ w, Gives (truth' w) fun t => t = true ↔ P' w)
    (hP : ∀ w ∈ m.space.states, (P' (w.permute π) ↔ P w)) : Mirrors m π (.ofTruth truth) (.ofTruth truth') := by
  have hnull : State.null ∈ m.space.states := hm.mem_states.2 m.space.size_pos
  have hmatch : ∀ {T T' : Prop}, (T' ↔ T) → Matches m π (fun s => s = .null ∧ T) fun s => s = .null ∧ T' := by
    refine fun hT => ⟨fun s hs => hs.1 ▸ hnull, fun s hs => hs.1 ▸ hnull, fun s hs => ?_⟩
    have hiff : s.permute π = .null ↔ s = .null := by
      conv_lhs => rw [← State.permute_null π]
      exact hm.inj hs hnull
    rw [hT, hiff]
  refine ⟨fun w hw => ?_, fun w hw => ?_, fun w hw => ?_⟩
  · rw [Meaning.holds_ofTruth h, Meaning.holds_ofTruth h', hP w hw]
  · exact (hmatch (hP w hw)).congr (Meaning.verifies_ofTruth h w) (Meaning.verifies_ofTruth h' _)
  · exact (hmatch (not_congr (hP w hw))).congr (Meaning.falsifies_ofTruth h w) (Meaning.falsifies_ofTruth h' _)

/-- A meaning with the same content at every state. -/
theorem ofContent {c c' : Content} (hc : ∀ w, a.content w = .ok c) (hc' : ∀ w, a'.content w = .ok c')
    (hver : Matches m π (· ∈ c.ver) (· ∈ c'.ver)) (hfal : Matches m π (· ∈ c.fal) (· ∈ c'.fal))
    (hholds : ∀ w ∈ m.space.states, (a'.Holds (w.permute π) ↔ a.Holds w)) : Mirrors m π a a' where
  holds := hholds
  verifies w _ := hver.congr (fun _ => Meaning.verifies_iff (hc w)) fun _ => Meaning.verifies_iff (hc' _)
  falsifies w _ := hfal.congr (fun _ => Meaning.falsifies_iff (hc w)) fun _ => Meaning.falsifies_iff (hc' _)

section operators

variable (ha : Mirrors m π a a') (hb : Mirrors m π b b') (hpa : a.Total) (hpb : b.Total)
  (hpa' : a'.Total) (hpb' : b'.Total)

include ha hpa hpa' in
theorem neg : Mirrors m π a.neg a'.neg where
  holds w hw := by rw [Meaning.holds_neg hpa, Meaning.holds_neg hpa', ha.holds w hw]
  verifies w hw := (ha.falsifies w hw).congr (Meaning.verifies_neg hpa w) (Meaning.verifies_neg hpa' _)
  falsifies w hw := (ha.verifies w hw).congr (Meaning.falsifies_neg hpa w) (Meaning.falsifies_neg hpa' _)

include hm ha hb hpa hpb hpa' hpb'

theorem and : Mirrors m π (a.and b) (a'.and b') where
  holds w hw := by rw [Meaning.holds_and hpa hpb, Meaning.holds_and hpa' hpb', ha.holds w hw, hb.holds w hw]
  verifies w hw := ((ha.verifies w hw).fused hm (hb.verifies w hw)).congr (Meaning.verifies_and hpa hpb w)
    (Meaning.verifies_and hpa' hpb' _)
  falsifies w hw := ((ha.falsifies w hw).joined hm (hb.falsifies w hw)).congr (Meaning.falsifies_and hpa hpb w)
    (Meaning.falsifies_and hpa' hpb' _)

theorem or : Mirrors m π (a.or b) (a'.or b') where
  holds w hw := by rw [Meaning.holds_or hpa hpb, Meaning.holds_or hpa' hpb', ha.holds w hw, hb.holds w hw]
  verifies w hw := ((ha.verifies w hw).joined hm (hb.verifies w hw)).congr (Meaning.verifies_or hpa hpb w)
    (Meaning.verifies_or hpa' hpb' _)
  falsifies w hw := ((ha.falsifies w hw).fused hm (hb.falsifies w hw)).congr (Meaning.falsifies_or hpa hpb w)
    (Meaning.falsifies_or hpa' hpb' _)

theorem ground : Mirrors m π (a.ground b) (a'.ground b') :=
  .ofTruth hm (Meaning.truth_ground hpa hpb) (Meaning.truth_ground hpa' hpb') fun w hw =>
    (ha.verifies w hw).grounds hm (ha.falsifies w hw) (hb.verifies w hw) (hb.falsifies w hw)

theorem essence : Mirrors m π (a.essence b) (a'.essence b') :=
  .ofTruth hm (Meaning.truth_essence hpa hpb) (Meaning.truth_essence hpa' hpb') fun w hw =>
    (ha.falsifies w hw).grounds hm (ha.verifies w hw) (hb.falsifies w hw) (hb.verifies w hw)

theorem identity : Mirrors m π (a.identity b) (a'.identity b') :=
  .ofTruth hm (Meaning.truth_identity hpa hpb) (Meaning.truth_identity hpa' hpb') fun w hw => by
    rw [forall_and, forall_and, (ha.verifies w hw).same hm (hb.verifies w hw),
      (ha.falsifies w hw).same hm (hb.falsifies w hw)]

end operators

end Mirrors

/-- Every formula says of the image of a state in the image of the model what it says of the state. -/
theorem Model.Placed.mirrors (hm : m.Placed) {letters : List Atom} {f : Formula} (hf : Sentence letters f) :
    Mirrors m π (m.meaning f) ((m.permute π).meaning f) := by
  have hm' : (m.permute π).Placed := hm.permute
  have hp : ∀ {f : Formula}, Sentence letters f → (m.meaning f).Total :=
    Model.total_of_sentence hm.countable
  have hp' : ∀ {f : Formula}, Sentence letters f → ((m.permute π).meaning f).Total :=
    Model.total_of_sentence hm'.countable
  have hall : Matches m π (· ∈ StateSet.ofSpace m.space) (· ∈ StateSet.ofSpace m.space) := by
    simp only [StateSet.mem_ofSpace]
    exact ⟨fun s hs => hs, fun s hs => hs, fun s hs => iff_of_true (hm.permute_mem π s) hs⟩
  have hnone : Matches m π (· ∈ StateSet.empty) (· ∈ StateSet.empty) := by
    simp only [StateSet.not_mem_empty]
    exact ⟨fun s hs => hs.elim, fun s hs => hs.elim, fun s _ => Iff.rfl⟩
  have hworlds : Matches m π (· ∈ m.worlds) (· ∈ (m.permute π).worlds) :=
    ⟨fun s hs => (Model.mem_worlds.1 hs).1, fun s hs => (Model.mem_worlds.1 hs).1, fun s hs => hm.mem_worlds hs⟩
  have houtcomes : ∀ w ∈ m.space.states, ∀ x ∈ m.space.states, Matches m π (· ∈ m.alternatives w x)
      (· ∈ (m.permute π).alternatives (w.permute π) (x.permute π)) := fun w hw x hx =>
    ⟨fun s hs => hworlds.placed s (Model.mem_alternatives.1 hs).1,
      fun s hs => hworlds.placed' s (Model.mem_alternatives.1 hs).1, fun s hs => hm.mem_alternatives hs hw hx⟩
  induction hf with
  | @atom a _ =>
    have hplaced : (∀ s ∈ (m.atomContent a).ver, s ∈ m.space.states) ∧ ∀ s ∈ (m.atomContent a).fal, s ∈ m.space.states :=
      ⟨fun s hs => hm.located a s (.inl hs), fun s hs => hm.located a s (.inr hs)⟩
    have hholds : ∀ (k : Model) (w : State), (k.meaning (.atom a)).Holds w ↔
        ∃ s, s ∈ (k.atomContent a).ver ∧ s.isPartOf w = true := fun k w => by
      rw [Meaning.Holds, Model.meaning, Except.ok.injEq, List.any_eq_true]
      rfl
    refine .ofContent (fun w => rfl) (fun w => congrArg Except.ok (Model.Placed.atomContent a)) (hm.matches_image hplaced.1)
      (hm.matches_image hplaced.2) fun w hw => ?_
    rw [hholds, hholds, Model.Placed.atomContent]
    exact (hm.matches_image hplaced.1).exists_iff hm fun s hs => by rw [hm.isPartOf hs]
  | top =>
    exact .ofContent (fun w => Meaning.ofFault_counting hm.countable _) (fun w => Meaning.ofFault_counting hm'.countable _)
      hall hnone fun w _ => Iff.rfl
  | bot =>
    exact .ofContent (fun w => Meaning.ofFault_counting hm.countable _) (fun w => Meaning.ofFault_counting hm'.countable _)
      hnone hall fun w _ => Iff.rfl
  | neg ha iha => exact iha.neg (hp ha) (hp' ha)
  | box ha iha =>
    exact .ofTruth hm (Meaning.truth_box hm.countable (hp ha)) (Meaning.truth_box hm'.countable (hp' ha)) fun w _ =>
      hworlds.forall_iff hm iha.holds
  | diamond ha iha =>
    exact .ofTruth hm (Meaning.truth_diamond hm.countable (hp ha)) (Meaning.truth_diamond hm'.countable (hp' ha)) fun w _ =>
      hworlds.exists_iff hm iha.holds
  | and ha hb iha ihb => exact iha.and hm ihb (hp ha) (hp hb) (hp' ha) (hp' hb)
  | or ha hb iha ihb => exact iha.or hm ihb (hp ha) (hp hb) (hp' ha) (hp' hb)
  | boxRight ha hb iha ihb =>
    exact .ofTruth hm (Meaning.truth_boxRight hm.countable (hp ha) (hp hb))
      (Meaning.truth_boxRight hm'.countable (hp' ha) (hp' hb)) fun w hw =>
        (iha.verifies w hw).forall_iff hm fun x hx => (houtcomes w hw x hx).forall_iff hm ihb.holds
  | diamondRight ha hb iha ihb =>
    exact .ofTruth hm (Meaning.truth_diamondRight hm.countable (hp ha) (hp hb))
      (Meaning.truth_diamondRight hm'.countable (hp' ha) (hp' hb)) fun w hw =>
        (iha.verifies w hw).exists_iff hm fun x hx => (houtcomes w hw x hx).exists_iff hm ihb.holds
  | ground ha hb iha ihb => exact iha.ground hm ihb (hp ha) (hp hb) (hp' ha) (hp' hb)
  | essence ha hb iha ihb => exact iha.essence hm ihb (hp ha) (hp hb) (hp' ha) (hp' hb)
  | identity ha hb iha ihb => exact iha.identity hm ihb (hp ha) (hp hb) (hp' ha) (hp' hb)

theorem Model.Placed.isTrue_permute (hm : m.Placed) {letters : List Atom} {f : Formula} (hf : Sentence letters f)
    {w : State} (hw : w ∈ m.space.states) : (m.permute π).isTrue f (w.permute π) = m.isTrue f w := by
  obtain ⟨t, ht⟩ := (Model.total_of_sentence hm.countable hf).truth w
  obtain ⟨t', ht'⟩ := (Model.total_of_sentence (hm.permute (π := π)).countable hf).truth (w.permute π)
  have hiff := (hm.mirrors (π := π) hf).holds w hw
  rw [Meaning.Holds, Meaning.Holds, ht, ht', Except.ok.injEq, Except.ok.injEq, ← Bool.eq_iff_iff] at hiff
  exact ht'.trans (hiff ▸ ht.symm)

/-! Admissible models. -/

theorem Model.Allows.permute (hm : m.Placed) {settings : Settings} {c : Content} (hc : m.Allows settings c) :
    (m.permute π).Allows settings (c.permute π) := by
  have hver := hm.matches_image (π := π) fun s hs => hc.located s (.inl hs)
  have hfal := hm.matches_image (π := π) fun s hs => hc.located s (.inr hs)
  have hpossible := hm.matches_image (π := π) hm.possible
  have hclosed : ∀ {a : StateSet}, Matches m π (· ∈ a) (· ∈ a.permute π) → (∀ x ∈ a, ∀ y ∈ a, x.fusion y ∈ a) →
      ∀ x ∈ a.permute π, ∀ y ∈ a.permute π, x.fusion y ∈ a.permute π := by
    intro a ha h
    refine (ha.forall_iff hm fun x hx => ha.forall_iff hm fun y hy => ?_).2 h
    rw [← State.permute_fusion]
    exact ha.iff _ (hm.fusion hx hy)
  refine ⟨fun s hs => hs.elim (hver.placed' s) (hfal.placed' s), hclosed hver hc.ver_closed, hclosed hfal hc.fal_closed,
    ?_, fun w hw => ?_, fun ht => ?_, fun ht => ?_, fun ht => ?_⟩
  · refine (hver.forall_iff hm fun x hx => hfal.forall_iff hm fun y hy => ?_).2 hc.exclusive
    rw [← State.permute_fusion, hm.mem_possible (hm.fusion hx hy)]
  · obtain ⟨u, hu, rfl⟩ := hm.exists_image π (hm.permute.possible w (Model.isWorld_iff.1 hw).1)
    obtain ⟨y, hyu, hy⟩ := hc.exhaustive u ((hm.isWorld hu).1 hw)
    have hym := hm.part hu hyu
    exact ⟨y.permute π, (hm.isPartOf hym).trans hyu, hy.imp (hver.iff y hym).2 (hfal.iff y hym).2⟩
  · exact (hc.contingent ht).imp (hpossible.exists_iff hm hver.iff).2 (hpossible.exists_iff hm hfal.iff).2
  · have hsome : ∀ {a : StateSet}, (∃ s, s ∈ a) → ∃ s, s ∈ a.permute π := fun {a} h => by
      obtain ⟨s, hs⟩ := h
      exact ⟨s.permute π, StateSet.mem_permute.2 ⟨s, hs, rfl⟩⟩
    exact (hc.nonEmpty ht).imp hsome hsome
  · have hnull : State.null ∈ m.space.states := hm.mem_states.2 m.space.size_pos
    have hfixed : ∀ {a : StateSet}, Matches m π (· ∈ a) (· ∈ a.permute π) → .null ∉ a → .null ∉ a.permute π := by
      intro a ha h
      rw [← State.permute_null π, ha.iff _ hnull]
      exact h
    exact (hc.nonNull ht).imp (hfixed hver) (hfixed hfal)

namespace Model.Admissible

variable {settings : Settings} {letters : List Atom} (hm : m.Admissible settings letters)
include hm

theorem n_lt : m.space.n < 32 := (StateSpace.mem_states.1 hm.eval_mem).1

theorem placed : m.Placed where
  n_lt := hm.n_lt
  possible := hm.mem_states
  located a s hs := by
    rw [Model.atomContent] at hs
    cases h : m.valuation.meaning? a with
    | none => simp [h, Content.empty] at hs
    | some c =>
      rw [h, Option.getD_some] at hs
      exact (hm.allows (a, c) (Valuation.mem_of_meaning? h)).located s hs

theorem permute (π : Equiv.Perm (Fin m.space.n)) : (m.permute π).Admissible settings letters := by
  have hp := hm.placed
  have hpossible := hp.matches_image (π := π) hp.possible
  refine { mem_states := hpossible.placed', part := fun s hs t ht => ?_, null := ?_, eval := ?_, space_eq := hm.space_eq,
           letters_eq := ?_, allows := ?_, disjoint := fun hd => ?_ }
  · have hsm := hpossible.placed' s hs
    obtain ⟨r, hr, rfl⟩ := hp.exists_image π hsm
    obtain ⟨q, hq, rfl⟩ := hp.exists_image π (hp.part hsm ht)
    exact (hp.mem_possible hq).2 (hm.part r ((hp.mem_possible hr).1 hs) q ((hp.isPartOf hq).symm.trans ht))
  · rw [← State.permute_null π]
    exact (hp.mem_possible (hp.mem_states.2 m.space.size_pos)).2 hm.null
  · exact (hp.isWorld hm.eval_mem).2 hm.eval
  · rw [← hm.letters_eq]
    simp [Valuation.letters, Model.permute]
  · exact List.forall_mem_map.2 fun p hmem => (hm.allows p hmem).permute hp
  · have hsides : ∀ p ∈ m.valuation, Matches m π (fun s => s ∈ p.2.ver ∨ s ∈ p.2.fal)
        fun s => s ∈ (p.2.permute π).ver ∨ s ∈ (p.2.permute π).fal := fun p hmem =>
      (hp.matches_image fun s hs => (hm.allows p hmem).located s (.inl hs)).or
        (hp.matches_image fun s hs => (hm.allows p hmem).located s (.inr hs))
    refine List.pairwise_map.2 ((hm.disjoint hd).imp_of_mem fun {p q} hpm hqm h => ?_)
    refine ((hsides p hpm).forall_iff hp fun x hx => (hsides q hqm).forall_iff hp fun y _ => ?_).2 h
    rw [State.overlaps_permute (hp.mem_states.1 hx)]

end Model.Admissible

end Countermodels.Truthmaker
