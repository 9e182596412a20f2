import Countermodels.Proofs.Truthmaker.Proposition

/-! Ground and essence. To ground a sentence is to make no difference to it as a disjunct, and to be essential to it is to
make no difference as a conjunct. Both are tested on verifiers and falsifiers without building the content of the
disjunction or the conjunction. The test is right because contents are closed under fusion: the fusions that a disjunction
adds are then verifiers already. Nothing is asked of the possible states, of the space or of how verifiers and falsifiers
go together, and where a content cannot be found, neither test gives an answer. -/

namespace Countermodels.Truthmaker

variable {m : Model} {c d : Content} {V W : State → Prop} {f g : Formula} {s w : State}

theorem Closed.congr (h : Closed V) (hVW : ∀ s, W s ↔ V s) : Closed W := fun x hx y hy =>
  (hVW _).2 (h x ((hVW x).1 hx) y ((hVW y).1 hy))

namespace Content

theorem mem_ver_or : s ∈ (c.or d).ver ↔ Meaning.Joined (· ∈ c.ver) (· ∈ d.ver) s := by
  simp [or, Meaning.Joined, Meaning.Fused]

theorem mem_fal_or : s ∈ (c.or d).fal ↔ Meaning.Fused (· ∈ c.fal) (· ∈ d.fal) s := by
  simp [or, Meaning.Fused]

/-- The conjunction is the dual of the disjunction. -/
theorem and_eq_swapped (c d : Content) : c.and d = (c.swapped.or d.swapped).swapped := rfl

theorem swapped_inj : c.swapped = d.swapped ↔ c = d := ⟨congrArg swapped, congrArg swapped⟩

theorem eq_iff : c = d ↔ (∀ s, s ∈ c.ver ↔ s ∈ d.ver) ∧ ∀ s, s ∈ c.fal ↔ s ∈ d.fal := by
  obtain ⟨cv, cf⟩ := c
  obtain ⟨dv, df⟩ := d
  rw [mk.injEq, StateSet.ext_mem_iff, StateSet.ext_mem_iff]

/-- The verifiers and the falsifiers are closed under fusion. -/
structure FusionClosed (c : Content) : Prop where
  ver : Closed (· ∈ c.ver)
  fal : Closed (· ∈ c.fal)

namespace FusionClosed

theorem swapped (hc : c.FusionClosed) : c.swapped.FusionClosed := ⟨hc.fal, hc.ver⟩

theorem or (hc : c.FusionClosed) (hd : d.FusionClosed) : (c.or d).FusionClosed where
  ver := (hc.ver.joined hd.ver).congr fun _ => mem_ver_or
  fal := (hc.fal.fused hd.fal).congr fun _ => mem_fal_or

theorem and (hc : c.FusionClosed) (hd : d.FusionClosed) : (c.and d).FusionClosed :=
  (hc.swapped.or hd.swapped).swapped

theorem empty : Content.empty.FusionClosed where
  ver _ hx := absurd hx StateSet.not_mem_empty
  fal _ hx := absurd hx StateSet.not_mem_empty

theorem ofSpace (space : StateSpace) : (Content.mk (.ofSpace space) .empty).FusionClosed where
  ver := (closed_states space).congr fun _ => StateSet.mem_ofSpace
  fal _ hx := absurd hx StateSet.not_mem_empty

theorem ofBool (b : Bool) : (Content.ofBool b).FusionClosed := by
  have hnull : (Content.mk (.singleton .null) .empty).FusionClosed := by
    refine ⟨fun x hx y hy => ?_, fun x hx => absurd hx StateSet.not_mem_empty⟩
    obtain rfl := StateSet.mem_singleton.1 hx
    obtain rfl := StateSet.mem_singleton.1 hy
    exact StateSet.mem_singleton.2 (State.null_fusion _)
  cases b
  · exact hnull.swapped
  · exact hnull

end FusionClosed

/-- The test for ground finds whether the first content makes no difference to the second as a disjunct. -/
theorem grounds_eq_or (hd : d.FusionClosed) : c.grounds d = decide (c.or d = d) := by
  rw [Bool.eq_iff_iff, Meaning.content_grounds_iff, decide_eq_true_eq, eq_iff]
  simp only [mem_ver_or, mem_fal_or]
  constructor
  · rintro ⟨hver, hfal, hpart⟩
    refine ⟨fun s => ⟨?_, fun hs => .inl (.inr hs)⟩, fun s => ⟨?_, fun hs => ?_⟩⟩
    · rintro ((hs | hs) | ⟨x, hx, y, hy, rfl⟩)
      · exact hver s hs
      · exact hs
      · exact hd.ver x (hver x hx) y hy
    · rintro ⟨x, hx, y, hy, rfl⟩
      exact hfal x hx y hy
    · -- a falsifier that has one of the first content as a part is its fusion with it
      obtain ⟨x, hx, hxs⟩ := hpart s hs
      refine ⟨x, hx, s, hs, State.isPartOf_antisymm ?_ (State.isPartOf_fusion_right x s)⟩
      exact State.fusion_isPartOf.2 ⟨hxs, State.isPartOf_refl s⟩
  · rintro ⟨hver, hfal⟩
    refine ⟨fun s hs => (hver s).1 (.inl (.inl hs)), fun x hx y hy => (hfal _).1 ⟨x, hx, y, hy, rfl⟩, fun y hy => ?_⟩
    obtain ⟨x, hx, z, -, rfl⟩ := (hfal y).2 hy
    exact ⟨x, hx, State.isPartOf_fusion_left x z⟩

/-- The same for essence and conjunction. -/
theorem swapped_grounds_eq_and (hd : d.FusionClosed) : c.swapped.grounds d.swapped = decide (c.and d = d) := by
  rw [grounds_eq_or hd.swapped, and_eq_swapped, decide_eq_decide]
  exact swapped_inj.symm

end Content

/-- The contents of the letters are closed under fusion. -/
def Model.FusionClosed (m : Model) : Prop := ∀ p ∈ m.valuation, p.2.FusionClosed

/-- Counting the states does not change a result. -/
theorem Model.eq_of_counting {α : Type} {r a : α} (h : Failure.ofFault (m.counting r) = .ok a) : a = r := by
  rw [counting] at h
  cases hcount : m.space.count with
  | error e =>
    rw [hcount] at h
    cases h
  | ok k =>
    rw [hcount] at h
    cases h
    rfl

theorem Meaning.content_ofTruth_closed {truth : State → Except Failure Bool}
    (h : (Meaning.ofTruth truth).content w = .ok c) : c.FusionClosed := by
  obtain ⟨t, -, ht⟩ := bind_eq_ok.1 h
  cases ht
  exact .ofBool t

namespace Model.FusionClosed

theorem atomContent (hm : m.FusionClosed) (a : Atom) : (m.atomContent a).FusionClosed := by
  rw [Model.atomContent]
  cases hmeaning : m.valuation.meaning? a with
  | none => exact .empty
  | some c => exact hm (a, c) (Valuation.mem_of_meaning? hmeaning)

/-- All contents are closed under fusion. -/
theorem content (hm : m.FusionClosed) (h : m.content f w = .ok c) : c.FusionClosed := by
  induction f generalizing c with
  | atom a =>
    cases h
    exact hm.atomContent a
  | top => exact eq_of_counting h ▸ .ofSpace m.space
  | bot => exact eq_of_counting h ▸ (Content.FusionClosed.ofSpace m.space).swapped
  | unary op a ih =>
    cases op with
    | neg =>
      obtain ⟨b, hb, hc⟩ := bind_eq_ok.1 h
      cases hc
      exact (ih hb).swapped
    | _ => exact Meaning.content_ofTruth_closed h
  | binary op a b iha ihb =>
    cases op with
    | and =>
      obtain ⟨ca, ha, h⟩ := bind_eq_ok.1 h
      obtain ⟨cb, hb, hc⟩ := bind_eq_ok.1 h
      cases hc
      exact (iha ha).and (ihb hb)
    | or =>
      obtain ⟨ca, ha, h⟩ := bind_eq_ok.1 h
      obtain ⟨cb, hb, hc⟩ := bind_eq_ok.1 h
      cases hc
      exact (iha ha).or (ihb hb)
    | _ => exact Meaning.content_ofTruth_closed h

end Model.FusionClosed

namespace Meaning

variable {a b : Meaning}

/-- Grounding is leaving the disjunction with the same content, also where there is no answer. -/
theorem ground_truth_eq (hb : ∀ d, b.content w = .ok d → d.FusionClosed) :
    (a.ground b).truth w = ((a.or b).identity b).truth w := by
  simp only [ground, identity, or, ofTruth]
  cases a.content w with
  | error e => rfl
  | ok c =>
    cases hd : b.content w with
    | error e => rfl
    | ok d => exact congrArg Except.ok (Content.grounds_eq_or (hb d hd))

theorem essence_truth_eq (hb : ∀ d, b.content w = .ok d → d.FusionClosed) :
    (a.essence b).truth w = ((a.and b).identity b).truth w := by
  simp only [essence, identity, and, ofTruth]
  cases a.content w with
  | error e => rfl
  | ok c =>
    cases hd : b.content w with
    | error e => rfl
    | ok d => exact congrArg Except.ok (Content.swapped_grounds_eq_and (hb d hd))

/-- Essence is ground between the negations. -/
theorem essence_eq_ground_neg : (a.essence b).truth w = (a.neg.ground b.neg).truth w := by
  simp only [essence, ground, neg, ofTruth]
  cases a.content w with
  | error e => rfl
  | ok c => cases b.content w <;> rfl

end Meaning

/-- Where the contents of the letters are closed under fusion: a sentence grounds another just if their disjunction is
identical to the other, it is essential to it just if their conjunction is, and it is essential to it just if its negation
grounds the other's. The two sides have the same truth value, or give up in the same way; in a space with fewer than 32
atomic states they have a truth value. -/
theorem ground_and_essence_are_identities (hm : m.FusionClosed)
    (hf : ∀ op ∈ f.operators, op ∈ Theory.counterfactual.primitives)
    (hg : ∀ op ∈ g.operators, op ∈ Theory.counterfactual.primitives) (w : State) :
    m.isTrue (.binary .ground f g) w = m.isTrue (.binary .identity (.binary .or f g) g) w ∧
    m.isTrue (.binary .essence f g) w = m.isTrue (.binary .identity (.binary .and f g) g) w ∧
    m.isTrue (.binary .essence f g) w = m.isTrue (.binary .ground (.unary .neg f) (.unary .neg g)) w ∧
    (m.space.n < 32 → (∃ t, m.isTrue (.binary .ground f g) w = .ok t) ∧ ∃ t, m.isTrue (.binary .essence f g) w = .ok t) := by
  have hclosed : ∀ d, (m.meaning g).content w = .ok d → d.FusionClosed := fun d hd => hm.content hd
  refine ⟨Meaning.ground_truth_eq hclosed, Meaning.essence_truth_eq hclosed, Meaning.essence_eq_ground_neg, fun hn => ?_⟩
  have hf' : Sentence (f.atoms ++ g.atoms) f := .of_over ⟨hf, fun a ha => List.mem_append_left _ ha⟩
  have hg' : Sentence (f.atoms ++ g.atoms) g := .of_over ⟨hg, fun a ha => List.mem_append_right _ ha⟩
  have htotal : ∀ {k}, Sentence (f.atoms ++ g.atoms) k → (m.meaning k).Total := Model.total_of_sentence (by omega)
  exact ⟨(htotal (.ground hf' hg')).truth w, (htotal (.essence hf' hg')).truth w⟩

theorem Model.Lawful.fusionClosed (hm : m.Lawful) : m.FusionClosed := fun p hp =>
  ⟨(hm.letter p hp).ver_closed, (hm.letter p hp).fal_closed⟩

/-- At an impossible state: the letter grounds that it or its negation holds, and is not essential to it. -/
theorem ground_and_essence_are_identities_split :
    let a := Formula.atom splitLetter
    let b := Formula.binary .or a (.unary .neg a)
    split.FusionClosed ∧ (∀ op ∈ a.operators, op ∈ Theory.counterfactual.primitives) ∧
      (∀ op ∈ b.operators, op ∈ Theory.counterfactual.primitives) ∧
      split.isTrue (.binary .ground a b) ⟨3⟩ = .ok true ∧
      split.isTrue (.binary .identity (.binary .or a b) b) ⟨3⟩ = .ok true ∧
      split.isTrue (.binary .essence a b) ⟨3⟩ = .ok false ∧
      split.isTrue (.binary .identity (.binary .and a b) b) ⟨3⟩ = .ok false ∧
      split.isTrue (.binary .ground (.unary .neg a) (.unary .neg b)) ⟨3⟩ = .ok false := by
  intro a b
  have ha : a.Over Theory.counterfactual.primitives split.valuation.letters := Formula.over_atom.2 (by decide)
  have hb : b.Over Theory.counterfactual.primitives split.valuation.letters := by
    simp only [a, b, Formula.over_unary, Formula.over_binary, Formula.over_atom]
    decide
  have hground : split.isTrue (.binary .ground a b) ⟨3⟩ = .ok true := by cbv
  have hessence : split.isTrue (.binary .essence a b) ⟨3⟩ = .ok false := by cbv
  obtain ⟨hor, hand, hneg, -⟩ :=
    ground_and_essence_are_identities split_admissible.lawful.fusionClosed ha.1 hb.1 ⟨3⟩
  exact ⟨split_admissible.lawful.fusionClosed, ha.1, hb.1, hground, hor ▸ hground, hessence, hand ▸ hessence,
    hneg ▸ hessence⟩

end Countermodels.Truthmaker
