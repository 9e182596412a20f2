import Countermodels.Proofs.Formula.Valuation
import Countermodels.Proofs.Truthmaker.Opening

/-! The clauses on the contents of letters. -/

namespace Countermodels.Truthmaker.Frame

variable {f : Frame} {n : Nat} {c d : ContentLits} {settings : Settings}

/-- The demands on the content of one letter. -/
structure Constrained (f : Frame) (settings : Settings) (c : ContentLits) (σ : Nat → Bool) : Prop where
  ver_closed : ∀ x ∈ f.space.states, ∀ y ∈ f.space.states, (litAt c.ver x).holds σ = true →
    (litAt c.ver y).holds σ = true → (litAt c.ver (x.fusion y)).holds σ = true
  fal_closed : ∀ x ∈ f.space.states, ∀ y ∈ f.space.states, (litAt c.fal x).holds σ = true →
    (litAt c.fal y).holds σ = true → (litAt c.fal (x.fusion y)).holds σ = true
  exclusive : ∀ x ∈ f.space.states, ∀ y ∈ f.space.states, (litAt c.ver x).holds σ = true →
    (litAt c.fal y).holds σ = true → (f.isPossible (x.fusion y)).holds σ = false
  exhaustive : ∀ w ∈ f.space.states, (f.isWorld w).holds σ = true →
    ∃ y, y.isPartOf w = true ∧ ((litAt c.ver y).holds σ = true ∨ (litAt c.fal y).holds σ = true)
  contingent : settings.contingent = true →
    (∃ s ∈ f.space.states, (f.isPossible s).holds σ = true ∧ (litAt c.ver s).holds σ = true) ∧
      ∃ s ∈ f.space.states, (f.isPossible s).holds σ = true ∧ (litAt c.fal s).holds σ = true
  nonEmpty : settings.nonEmpty = true →
    (∃ l ∈ c.ver, l.holds σ = true) ∧ ∃ l ∈ c.fal, l.holds σ = true
  nonNull : settings.nonNull = true →
    (litAt c.ver .null).holds σ = false ∧ (litAt c.fal .null).holds σ = false

/-- What holds of fusions in ascending order holds of all of them. -/
theorem fusion_of_ordered {P : State → Prop} {x y : State} (hxy : x < y → P x → P y → P (x.fusion y))
    (hyx : y < x → P y → P x → P (y.fusion x)) (hx : P x) (hy : P y) : P (x.fusion y) := by
  rcases Nat.lt_trichotomy x.bits y.bits with h | h | h
  · exact hxy h hx hy
  · have heq : x = y := congrArg State.mk h
    rw [heq, State.fusion_self]
    exact hy
  · rw [State.fusion_comm]
    exact hyx h hy hx

theorem imposes_contentIsClosed (hf : f.Known n) (hc : c.Tabled f.space n) :
    Imposes n (f.contentIsClosed c) fun σ => ∀ x ∈ f.space.states, ∀ y ∈ f.space.states,
      (x < y → ((litAt c.ver x).holds σ = true → (litAt c.ver y).holds σ = true →
          (litAt c.ver (x.fusion y)).holds σ = true) ∧
        ((litAt c.fal x).holds σ = true → (litAt c.fal y).holds σ = true →
          (litAt c.fal (x.fusion y)).holds σ = true)) ∧
      ((litAt c.ver x).holds σ = true → (litAt c.fal y).holds σ = true →
        (f.isPossible (x.fusion y)).holds σ = false) := by
  refine .forM fun x hx => .forM fun y hy => ?_
  have hx' := (StateSpace.mem_states.1 hx).2
  have hy' := (StateSpace.mem_states.1 hy).2
  have hz := StateSpace.fusion_lt hx' hy'
  have hpossible : (f.isPossible (x.fusion y)).neg.var < n := by simpa using hf.isPossible_lt hz
  refine (Imposes.ite_seq (.implyImply (hc.ver.var_lt hx') (hc.ver.var_lt hy') (hc.ver.var_lt hz))
    (.implyImply (hc.fal.var_lt hx') (hc.fal.var_lt hy') (hc.fal.var_lt hz))
    (.implyImply (hc.ver.var_lt hx') (hc.fal.var_lt hy') hpossible)).congr fun σ => ?_
  rw [Lit.holds_neg, Bool.not_eq_true']

theorem imposes_contentIsExhaustive (hf : f.Known n) (hc : c.Tabled f.space n) :
    Imposes n (f.contentIsExhaustive c) fun σ => ∀ w ∈ f.space.states, (f.isWorld w).holds σ = true →
      ∃ y, y.isPartOf w = true ∧ ((litAt c.ver y).holds σ = true ∨ (litAt c.fal y).holds σ = true) := by
  refine .forM fun w hw => ?_
  have hw' := (StateSpace.mem_states.1 hw).2
  refine (Imposes.implyAny (hf.isWorld_lt hw') (List.forall_mem_flatMap.2 fun y hy => ?_)).congr fun σ => ?_
  · have hy' := StateSpace.lt_of_isPartOf (State.mem_parts.1 hy) hw'
    simp [hc.ver.var_lt hy', hc.fal.var_lt hy']
  · refine imp_congr_right fun _ => ?_
    simp only [List.mem_flatMap, List.mem_cons, List.not_mem_nil, or_false, State.mem_parts]
    constructor
    · rintro ⟨l, ⟨y, hy, rfl | rfl⟩, hl⟩
      · exact ⟨y, hy, .inl hl⟩
      · exact ⟨y, hy, .inr hl⟩
    · rintro ⟨y, hy, h | h⟩
      · exact ⟨_, ⟨y, hy, .inl rfl⟩, h⟩
      · exact ⟨_, ⟨y, hy, .inr rfl⟩, h⟩

theorem imposes_somePossible {side : Array Lit} (hf : f.Known n) (hside : Tabled f.space n side) :
    Imposes n (f.somePossible side) fun σ =>
      ∃ s ∈ f.space.states, (f.isPossible s).holds σ = true ∧ (litAt side s).holds σ = true :=
  (Imposes.witnesses _ _ [] (fun s hs => by
    have hs := (StateSpace.mem_states.1 hs).2
    simp [hf.isPossible_lt hs, hside.var_lt hs]) (by simp)).congr fun σ => by simp

theorem imposes_constrainContent (hf : f.Known n) (hc : c.Tabled f.space n) (settings : Settings) :
    Imposes n (f.constrainContent settings c) (f.Constrained settings c) := by
  have hnull := f.space.size_pos
  have hver : (litAt c.ver .null).neg.var < n := by simpa using hc.ver.var_lt (s := .null) hnull
  have hfal : (litAt c.fal .null).neg.var < n := by simpa using hc.fal.var_lt (s := .null) hnull
  have hnonNull : Imposes n (if settings.nonNull = true then (do
      Emit.unit (litAt c.ver .null).neg
      Emit.unit (litAt c.fal .null).neg) else pure ()) fun σ => settings.nonNull = true →
        (litAt c.ver .null).neg.holds σ = true ∧ (litAt c.fal .null).neg.holds σ = true :=
    .ite fun _ => (Imposes.unit hver).seq (.unit hfal)
  have hnonEmpty := Imposes.ite_seq (p := settings.nonEmpty = true)
    (.clause (c := c.ver.toList) (by simpa using hc.ver.known))
    (.clause (c := c.fal.toList) (by simpa using hc.fal.known)) hnonNull
  have hcontingent := Imposes.ite_seq (p := settings.contingent = true) (imposes_somePossible hf hc.ver)
    (imposes_somePossible hf hc.fal) hnonEmpty
  refine ((imposes_contentIsClosed hf hc).seq ((imposes_contentIsExhaustive hf hc).seq hcontingent)).congr
    fun σ => ?_
  simp only [Lit.anyHolds_iff, Array.mem_toList_iff, Lit.holds_neg, Bool.not_eq_true']
  constructor
  · rintro ⟨hclosed, hexhaustive, hcontingent, hnonEmpty, hnonNull⟩
    refine ⟨fun x hx y hy => ?_, fun x hx y hy => ?_, fun x hx y hy => (hclosed x hx y hy).2, hexhaustive,
      hcontingent, hnonEmpty, hnonNull⟩
    · exact fusion_of_ordered (P := fun s => (litAt c.ver s).holds σ = true)
        (fun hxy => ((hclosed x hx y hy).1 hxy).1) fun hyx => ((hclosed y hy x hx).1 hyx).1
    · exact fusion_of_ordered (P := fun s => (litAt c.fal s).holds σ = true)
        (fun hxy => ((hclosed x hx y hy).1 hxy).2) fun hyx => ((hclosed y hy x hx).1 hyx).2
  · intro h
    refine ⟨fun x hx y hy => ⟨fun _ => ⟨h.ver_closed x hx y hy, h.fal_closed x hx y hy⟩, h.exclusive x hx y hy⟩,
      h.exhaustive, h.contingent, h.nonEmpty, h.nonNull⟩

/-- No state of one content shares an atomic state with one of the other. -/
def Apart (f : Frame) (σ : Nat → Bool) (c d : ContentLits) : Prop :=
  ∀ x ∈ f.space.states, ∀ y ∈ f.space.states, x.overlaps y = true →
    ((litAt c.ver x).holds σ = true ∨ (litAt c.fal x).holds σ = true) →
      ¬ ((litAt d.ver y).holds σ = true ∨ (litAt d.fal y).holds σ = true)

theorem imposes_contentsAreDisjoint (hc : c.Tabled f.space n) (hd : d.Tabled f.space n) :
    Imposes n (f.contentsAreDisjoint c d) fun σ => f.Apart σ c d := by
  refine .forM fun x hx => .forM fun y hy => ?_
  have hx' := (StateSpace.mem_states.1 hx).2
  have hy' := (StateSpace.mem_states.1 hy).2
  have hclause : ∀ {l k : Lit}, l.var < n → k.var < n → Imposes n (Emit.clause [l.neg, k.neg]) fun σ =>
      l.holds σ = true → ¬ k.holds σ = true := fun {l k} hl hk =>
    (Imposes.imply hl (y := k.neg) (by simpa using hk)).congr fun σ => by simp
  refine (Imposes.ite (p := x.overlaps y = true) fun _ =>
    (hclause (hc.ver.var_lt hx') (hd.ver.var_lt hy')).seq
      ((hclause (hc.ver.var_lt hx') (hd.fal.var_lt hy')).seq
        ((hclause (hc.fal.var_lt hx') (hd.ver.var_lt hy')).seq
          (hclause (hc.fal.var_lt hx') (hd.fal.var_lt hy'))))).congr fun σ => ?_
  tauto

theorem imposes_allDisjoint {cs : List ContentLits} (hcs : ∀ c ∈ cs, c.Tabled f.space n) :
    Imposes n (f.allDisjoint cs) fun σ => cs.Pairwise (f.Apart σ) := by
  induction cs with
  | nil => exact (Imposes.pure n).congr fun σ => by simp
  | cons c cs ih =>
    rw [List.forall_mem_cons] at hcs
    have hfirst : Imposes n (cs.forM (f.contentsAreDisjoint c)) fun σ => ∀ d ∈ cs, f.Apart σ c d :=
      .forM fun d hd => imposes_contentsAreDisjoint hcs.1 (hcs.2 d hd)
    exact (hfirst.seq (ih hcs.2)).congr fun σ => List.pairwise_cons.symm

end Countermodels.Truthmaker.Frame
