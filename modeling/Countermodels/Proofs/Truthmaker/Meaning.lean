import Countermodels.Proofs.Formula.Subformulas
import Countermodels.Proofs.Gives
import Countermodels.Proofs.Truthmaker.Model
import Countermodels.Theory
import Countermodels.Truthmaker.Meaning

/-! What the operators mean, said with truth, verifiers and falsifiers alone. Every formula over the
primitive operators has a truth value and a content at every state; what has no counterfactual in it
has the same content at all of them. -/

namespace Countermodels.Truthmaker

/-- The formulas whose operators are primitive and whose letters are among the given ones. -/
inductive Sentence (letters : List Atom) : Formula → Prop
  | atom {a : Atom} (ha : a ∈ letters) : Sentence letters (.atom a)
  | top : Sentence letters .top
  | bot : Sentence letters .bot
  | neg {a : Formula} (ha : Sentence letters a) : Sentence letters (.unary .neg a)
  | box {a : Formula} (ha : Sentence letters a) : Sentence letters (.unary .box a)
  | diamond {a : Formula} (ha : Sentence letters a) : Sentence letters (.unary .diamond a)
  | and {a b : Formula} (ha : Sentence letters a) (hb : Sentence letters b) :
      Sentence letters (.binary .and a b)
  | or {a b : Formula} (ha : Sentence letters a) (hb : Sentence letters b) :
      Sentence letters (.binary .or a b)
  | boxRight {a b : Formula} (ha : Sentence letters a) (hb : Sentence letters b) :
      Sentence letters (.binary .boxRight a b)
  | diamondRight {a b : Formula} (ha : Sentence letters a) (hb : Sentence letters b) :
      Sentence letters (.binary .diamondRight a b)
  | ground {a b : Formula} (ha : Sentence letters a) (hb : Sentence letters b) :
      Sentence letters (.binary .ground a b)
  | essence {a b : Formula} (ha : Sentence letters a) (hb : Sentence letters b) :
      Sentence letters (.binary .essence a b)
  | identity {a b : Formula} (ha : Sentence letters a) (hb : Sentence letters b) :
      Sentence letters (.binary .identity a b)

theorem Sentence.of_over {letters : List Atom} {f : Formula}
    (h : f.Over Theory.counterfactual.primitives letters) : Sentence letters f := by
  induction f with
  | atom a => exact .atom (Formula.over_atom.1 h)
  | top => exact .top
  | bot => exact .bot
  | unary op a ih =>
    obtain ⟨hop, ha⟩ := Formula.over_unary.1 h
    cases op with
    | neg => exact .neg (ih ha)
    | box => exact .box (ih ha)
    | diamond => exact .diamond (ih ha)
    | _ => exact absurd hop (by decide)
  | binary op a b iha ihb =>
    obtain ⟨hop, ha, hb⟩ := Formula.over_binary.1 h
    cases op with
    | and => exact .and (iha ha) (ihb hb)
    | or => exact .or (iha ha) (ihb hb)
    | boxRight => exact .boxRight (iha ha) (ihb hb)
    | diamondRight => exact .diamondRight (iha ha) (ihb hb)
    | ground => exact .ground (iha ha) (ihb hb)
    | essence => exact .essence (iha ha) (ihb hb)
    | identity => exact .identity (iha ha) (ihb hb)
    | _ => exact absurd hop (by decide)

namespace Meaning

variable {m : Model} {a b : Meaning} {w s : State}

def Holds (a : Meaning) (w : State) : Prop := a.truth w = .ok true

def Verifies (a : Meaning) (w s : State) : Prop := ∃ c, a.content w = .ok c ∧ s ∈ c.ver

def Falsifies (a : Meaning) (w s : State) : Prop := ∃ c, a.content w = .ok c ∧ s ∈ c.fal

/-- There is a truth value and a content at every state. -/
structure Total (a : Meaning) : Prop where
  truth : ∀ w, ∃ t, a.truth w = .ok t
  content : ∀ w, ∃ c, a.content w = .ok c

/-- There is a truth value and a content at every state, and the content belongs to the space. -/
structure Proper (m : Model) (a : Meaning) : Prop extends a.Total where
  verifier : ∀ w s, a.Verifies w s → s ∈ m.space.states
  falsifier : ∀ w s, a.Falsifies w s → s ∈ m.space.states

theorem verifies_iff {c : Content} (h : a.content w = .ok c) : a.Verifies w s ↔ s ∈ c.ver :=
  ⟨fun hs => by obtain ⟨d, hd, hs⟩ := hs; exact Except.ok.inj (h.symm.trans hd) ▸ hs, fun hs => ⟨c, h, hs⟩⟩

theorem falsifies_iff {c : Content} (h : a.content w = .ok c) : a.Falsifies w s ↔ s ∈ c.fal :=
  ⟨fun hs => by obtain ⟨d, hd, hs⟩ := hs; exact Except.ok.inj (h.symm.trans hd) ▸ hs, fun hs => ⟨c, h, hs⟩⟩

theorem Total.truth_gives (ha : a.Total) (w : State) :
    Gives (a.truth w) fun t => t = true ↔ a.Holds w := by
  obtain ⟨t, ht⟩ := ha.truth w
  exact .of_eq ht (by rw [Holds, ht]; simp)

/-- The content, with what belongs to it. -/
theorem Total.content_gives (ha : a.Total) (w : State) :
    Gives (a.content w) fun c => (∀ s, s ∈ c.ver ↔ a.Verifies w s) ∧ ∀ s, s ∈ c.fal ↔ a.Falsifies w s := by
  obtain ⟨c, hc⟩ := ha.content w
  exact .of_eq hc ⟨fun s => (verifies_iff hc).symm, fun s => (falsifies_iff hc).symm⟩

/-- A truth value that is true just if `P` holds. -/
theorem holds_of_gives {x : Except Failure Bool} {P : Prop} (h : Gives x fun t => t = true ↔ P) :
    x = .ok true ↔ P := by
  obtain ⟨t, rfl, ht⟩ := h
  rw [← ht, Except.ok.injEq]

theorem verifies_of_gives {P : Prop}
    (h : Gives (a.content w) fun c => s ∈ c.ver ↔ P) : a.Verifies w s ↔ P := by
  obtain ⟨c, hc, hs⟩ := h
  rw [verifies_iff hc, hs]

theorem falsifies_of_gives {P : Prop}
    (h : Gives (a.content w) fun c => s ∈ c.fal ↔ P) : a.Falsifies w s ↔ P := by
  obtain ⟨c, hc, hs⟩ := h
  rw [falsifies_iff hc, hs]

/-! Each operator comes with three facts: when its truth holds, what verifies it, what falsifies it. -/

section ofTruth

variable {truth : State → Except Failure Bool} {P : State → Prop}
  (h : ∀ w, Gives (truth w) fun t => t = true ↔ P w)
include h

theorem holds_ofTruth (w : State) : (ofTruth truth).Holds w ↔ P w := holds_of_gives (h w)

theorem content_ofTruth (w : State) : Gives ((ofTruth truth).content w) fun c =>
    (∀ s, s ∈ c.ver ↔ s = .null ∧ P w) ∧ ∀ s, s ∈ c.fal ↔ s = .null ∧ ¬ P w := by
  refine (h w).bind fun t ht => .pure ?_
  cases t <;> simp_all [Content.ofBool]

theorem verifies_ofTruth (w s : State) : (ofTruth truth).Verifies w s ↔ s = .null ∧ P w :=
  verifies_of_gives ((content_ofTruth h w).imp fun _ hc => hc.1 s)

theorem falsifies_ofTruth (w s : State) : (ofTruth truth).Falsifies w s ↔ s = .null ∧ ¬ P w :=
  falsifies_of_gives ((content_ofTruth h w).imp fun _ hc => hc.2 s)

theorem total_ofTruth : (ofTruth truth).Total where
  truth w := (h w).returns
  content w := (content_ofTruth h w).returns

theorem proper_ofTruth (hn : m.space.n < 32) : (ofTruth truth).Proper m where
  toTotal := total_ofTruth h
  verifier w s hs := by
    obtain ⟨rfl, -⟩ := (verifies_ofTruth h w s).1 hs
    exact StateSpace.mem_states.2 ⟨hn, m.space.size_pos⟩
  falsifier w s hs := by
    obtain ⟨rfl, -⟩ := (falsifies_ofTruth h w s).1 hs
    exact StateSpace.mem_states.2 ⟨hn, m.space.size_pos⟩

end ofTruth

section neg

variable (ha : a.Total)
include ha

theorem truth_neg (w : State) : Gives (a.neg.truth w) fun t => t = true ↔ ¬ a.Holds w :=
  (ha.truth_gives w).bind fun t ht => .pure (by rw [← ht]; simp)

theorem content_neg (w : State) : Gives (a.neg.content w) fun c =>
    (∀ s, s ∈ c.ver ↔ a.Falsifies w s) ∧ ∀ s, s ∈ c.fal ↔ a.Verifies w s :=
  (ha.content_gives w).bind fun _ hc => .pure ⟨hc.2, hc.1⟩

theorem holds_neg (w : State) : a.neg.Holds w ↔ ¬ a.Holds w := holds_of_gives (truth_neg ha w)

theorem verifies_neg (w s : State) : a.neg.Verifies w s ↔ a.Falsifies w s :=
  verifies_of_gives ((content_neg ha w).imp fun _ hc => hc.1 s)

theorem falsifies_neg (w s : State) : a.neg.Falsifies w s ↔ a.Verifies w s :=
  falsifies_of_gives ((content_neg ha w).imp fun _ hc => hc.2 s)

theorem Total.neg : a.neg.Total where
  truth w := (truth_neg ha w).returns
  content w := (content_neg ha w).returns

end neg

theorem Proper.neg (ha : a.Proper m) : a.neg.Proper m where
  toTotal := ha.toTotal.neg
  verifier w s hs := ha.falsifier w s ((verifies_neg ha.toTotal w s).1 hs)
  falsifier w s hs := ha.verifier w s ((falsifies_neg ha.toTotal w s).1 hs)

/-- The fusions of members of two sets of states. -/
def Fused (P Q : State → Prop) (s : State) : Prop := ∃ x, P x ∧ ∃ y, Q y ∧ x.fusion y = s

/-- The members of two sets of states and their fusions. -/
def Joined (P Q : State → Prop) (s : State) : Prop := (P s ∨ Q s) ∨ Fused P Q s

theorem Fused.mem_states {P Q : State → Prop} (h : Fused P Q s) (hP : ∀ x, P x → x ∈ m.space.states)
    (hQ : ∀ y, Q y → y ∈ m.space.states) : s ∈ m.space.states := by
  obtain ⟨x, hx, y, hy, rfl⟩ := h
  have hxs := StateSpace.mem_states.1 (hP x hx)
  have hys := StateSpace.mem_states.1 (hQ y hy)
  exact StateSpace.mem_states.2 ⟨hxs.1, StateSpace.fusion_lt hxs.2 hys.2⟩

theorem Joined.mem_states {P Q : State → Prop} (h : Joined P Q s) (hP : ∀ x, P x → x ∈ m.space.states)
    (hQ : ∀ y, Q y → y ∈ m.space.states) : s ∈ m.space.states := by
  rcases h with (h | h) | h
  · exact hP s h
  · exact hQ s h
  · exact h.mem_states hP hQ

section andOr

variable (ha : a.Total) (hb : b.Total)
include ha hb

theorem truth_and (w : State) : Gives ((a.and b).truth w) fun t => t = true ↔ a.Holds w ∧ b.Holds w := by
  refine (ha.truth_gives w).bind fun t ht => ?_
  cases t with
  | false => exact .pure (by simp [← ht])
  | true => exact (hb.truth_gives w).imp fun u hu => by simp [← ht, ← hu]

theorem truth_or (w : State) : Gives ((a.or b).truth w) fun t => t = true ↔ a.Holds w ∨ b.Holds w := by
  refine (ha.truth_gives w).bind fun t ht => ?_
  cases t with
  | false => exact (hb.truth_gives w).imp fun u hu => by simp [← ht, ← hu]
  | true => exact .pure (by simp [← ht])

theorem holds_and (w : State) : (a.and b).Holds w ↔ a.Holds w ∧ b.Holds w :=
  holds_of_gives (truth_and ha hb w)

theorem holds_or (w : State) : (a.or b).Holds w ↔ a.Holds w ∨ b.Holds w :=
  holds_of_gives (truth_or ha hb w)

theorem content_and (w : State) : Gives ((a.and b).content w) fun c =>
    (∀ s, s ∈ c.ver ↔ Fused (a.Verifies w) (b.Verifies w) s) ∧
      ∀ s, s ∈ c.fal ↔ Joined (a.Falsifies w) (b.Falsifies w) s :=
  (ha.content_gives w).bind fun c hc => (hb.content_gives w).bind fun d hd => .pure
    (by simp [Content.and, Fused, Joined, hc.1, hc.2, hd.1, hd.2])

theorem content_or (w : State) : Gives ((a.or b).content w) fun c =>
    (∀ s, s ∈ c.ver ↔ Joined (a.Verifies w) (b.Verifies w) s) ∧
      ∀ s, s ∈ c.fal ↔ Fused (a.Falsifies w) (b.Falsifies w) s :=
  (ha.content_gives w).bind fun c hc => (hb.content_gives w).bind fun d hd => .pure
    (by simp [Content.or, Fused, Joined, hc.1, hc.2, hd.1, hd.2])

theorem verifies_and (w s : State) :
    (a.and b).Verifies w s ↔ Fused (a.Verifies w) (b.Verifies w) s :=
  verifies_of_gives ((content_and ha hb w).imp fun _ hc => hc.1 s)

theorem falsifies_and (w s : State) :
    (a.and b).Falsifies w s ↔ Joined (a.Falsifies w) (b.Falsifies w) s :=
  falsifies_of_gives ((content_and ha hb w).imp fun _ hc => hc.2 s)

theorem verifies_or (w s : State) :
    (a.or b).Verifies w s ↔ Joined (a.Verifies w) (b.Verifies w) s :=
  verifies_of_gives ((content_or ha hb w).imp fun _ hc => hc.1 s)

theorem falsifies_or (w s : State) :
    (a.or b).Falsifies w s ↔ Fused (a.Falsifies w) (b.Falsifies w) s :=
  falsifies_of_gives ((content_or ha hb w).imp fun _ hc => hc.2 s)

theorem Total.and : (a.and b).Total where
  truth w := (truth_and ha hb w).returns
  content w := (content_and ha hb w).returns

theorem Total.or : (a.or b).Total where
  truth w := (truth_or ha hb w).returns
  content w := (content_or ha hb w).returns

end andOr

section proper

variable (ha : a.Proper m) (hb : b.Proper m)
include ha hb

theorem Proper.and : (a.and b).Proper m where
  toTotal := ha.toTotal.and hb.toTotal
  verifier w s hs := ((verifies_and ha.toTotal hb.toTotal w s).1 hs).mem_states (ha.verifier w) (hb.verifier w)
  falsifier w s hs := ((falsifies_and ha.toTotal hb.toTotal w s).1 hs).mem_states (ha.falsifier w) (hb.falsifier w)

theorem Proper.or : (a.or b).Proper m where
  toTotal := ha.toTotal.or hb.toTotal
  verifier w s hs := ((verifies_or ha.toTotal hb.toTotal w s).1 hs).mem_states (ha.verifier w) (hb.verifier w)
  falsifier w s hs := ((falsifies_or ha.toTotal hb.toTotal w s).1 hs).mem_states (ha.falsifier w) (hb.falsifier w)

end proper

theorem allHold_gives {test : State → Except Failure Bool} {P : State → Prop} {ss : List State}
    (h : ∀ s ∈ ss, Gives (test s) fun t => t = true ↔ P s) :
    Gives (allHold test ss) fun t => t = true ↔ ∀ s ∈ ss, P s := by
  induction ss with
  | nil => exact .ok (by simp)
  | cons s ss ih =>
    rw [List.forall_mem_cons] at h
    refine h.1.bind fun t ht => ?_
    cases t with
    | false => exact .pure (by simp [← ht])
    | true => exact (ih h.2).imp fun u hu => by simp [← ht, hu]

section modal

theorem ofFault_counting {α : Type} (hn : m.space.n < 64) (r : α) :
    Failure.ofFault (m.counting r) = .ok r := by
  rw [Model.counting_eq hn]
  rfl

variable (hn : m.space.n < 64) (ha : a.Total)
include hn ha

theorem truth_box (w : State) :
    Gives ((a.box m).truth w) fun t => t = true ↔ ∀ u ∈ m.worlds, a.Holds u :=
  (Gives.of_eq (P := (· = m.worlds)) (ofFault_counting hn _) rfl).bind fun _ h =>
    h ▸ allHold_gives fun u _ => ha.truth_gives u

theorem truth_diamond (w : State) :
    Gives ((a.diamond m).truth w) fun t => t = true ↔ ∃ u ∈ m.worlds, a.Holds u := by
  refine (Gives.of_eq (P := (· = m.worlds)) (ofFault_counting hn _) rfl).bind fun _ h => ?_
  subst h
  have hall : Gives (allHold (fun u => return !(← a.truth u)) m.worlds) fun t =>
      t = true ↔ ∀ u ∈ m.worlds, ¬ a.Holds u := allHold_gives fun u _ => truth_neg ha u
  exact hall.bind fun t ht => .pure (by cases t <;> simp_all)

end modal

section counterfactual

variable (hn : m.space.n < 64) (ha : a.Total) (hb : b.Total)
include hn ha hb

/-- The truth values of the consequent at all outcomes, for any way to sum them up. -/
theorem outcomes_gives (w : State) : Gives (outcomes m a b w) fun ts =>
    ∀ t, t ∈ ts ↔ ∃ x, a.Verifies w x ∧ ∃ u ∈ m.alternatives w x, b.truth u = .ok t := by
  refine (ha.content_gives w).bind fun c hc => ?_
  have hworlds : c.ver.elems.mapM (fun x => Failure.ofFault (m.counting (m.alternatives w x))) =
      .ok (c.ver.elems.map (m.alternatives w)) := by
    simp only [ofFault_counting hn]
    exact List.mapM_pure
  have htruths : ∀ us : List State, Gives (us.mapM b.truth) fun ts =>
      ∀ t, t ∈ ts ↔ ∃ u ∈ us, b.truth u = .ok t := by
    intro us
    induction us with
    | nil => exact .pure (by simp)
    | cons u us ih =>
      rw [List.mapM_cons]
      obtain ⟨t, ht⟩ := hb.truth u
      exact (Gives.of_eq (P := (· = t)) ht rfl).bind fun _ h => ih.bind fun ts hts => .pure
        (by simp [h, hts, ht, eq_comm])
  refine (Gives.of_eq (P := (· = c.ver.elems.map (m.alternatives w))) hworlds rfl).bind fun _ h => ?_
  subst h
  refine (htruths _).imp fun ts hts t => ?_
  simp only [hts, List.mem_flatten, List.mem_map, ← hc.1, StateSet.mem_def]
  constructor
  · rintro ⟨u, ⟨l, ⟨x, hx, rfl⟩, hu⟩, ht⟩
    exact ⟨x, hx, u, hu, ht⟩
  · rintro ⟨x, hx, u, hu, ht⟩
    exact ⟨u, ⟨_, ⟨x, hx, rfl⟩, hu⟩, ht⟩

theorem truth_boxRight (w : State) : Gives ((a.boxRight m b).truth w) fun t =>
    t = true ↔ ∀ x, a.Verifies w x → ∀ u ∈ m.alternatives w x, b.Holds u := by
  refine (outcomes_gives hn ha hb w).bind fun ts hts => .pure ?_
  rw [List.all_eq_true]
  constructor
  · intro h x hx u hu
    obtain ⟨t, ht⟩ := hb.truth u
    have htrue := h t ((hts t).2 ⟨x, hx, u, hu, ht⟩)
    exact ht.trans (congrArg _ htrue)
  · intro h t ht
    obtain ⟨x, hx, u, hu, hut⟩ := (hts t).1 ht
    exact Except.ok.inj (hut.symm.trans (h x hx u hu))

theorem truth_diamondRight (w : State) : Gives ((a.diamondRight m b).truth w) fun t =>
    t = true ↔ ∃ x, a.Verifies w x ∧ ∃ u ∈ m.alternatives w x, b.Holds u := by
  refine (outcomes_gives hn ha hb w).bind fun ts hts => .pure ?_
  rw [List.any_eq_true]
  simp [hts, Holds]

end counterfactual

/-- One content grounds another, said with their verifiers and falsifiers. -/
def Grounds (av af bv bf : State → Prop) : Prop :=
  (∀ s, av s → bv s) ∧ (∀ x, af x → ∀ y, bf y → bf (x.fusion y)) ∧
    ∀ y, bf y → ∃ x, af x ∧ x.isPartOf y = true

theorem content_grounds_iff {c d : Content} :
    c.grounds d = true ↔ Grounds (· ∈ c.ver) (· ∈ c.fal) (· ∈ d.ver) (· ∈ d.fal) := by
  rw [Content.grounds, Bool.and_eq_true, Bool.and_eq_true, and_assoc, StateSet.isSubset_iff,
    StateSet.isSubset_iff, List.all_eq_true]
  refine and_congr_right fun _ => and_congr ?_ (forall₂_congr fun y _ => ?_)
  · simp only [StateSet.mem_fusions]
    exact ⟨fun h x hx y hy => h _ ⟨x, hx, y, hy, rfl⟩, fun h s hs => by
      obtain ⟨x, hx, y, hy, rfl⟩ := hs
      exact h x hx y hy⟩
  · rw [List.any_eq_true]
    rfl

section hyperintensional

variable (ha : a.Total) (hb : b.Total)
include ha hb

theorem truth_ground (w : State) : Gives ((a.ground b).truth w) fun t =>
    t = true ↔ Grounds (a.Verifies w) (a.Falsifies w) (b.Verifies w) (b.Falsifies w) :=
  (ha.content_gives w).bind fun c hc => (hb.content_gives w).bind fun d hd => .pure
    (by simp only [content_grounds_iff, hc.1, hc.2, hd.1, hd.2])

theorem truth_essence (w : State) : Gives ((a.essence b).truth w) fun t =>
    t = true ↔ Grounds (a.Falsifies w) (a.Verifies w) (b.Falsifies w) (b.Verifies w) :=
  (ha.content_gives w).bind fun c hc => (hb.content_gives w).bind fun d hd => .pure
    (by simp only [content_grounds_iff, Content.swapped, hc.1, hc.2, hd.1, hd.2])

theorem truth_identity (w : State) : Gives ((a.identity b).truth w) fun t =>
    t = true ↔ ∀ s, (a.Verifies w s ↔ b.Verifies w s) ∧ (a.Falsifies w s ↔ b.Falsifies w s) :=
  (ha.content_gives w).bind fun c hc => (hb.content_gives w).bind fun d hd => .pure (by
    obtain ⟨cv, cf⟩ := c
    obtain ⟨dv, df⟩ := d
    simp only [decide_eq_true_eq, Content.mk.injEq, StateSet.ext_mem_iff, ← hc.1, ← hc.2, ← hd.1,
      ← hd.2, forall_and])

end hyperintensional

end Meaning

namespace Model

variable {m : Model} {f : Formula}

/-- What verifies and falsifies the letters belongs to the space. -/
def Located (m : Model) : Prop :=
  ∀ a s, s ∈ (m.atomContent a).ver ∨ s ∈ (m.atomContent a).fal → s ∈ m.space.states

/-- Where the states can be counted, every sentence has a truth value and a content. -/
theorem total_of_sentence {letters : List Atom} (hn : m.space.n < 64) (hf : Sentence letters f) :
    (m.meaning f).Total := by
  induction hf with
  | atom _ => exact ⟨fun w => ⟨_, rfl⟩, fun w => ⟨_, rfl⟩⟩
  | top => exact ⟨fun w => ⟨_, rfl⟩, fun w => ⟨_, Meaning.ofFault_counting hn _⟩⟩
  | bot => exact ⟨fun w => ⟨_, rfl⟩, fun w => ⟨_, Meaning.ofFault_counting hn _⟩⟩
  | neg _ ha => exact ha.neg
  | box _ ha => exact Meaning.total_ofTruth (Meaning.truth_box hn ha)
  | diamond _ ha => exact Meaning.total_ofTruth (Meaning.truth_diamond hn ha)
  | and _ _ ha hb => exact ha.and hb
  | or _ _ ha hb => exact ha.or hb
  | boxRight _ _ ha hb => exact Meaning.total_ofTruth (Meaning.truth_boxRight hn ha hb)
  | diamondRight _ _ ha hb => exact Meaning.total_ofTruth (Meaning.truth_diamondRight hn ha hb)
  | ground _ _ ha hb => exact Meaning.total_ofTruth (Meaning.truth_ground ha hb)
  | essence _ _ ha hb => exact Meaning.total_ofTruth (Meaning.truth_essence ha hb)
  | identity _ _ ha hb => exact Meaning.total_ofTruth (Meaning.truth_identity ha hb)

theorem proper_of_sentence {letters : List Atom} (hn : m.space.n < 32) (hm : m.Located)
    (hf : Sentence letters f) : (m.meaning f).Proper m := by
  have hcount : m.space.n < 64 := by omega
  induction hf with
  | @atom a ha =>
    refine ⟨total_of_sentence hcount (.atom ha), fun w s hs => ?_, fun w s hs => ?_⟩
    · exact hm a s (.inl ((Meaning.verifies_iff rfl).1 hs))
    · exact hm a s (.inr ((Meaning.falsifies_iff rfl).1 hs))
  | top =>
    have hc : ∀ w, (m.meaning .top).content w = .ok ⟨.ofSpace m.space, .empty⟩ :=
      fun w => Meaning.ofFault_counting hcount _
    refine ⟨⟨fun w => ⟨_, rfl⟩, fun w => ⟨_, hc w⟩⟩, fun w s hs => ?_, fun w s hs => ?_⟩
    · simpa using (Meaning.verifies_iff (hc w)).1 hs
    · simpa using (Meaning.falsifies_iff (hc w)).1 hs
  | bot =>
    have hc : ∀ w, (m.meaning .bot).content w = .ok ⟨.empty, .ofSpace m.space⟩ :=
      fun w => Meaning.ofFault_counting hcount _
    refine ⟨⟨fun w => ⟨_, rfl⟩, fun w => ⟨_, hc w⟩⟩, fun w s hs => ?_, fun w s hs => ?_⟩
    · simpa using (Meaning.verifies_iff (hc w)).1 hs
    · simpa using (Meaning.falsifies_iff (hc w)).1 hs
  | neg _ ha => exact ha.neg
  | box _ ha => exact Meaning.proper_ofTruth (Meaning.truth_box hcount ha.toTotal) hn
  | diamond _ ha => exact Meaning.proper_ofTruth (Meaning.truth_diamond hcount ha.toTotal) hn
  | and _ _ ha hb => exact ha.and hb
  | or _ _ ha hb => exact ha.or hb
  | boxRight _ _ ha hb => exact Meaning.proper_ofTruth (Meaning.truth_boxRight hcount ha.toTotal hb.toTotal) hn
  | diamondRight _ _ ha hb => exact Meaning.proper_ofTruth (Meaning.truth_diamondRight hcount ha.toTotal hb.toTotal) hn
  | ground _ _ ha hb => exact Meaning.proper_ofTruth (Meaning.truth_ground ha.toTotal hb.toTotal) hn
  | essence _ _ ha hb => exact Meaning.proper_ofTruth (Meaning.truth_essence ha.toTotal hb.toTotal) hn
  | identity _ _ ha hb => exact Meaning.proper_ofTruth (Meaning.truth_identity ha.toTotal hb.toTotal) hn

/-- Without a counterfactual, the content is the same at every state. -/
theorem content_fixed (hf : f.isWorldDependent = false) (w u : State) :
    (m.meaning f).content w = (m.meaning f).content u := by
  induction f with
  | atom a => rfl
  | top => rfl
  | bot => rfl
  | unary op a ih =>
    rw [Formula.isWorldDependent_unary] at hf
    cases op with
    | neg =>
      simp only [meaning, Meaning.neg]
      rw [ih hf]
    | _ => rfl
  | binary op a b iha ihb =>
    obtain ⟨ha, hb⟩ := Formula.not_dependent_of_binary hf
    cases op with
    | and =>
      simp only [meaning, Meaning.and]
      rw [iha ha, ihb hb]
    | or =>
      simp only [meaning, Meaning.or]
      rw [iha ha, ihb hb]
    | ground =>
      simp only [meaning, Meaning.ground, Meaning.ofTruth]
      rw [iha ha, ihb hb]
    | essence =>
      simp only [meaning, Meaning.essence, Meaning.ofTruth]
      rw [iha ha, ihb hb]
    | identity =>
      simp only [meaning, Meaning.identity, Meaning.ofTruth]
      rw [iha ha, ihb hb]
    | boxRight => simp at hf
    | diamondRight => simp at hf
    | _ => rfl

/-- What is rigid has the same truth value at every state. -/
theorem truth_rigid (hf : f.isRigid = true) (w u : State) :
    (m.meaning f).truth w = (m.meaning f).truth u := by
  induction f with
  | atom a => simp [Formula.isRigid] at hf
  | top => rfl
  | bot => rfl
  | unary op a ih =>
    cases op with
    | neg =>
      simp only [meaning, Meaning.neg]
      rw [ih (by simpa [Formula.isRigid] using hf)]
    | _ => rfl
  | binary op a b iha ihb =>
    cases op with
    | and =>
      simp only [Formula.isRigid, Bool.and_eq_true] at hf
      simp only [meaning, Meaning.and]
      rw [iha hf.1, ihb hf.2]
    | or =>
      simp only [Formula.isRigid, Bool.and_eq_true] at hf
      simp only [meaning, Meaning.or]
      rw [iha hf.1, ihb hf.2]
    | ground =>
      simp only [Formula.isRigid, Bool.and_eq_true, Bool.not_eq_true'] at hf
      simp only [meaning, Meaning.ground, Meaning.ofTruth]
      rw [content_fixed hf.1 w u, content_fixed hf.2 w u]
    | essence =>
      simp only [Formula.isRigid, Bool.and_eq_true, Bool.not_eq_true'] at hf
      simp only [meaning, Meaning.essence, Meaning.ofTruth]
      rw [content_fixed hf.1 w u, content_fixed hf.2 w u]
    | identity =>
      simp only [Formula.isRigid, Bool.and_eq_true, Bool.not_eq_true'] at hf
      simp only [meaning, Meaning.identity, Meaning.ofTruth]
      rw [content_fixed hf.1 w u, content_fixed hf.2 w u]
    | boxRight => simp [Formula.isRigid] at hf
    | diamondRight => simp [Formula.isRigid] at hf
    | _ => rfl

end Model

end Countermodels.Truthmaker
