import Countermodels.Proofs.Check.Reports
import Countermodels.Proofs.Formula.Expansion

/-! Formulas that a theory deals with. Preparing a formula writes out its derived operators, and refuses it if one is left
that the theory does not know. After that, neither the encoder nor the evaluator comes upon such an operator again: what
can still go wrong is the deadline, a model that is not as it should be, or the size of numbers. -/

namespace Countermodels

/-- A theory does not know an operator. -/
def CheckError.IsUnsupported : CheckError → Prop
  | .unsupportedOperator _ _ => True
  | _ => False

def Failure.IsUnsupported : Failure → Prop
  | .refused error => error.IsUnsupported
  | .fault _ => False

theorem Failure.IsFault.not_isUnsupported {F : Fault → Prop} {f : Failure} (h : f.IsFault F) : ¬ f.IsUnsupported := by
  obtain ⟨x, rfl, -⟩ := h
  exact id

theorem Deadline.Late.not_isUnsupported {d : Deadline} {f : Failure} (h : d.Late f) : ¬ f.IsUnsupported := by
  obtain ⟨rfl, -⟩ := h
  exact id

/-- What preparing a formula comes to. -/
theorem Theory.prepare_cases (theory : Theory) (f : Formula) : ∃ e, Definitions.standard.expand f = .ok e ∧
    ((∀ op ∈ e.operators, op ∈ theory.primitives) ∧ theory.prepare f = .ok e ∨
      ∃ op ∈ e.operators, op ∉ theory.primitives ∧
        theory.prepare f = .error (.refused (.unsupportedOperator theory.name op))) := by
  obtain ⟨e, hexpand, -⟩ := Definitions.acyclic_standard.expand_gives (Definitions.fitted_start (.inr rfl)) f
  refine ⟨e, hexpand, ?_⟩
  rw [prepare, hexpand, Failure.ofFault, ok_bind]
  cases hfind : e.operators.find? (· ∉ theory.primitives) with
  | none => exact .inl ⟨fun op hop => by simpa using List.find?_eq_none.1 hfind op hop, rfl⟩
  | some op => exact .inr ⟨op, List.mem_of_find?_eq_some hfind, by simpa using List.find?_some hfind, rfl⟩

/-! Truthmaker models. The evaluator fails only for a space with more states than can be counted. -/

namespace Truthmaker

/-- There is a truth value and a content at every state, or a failure of a kind. -/
structure Meaning.Sure (F : Failure → Prop) (a : Meaning) : Prop where
  truth : ∀ w, Yields F (a.truth w) fun _ => True
  content : ∀ w, Yields F (a.content w) fun _ => True

/-- The states of the space are too many to be counted. -/
def Model.Overfull (m : Model) (x : Fault) : Prop := x = .overflow ∧ 64 ≤ m.space.n

theorem Model.counting_yields {α : Type} (m : Model) (r : α) :
    Yields (Failure.IsFault m.Overfull) (Failure.ofFault (m.counting r)) fun _ => True := by
  apply Yields.ofFault
  rcases Nat.lt_or_ge m.space.n 64 with hn | hn
  · rw [Model.counting_eq hn]
    trivial
  · rw [Model.counting, StateSpace.count, if_neg (by omega)]
    exact ⟨rfl, hn⟩

theorem allHold_yields {F : Failure → Prop} {test : State → Except Failure Bool}
    (h : ∀ s, Yields F (test s) fun _ => True) (ss : List State) : Yields F (allHold test ss) fun _ => True := by
  induction ss with
  | nil => trivial
  | cons s ss ih =>
    refine (h s).bind fun t _ => ?_
    cases t with
    | true => exact ih
    | false => trivial

namespace Meaning

variable {F : Failure → Prop} {a b : Meaning} {m : Model}

theorem sure_ofTruth {truth : State → Except Failure Bool} (h : ∀ w, Yields F (truth w) fun _ => True) :
    (ofTruth truth).Sure F where
  truth := h
  content w := (h w).bind fun _ _ => .pure trivial

theorem Sure.neg (ha : a.Sure F) : a.neg.Sure F where
  truth w := (ha.truth w).bind fun _ _ => .pure trivial
  content w := (ha.content w).bind fun _ _ => .pure trivial

section binary

variable (ha : a.Sure F) (hb : b.Sure F)
include ha hb

theorem Sure.and : (a.and b).Sure F where
  truth w := (ha.truth w).bind fun t _ => by
    cases t with
    | true => exact hb.truth w
    | false => trivial
  content w := (ha.content w).bind fun _ _ => (hb.content w).bind fun _ _ => .pure trivial

theorem Sure.or : (a.or b).Sure F where
  truth w := (ha.truth w).bind fun t _ => by
    cases t with
    | true => trivial
    | false => exact hb.truth w
  content w := (ha.content w).bind fun _ _ => (hb.content w).bind fun _ _ => .pure trivial

/-- A relation of two contents. -/
theorem sure_related (related : Content → Content → Bool) :
    (ofTruth fun w => return related (← a.content w) (← b.content w)).Sure F :=
  sure_ofTruth fun w => (ha.content w).bind fun _ _ => (hb.content w).bind fun _ _ => .pure trivial

end binary

theorem Sure.box (ha : a.Sure (Failure.IsFault m.Overfull)) : (a.box m).Sure (Failure.IsFault m.Overfull) :=
  sure_ofTruth fun _ => (m.counting_yields _).bind fun worlds _ => allHold_yields ha.truth worlds

theorem Sure.diamond (ha : a.Sure (Failure.IsFault m.Overfull)) : (a.diamond m).Sure (Failure.IsFault m.Overfull) :=
  sure_ofTruth fun _ => (m.counting_yields _).bind fun worlds _ =>
    (allHold_yields ha.neg.truth worlds).bind fun _ _ => .pure trivial

/-- The outcomes of a counterfactual, summed up in any way. -/
theorem sure_outcomes (ha : a.Sure (Failure.IsFault m.Overfull)) (hb : b.Sure (Failure.IsFault m.Overfull))
    (sum : List Bool → Bool) : (ofTruth fun w => return sum (← outcomes m a b w)).Sure (Failure.IsFault m.Overfull) := by
  refine sure_ofTruth fun w => Yields.bind (P := fun _ => True) ?_ fun _ _ => .pure trivial
  refine (ha.content w).bind fun c _ => (Yields.mapM fun x _ => m.counting_yields _).bind fun worlds _ => ?_
  exact (Yields.mapM fun u _ => hb.truth u).imp fun _ _ => trivial

end Meaning

theorem Model.sure_of_sentence (m : Model) {letters : List Atom} {f : Formula} (hf : Sentence letters f) :
    (m.meaning f).Sure (Failure.IsFault m.Overfull) := by
  induction hf with
  | atom _ => exact ⟨fun _ => trivial, fun _ => trivial⟩
  | top => exact ⟨fun _ => trivial, fun _ => m.counting_yields _⟩
  | bot => exact ⟨fun _ => trivial, fun _ => m.counting_yields _⟩
  | neg _ ha => exact ha.neg
  | box _ ha => exact ha.box
  | diamond _ ha => exact ha.diamond
  | and _ _ ha hb => exact ha.and hb
  | or _ _ ha hb => exact ha.or hb
  | boxRight _ _ ha hb => exact Meaning.sure_outcomes ha hb _
  | diamondRight _ _ ha hb => exact Meaning.sure_outcomes ha hb _
  | ground _ _ ha hb => exact Meaning.sure_related ha hb _
  | essence _ _ ha hb => exact Meaning.sure_related ha hb fun c d => c.swapped.grounds d.swapped
  | identity _ _ ha hb => exact Meaning.sure_related ha hb fun c d => c = d

theorem Model.sure_of_primitive (m : Model) {g : Formula}
    (hg : ∀ op ∈ g.operators, op ∈ Theory.counterfactual.primitives) : (m.meaning g).Sure (Failure.IsFault m.Overfull) :=
  m.sure_of_sentence (Sentence.of_over (show g.Over _ g.atoms from ⟨hg, fun _ ha => ha⟩))

/-- A formula has a truth value and a content at every state. -/
def Model.Evaluates (m : Model) (g : Formula) : Prop := ∀ w, (∃ t, m.isTrue g w = .ok t) ∧ ∃ c, m.content g w = .ok c

theorem Model.evaluates_of_primitive {m : Model} (hn : m.space.n < 64) {g : Formula}
    (hg : ∀ op ∈ g.operators, op ∈ Theory.counterfactual.primitives) : m.Evaluates g := by
  have htotal := m.total_of_sentence hn (Sentence.of_over (show g.Over _ g.atoms from ⟨hg, fun _ ha => ha⟩))
  exact fun w => ⟨htotal.truth w, htotal.content w⟩

/-- The encoder deals with a formula at every state, and neither it nor the evaluator finds an operator in it that is not
known. -/
structure Supported (g : Formula) : Prop where
  /-- In time, whatever the encoder was asked before. -/
  encodes : ∀ (settings : Settings) (letters : List Atom) (deadline : Deadline) (asked : List Query),
    (∀ a ∈ g.atoms, a ∈ letters) → deadline.Open → (∀ q ∈ asked, q.Proper ⟨settings.n⟩ letters) →
    ∃ e replies e', Encoder.build settings letters deadline = .ok e ∧ asked.mapM Query.run e = .ok replies e' ∧
      (∃ reply e'', (Query.truthAtEval g).run e' = .ok reply e'') ∧
      ∀ w : State, w.bits < (StateSpace.mk settings.n).size →
        (∃ reply e'', (Query.truth g w).run e' = .ok reply e'') ∧ ∃ reply e'', (Query.content g w).run e' = .ok reply e''
  /-- No matter what the model is like. -/
  known : ∀ (m : Model) (w : State) (f : Failure), m.isTrue g w = .error f ∨ m.content g w = .error f → ¬ f.IsUnsupported

theorem supported_of_primitive {g : Formula} (hg : ∀ op ∈ g.operators, op ∈ Theory.counterfactual.primitives) :
    Supported g where
  encodes settings letters deadline asked hletters hdeadline hasked := by
    obtain ⟨e, hbuild, hvalid, -⟩ := (build_valid settings letters deadline).resolve_right fun h => by
      obtain ⟨f, -, hf⟩ := h
      exact hdeadline.not_late f hf
    have hspace : (foundation settings letters deadline).frame.space = ⟨settings.n⟩ :=
      (opening_describes settings letters).space_eq
    obtain ⟨replies, e', hrun, hgrow, -⟩ :=
      (Foundation.does_queries hasMeanings hvalid (hspace ▸ hasked)).succeeds hdeadline.not_late
    have hreply : ∀ q : Query, q.Proper ⟨settings.n⟩ letters → ∃ reply e'', q.run e' = .ok reply e'' := by
      intro q hq
      obtain ⟨reply, e'', hrun', -⟩ :=
        (Foundation.does_query hasMeanings hgrow.valid (hspace ▸ hq)).succeeds hdeadline.not_late
      exact ⟨reply, e'', hrun'⟩
    exact ⟨e, replies, e', hbuild, hrun, hreply _ ⟨hg, hletters⟩,
      fun w hw => ⟨hreply _ ⟨⟨hg, hletters⟩, hw⟩, hreply _ ⟨⟨hg, hletters⟩, hw⟩⟩⟩
  known m w f hf := by
    have htruth : Yields _ (m.isTrue g w) _ := (m.sure_of_primitive hg).truth w
    have hcontent : Yields _ (m.content g w) _ := (m.sure_of_primitive hg).content w
    rcases hf with hf | hf
    · rw [hf] at htruth
      exact htruth.not_isUnsupported
    · rw [hf] at hcontent
      exact hcontent.not_isUnsupported

end Truthmaker

/-! Histories. The evaluator fails only where a history has no state, or where times cannot be counted. -/

namespace History

section runs

variable {F : Failure → Prop} {test : Nat → Except Failure Bool} (h : ∀ i, Yields F (test i) fun _ => True)
include h

theorem allFrom_yields (i count : Nat) : Yields F (allFrom test i count) fun _ => True := by
  induction count generalizing i with
  | zero => trivial
  | succ count ih =>
    refine (h i).bind fun t _ => ?_
    cases t with
    | true => exact ih (i + 1)
    | false => trivial

theorem someFrom_yields (i count : Nat) : Yields F (someFrom test i count) fun _ => True :=
  (allFrom_yields (fun j => (h j).bind fun _ _ => .pure trivial) i count).bind fun _ _ => .pure trivial

end runs

theorem ofFault_yields {α : Type} (x : Except Fault α) :
    Yields (Failure.IsFault fun _ => True) (Failure.ofFault x) fun _ => True := by
  apply Yields.ofFault
  cases x <;> trivial

theorem Model.isTrue_yields (m : Model) {letters : List Atom} {f : Formula} (hf : Sentence letters f) (h t : Nat) :
    Yields (Failure.IsFault fun _ => True) (m.isTrue f h t) fun _ => True := by
  induction hf generalizing h t with
  | @atom a _ =>
    rw [isTrue]
    cases m.valuation.meaning? a with
    | none => trivial
    | some states => exact (ofFault_yields _).bind fun _ _ => .pure trivial
  | top => trivial
  | bot => trivial
  | neg _ ih => exact (ih h t).bind fun _ _ => .pure trivial
  | box _ ih => exact allFrom_yields (fun i => ih i t) 0 _
  | diamond _ ih => exact someFrom_yields (fun i => ih i t) 0 _
  | future _ ih => exact (ofFault_yields _).bind fun count _ => allFrom_yields (ih h) (t + 1) count
  | someFuture _ ih => exact (ofFault_yields _).bind fun count _ => someFrom_yields (ih h) (t + 1) count
  | past _ ih => exact allFrom_yields (ih h) 0 t
  | somePast _ ih => exact someFrom_yields (ih h) 0 t
  | and _ _ iha ihb =>
    refine (iha h t).bind fun b _ => ?_
    cases b with
    | true => exact ihb h t
    | false => trivial
  | or _ _ iha ihb =>
    refine (iha h t).bind fun b _ => ?_
    cases b with
    | true => trivial
    | false => exact ihb h t

/-- A formula has a truth value at every time of every history. -/
def Model.Evaluates (m : Model) (g : Formula) : Prop :=
  ∀ h < m.histories.length, ∀ t < 2 * m.m - 1, ∃ b, m.isTrue g h t = .ok b

theorem Model.evaluates_of_primitive {m : Model} (hm : m.Timed) {g : Formula}
    (hg : ∀ op ∈ g.operators, op ∈ Theory.bimodal.primitives) : m.Evaluates g := by
  intro h hh t ht
  have hsentence := Sentence.of_over (show g.Over _ g.atoms from ⟨hg, fun _ ha => ha⟩)
  exact (Model.isTrue_gives hm hsentence (List.getElem?_eq_getElem hh) ht).returns

/-- The encoder deals with a formula at every point, and neither it nor the evaluator finds an operator in it that is not
known. -/
structure Supported (g : Formula) : Prop where
  /-- In time, whatever the encoder was asked before. -/
  encodes : ∀ (settings : Settings) (m : Nat) (letters : List Atom) (deadline : Deadline) (asked : List Query),
    Timed settings m → (∀ a ∈ g.atoms, a ∈ letters) → deadline.Open → (∀ q ∈ asked, q.Proper settings.n m letters) →
    ∃ e lits e', Encoder.build settings letters deadline = .ok e ∧ asked.mapM Query.run e = .ok lits e' ∧
      (∃ l e'', (Query.truthAtEval g).run e' = .ok l e'') ∧
      ∀ h < Frame.bound settings.n m, ∀ t < 2 * m - 1, ∃ l e'', (Query.truth g h t).run e' = .ok l e''
  /-- No matter what the model is like. -/
  known : ∀ (m : Model) (h t : Nat) (f : Failure), m.isTrue g h t = .error f → ¬ f.IsUnsupported

theorem supported_of_primitive {g : Formula} (hg : ∀ op ∈ g.operators, op ∈ Theory.bimodal.primitives) :
    Supported g where
  encodes settings m letters deadline asked hm hletters hdeadline hasked := by
    have hopen := opening_describes letters hm
    obtain ⟨e, hbuild, hvalid, -⟩ := (build_valid letters hm deadline).resolve_right fun h => by
      obtain ⟨f, -, hf⟩ := h
      exact hdeadline.not_late f hf
    have hspace : (foundation letters hm deadline).frame.space.n = settings.n := congrArg StateSpace.n hopen.space_eq
    have hfm : (foundation letters hm deadline).frame.m = m := hopen.m_eq
    have hslots : (foundation letters hm deadline).frame.numHistories = Frame.bound settings.n m := hopen.numHistories_eq
    obtain ⟨lits, e', hrun, hgrow, -⟩ := (Foundation.does_queries (hasMeanings hm) hvalid
      (by rw [hspace, hfm, hslots]) (by rwa [hspace, hfm])).succeeds hdeadline.not_late
    have hreply : ∀ q : Query, q.Proper settings.n m letters → ∃ l e'', q.run e' = .ok l e'' := by
      intro q hq
      obtain ⟨l, e'', hrun', -⟩ := (Foundation.does_query (hasMeanings hm) hgrow.valid
        (by rw [hspace, hfm, hslots]) (by rwa [hspace, hfm])).succeeds hdeadline.not_late
      exact ⟨l, e'', hrun'⟩
    exact ⟨e, lits, e', hbuild, hrun, hreply _ ⟨hg, hletters⟩, fun h hh t ht => hreply _ ⟨⟨hg, hletters⟩, hh, ht⟩⟩
  known m h t f hf := by
    have hyields := m.isTrue_yields (Sentence.of_over (show g.Over _ g.atoms from ⟨hg, fun _ ha => ha⟩)) h t
    rw [hf] at hyields
    exact hyields.not_isUnsupported

end History

/-! Checks. -/

/-- The encoder of a theory deals with a formula, and its evaluator knows all operators in it. -/
def Theory.Supports : Theory → Formula → Prop
  | counterfactual, g => Truthmaker.Supported g
  | bimodal, g => History.Supported g

theorem Theory.supports_of_primitive {theory : Theory} {g : Formula} (hg : ∀ op ∈ g.operators, op ∈ theory.primitives) :
    theory.Supports g := by
  cases theory with
  | counterfactual => exact Truthmaker.supported_of_primitive hg
  | bimodal => exact History.supported_of_primitive hg

variable {theory : Theory} {p : Problem}

/-- A result that is right does not tell of an operator that is not known. -/
theorem Footing.Settles.known {g : Footing theory p.settings p.letters} {d : Deadline} {result : Except Failure Report}
    (h : g.Settles d result) : Yields (fun f => ¬ f.IsUnsupported) result fun r => ∀ e ∈ r.stop, ¬ e.IsUnsupported := by
  cases result with
  | error f =>
    rcases h with ⟨rfl, -⟩ | hlate | ⟨_, _, _, -, -, hfault⟩
    · exact id
    · exact hlate.not_isUnsupported
    · exact hfault.not_isUnsupported
  | ok r =>
    have hstop : r.stop = none ∨ ∃ e, r.stop = some e ∧ ¬ e.IsUnsupported := by
      rcases h with ⟨-, σs, hlisted⟩ | ⟨-, hnone, -⟩
      · rcases hlisted.stop with ⟨hnone, -⟩ | ⟨-, ⟨hexhausted, -⟩ | ⟨htimeout, -⟩⟩
        · exact .inl hnone
        · exact .inr ⟨_, hexhausted, id⟩
        · exact .inr ⟨_, htimeout, id⟩
      · exact .inl hnone
    intro e he
    rcases hstop with hnone | ⟨e', hsome, hknown⟩
    · rw [hnone] at he
      cases he
    · rw [hsome] at he
      cases he
      exact hknown

theorem Settings.requireM_known {settings : Settings} {f : Failure} (h : settings.requireM = .error f) :
    ¬ f.IsUnsupported := by
  rw [requireM] at h
  split at h
  · rw [positive] at h
    split at h
    · cases h
      exact id
    · split at h
      · cases h
        exact id
      · cases h
  · cases h
    exact id

theorem Check.prepared_known (hp : p.Over theory p.letters) (clock : Nat → Nat) (interrupt : Bool) :
    Yields (fun f => ¬ f.IsUnsupported) (Check.prepared theory p clock interrupt) fun r =>
      ∀ e ∈ r.stop, ¬ e.IsUnsupported := by
  by_cases hn : p.settings.n = 0
  · rw [Check.prepared, if_pos hn]
    exact id
  cases theory with
  | counterfactual => exact ((Truthmaker.footing p.settings p.letters).prepared_settles hp hn clock interrupt).known
  | bimodal =>
    cases hm : p.settings.requireM with
    | ok m => exact ((History.footing (History.timed_of_requireM hm) p.letters).prepared_settles hp hn clock interrupt).known
    | error f =>
      have hrun : Check.prepared .bimodal p clock interrupt = .error f := by
        rw [Check.prepared, if_neg hn, Encoding.build, History.Encoder.build, hm]
        rfl
      rw [hrun]
      exact Settings.requireM_known hm

/-- If a check fails for an operator that is not known, a formula could not be prepared. -/
theorem check_known (theory : Theory) (p : Problem) (clock : Nat → Nat) (interrupt : Bool) :
    Yields (fun f => f.IsUnsupported → ∃ a ∈ p.premises ++ p.conclusions, theory.prepare a = .error f)
      (check theory p clock interrupt) fun r => ∀ e ∈ r.stop, ¬ e.IsUnsupported := by
  have hprepare : ∀ a ∈ p.premises ++ p.conclusions, Yields (fun f => f.IsUnsupported →
      ∃ a ∈ p.premises ++ p.conclusions, theory.prepare a = .error f) (theory.prepare a) fun g =>
        ∀ op ∈ g.operators, op ∈ theory.primitives := by
    intro a ha
    obtain ⟨e, -, ⟨hprimitive, hrun⟩ | ⟨op, -, -, hrun⟩⟩ := theory.prepare_cases a
    · rw [hrun]
      exact hprimitive
    · rw [hrun]
      exact fun _ => ⟨a, ha, hrun⟩
  rw [List.forall_mem_append] at hprepare
  refine (Yields.mapM hprepare.1).bind fun premises hpremises => ?_
  refine (Yields.mapM hprepare.2).bind fun conclusions hconclusions => ?_
  have hover := Problem.over_letters (p := { p with premises, conclusions }) (List.forall_mem_append.2 ⟨hpremises, hconclusions⟩)
  exact (Check.prepared_known hover clock interrupt).mono fun f hf hf' => absurd hf' hf

/-- A formula is prepared just if all operators of its expansion are primitive, and then it is its expansion, the encoder
of the theory deals with it, and it can be evaluated in all models of the theory: in those with truthmakers as long as
there are fewer than 64 atomic states, since the states of more can no longer be counted, and in those with histories if
each history has a state at each time. So when a check fails for an operator that the theory does not know, this is because
a premise or a conclusion could not be prepared. -/
theorem prepared_formulas_are_supported (theory : Theory) :
    (∀ f, ∃ e, Definitions.standard.expand f = .ok e ∧
      ((∃ g, theory.prepare f = .ok g) ↔ ∀ op ∈ e.operators, op ∈ theory.primitives) ∧
      (∀ g, theory.prepare f = .ok g → g = e ∧ theory.Supports g ∧
        (theory = .counterfactual → ∀ m : Truthmaker.Model, m.space.n < 64 → m.Evaluates g) ∧
        (theory = .bimodal → ∀ m : History.Model, m.Timed → m.Evaluates g)) ∧
      ∀ failure, theory.prepare f = .error failure → ∃ op ∈ e.operators, op ∉ theory.primitives ∧
        failure = .refused (.unsupportedOperator theory.name op)) ∧
    ∀ (p : Problem) (clock : Nat → Nat) (interrupt : Bool),
      (∀ failure, check theory p clock interrupt = .error failure → failure.IsUnsupported →
        ∃ f ∈ p.premises ++ p.conclusions, theory.prepare f = .error failure) ∧
      ∀ r, check theory p clock interrupt = .ok r → ∀ e ∈ r.stop, ¬ e.IsUnsupported := by
  refine ⟨fun f => ?_, fun p clock interrupt => ?_⟩
  · obtain ⟨e, hexpand, hcases⟩ := theory.prepare_cases f
    refine ⟨e, hexpand, ?_⟩
    rcases hcases with ⟨hprimitive, hrun⟩ | ⟨op, hop, hnot, hrun⟩
    · rw [hrun]
      refine ⟨iff_of_true ⟨e, rfl⟩ hprimitive, fun g hg => ?_, fun failure hfailure => ?_⟩
      · cases hg
        refine ⟨rfl, theory.supports_of_primitive hprimitive, ?_, ?_⟩
        · rintro rfl m hn
          exact Truthmaker.Model.evaluates_of_primitive hn hprimitive
        · rintro rfl m hm
          exact History.Model.evaluates_of_primitive hm hprimitive
      · cases hfailure
    · rw [hrun]
      refine ⟨iff_of_false ?_ fun h => hnot (h op hop), fun g hg => ?_, fun failure hfailure => ?_⟩
      · rintro ⟨g, hg⟩
        cases hg
      · cases hg
      · cases hfailure
        exact ⟨op, hop, hnot, rfl⟩
  · have hknown := check_known theory p clock interrupt
    refine ⟨fun failure hrun => ?_, fun r hrun => ?_⟩
    · rw [hrun] at hknown
      exact hknown
    · rw [hrun] at hknown
      exact hknown

/-- Counterfactual necessity is written out as a counterfactual, which one theory supports and the other does not know. -/
theorem prepared_formulas_are_supported_cfBox :
    Theory.counterfactual.prepare (.unary .cfBox .bot) = .ok (.binary .boxRight .top .bot) ∧
      Truthmaker.Supported (.binary .boxRight .top .bot) ∧ Truthmaker.split.Evaluates (.binary .boxRight .top .bot) ∧
      Theory.bimodal.prepare (.unary .cfBox .bot) =
        .error (.refused (.unsupportedOperator "bimodal" (.binary .boxRight))) := by
  have hprepare : Theory.counterfactual.prepare (.unary .cfBox .bot) = .ok (.binary .boxRight .top .bot) := by cbv
  obtain ⟨_, -, -, hsupports, -⟩ := (prepared_formulas_are_supported .counterfactual).1 (.unary .cfBox .bot)
  obtain ⟨-, hsupported, hevaluates, -⟩ := hsupports _ hprepare
  exact ⟨hprepare, hsupported, hevaluates rfl Truthmaker.split (by decide), by cbv⟩

end Countermodels
