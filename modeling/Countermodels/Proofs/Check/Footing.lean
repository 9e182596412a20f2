import Countermodels.Check
import Countermodels.Proofs.Cnf.Imposes
import Countermodels.Proofs.Draft
import Countermodels.Proofs.Formula.Subformulas
import Countermodels.Proofs.Writes

/-! What a check needs of a theory. An encoding stands on clauses that describe models, and what is written
later says of these models only what is true of them. The goal of a problem, written on such a footing,
can be met in an assignment just if the model it describes refutes the argument. -/

namespace Countermodels

/-- All premises are true and, if there are conclusions, one of them is false. -/
def Countermodel.Refutes (m : Countermodel) (p : Problem) : Prop :=
  (∀ f ∈ p.premises, m.isTrue f = .ok true) ∧ (p.conclusions ≠ [] → ∃ f ∈ p.conclusions, m.isTrue f = .ok false)

/-- All formulas of the argument have only the operators of the theory and the given letters. -/
def Problem.Over (p : Problem) (theory : Theory) (letters : List Atom) : Prop :=
  ∀ f ∈ p.premises ++ p.conclusions, f.Over theory.primitives letters

namespace Encoding

def withDraft : Encoding → Draft → Encoding
  | truthmaker e, draft => truthmaker { e with draft }
  | history e, draft => history { e with draft }

/-- The model that literals describe. -/
def extractBy (e : Encoding) (holds : Lit → Bool) : Except Failure Countermodel :=
  match e with
  | truthmaker e => .truthmaker <$> e.extract holds
  | history e => .history <$> e.extract holds

theorem extract_eq (e : Encoding) (s : Session) : e.extract s = e.extractBy s.holds := by
  cases e <;> rfl

/-- A step under the deadline of an encoding only changes what is being written. -/
def withResult {α : Type} (e : Encoding) : EStateM.Result Failure Draft α → EStateM.Result Failure Encoding α
  | .ok a d => .ok a (e.withDraft d)
  | .error failure d => .error failure (e.withDraft d)

theorem lift_eq {α : Type} (m : DraftM α) (e : Encoding) : lift m e = e.withResult (m e.draft) := by
  cases e with
  | truthmaker e =>
    simp only [lift, Truthmaker.Encoder.lift, draft]
    cases m e.draft <;> rfl
  | history e =>
    simp only [lift, History.Encoder.lift, draft]
    cases m e.draft <;> rfl

@[simp] theorem draft_withDraft (e : Encoding) (d : Draft) : (e.withDraft d).draft = d := by
  cases e <;> rfl

end Encoding

/-- The clauses of a theory for some settings and letters, and the models they describe. -/
structure Footing (theory : Theory) (settings : Settings) (letters : List Atom) where
  basis : Basis
  /-- The formula that stands when the encoding is built. -/
  start : Cnf
  model : (Nat → Bool) → Countermodel
  /-- All that the encoding keeps is what it should be, under a deadline. -/
  Valid : Deadline → Encoding → Prop
  fits : ∀ {d e}, Valid d e → basis.Fits e.draft.cnf
  same_deadline : ∀ {d e}, Valid d e → d.Same e.draft.deadline
  redraft : ∀ {d e draft}, Valid d e → e.draft.cnf ≤ draft.cnf → basis.Fits draft.cnf → d.Same draft.deadline →
    Valid d (e.withDraft draft)
  builds : ∀ d, (∃ e, Encoding.build theory settings letters d = .ok e ∧ Valid d e ∧ e.draft.cnf = start) ∨
    ∃ f, Encoding.build theory settings letters d = .error f ∧ d.Late f
  start_fits : Basis.start.Fits start
  holds_of_start : ∀ {σ}, start.satisfiedBy σ → basis.Sat start σ
  numVars_le : basis.numVars ≤ start.numVars
  model_congr : ∀ {σ τ}, Agree basis.numVars σ τ → model σ = model τ
  returns : ∀ {σ a}, basis.holds σ → a.Over theory.primitives letters → ∃ t, (model σ).isTrue a = .ok t
  writes : ∀ {d e a}, Valid d e → a.Over theory.primitives letters →
    Writes d.Late (fun e e' => Valid d e' ∧ basis.Extends e.draft.cnf e'.draft.cnf) (Encoding.truthAtEval a) e
      fun e' l => basis.Denotes e'.draft.cnf l fun σ => (model σ).isTrue a = .ok true
  /-- Literals on which distinct models differ. -/
  essential : List Lit
  essential_eq : ∀ {d e}, Valid d e → e.essential = essential
  essential_lt : ∀ l ∈ essential, l.var < basis.numVars
  extracts : ∀ {d e σ} {holds : Lit → Bool}, Valid d e → basis.holds σ →
    (∀ l : Lit, l.var < basis.numVars → holds l = l.holds σ) → e.extractBy holds = .ok (model σ)
  sameShape_iff : ∀ {σ τ}, start.satisfiedBy σ → start.satisfiedBy τ →
    ((model σ).sameShape (model τ) = true ↔ ∀ l ∈ essential, l.holds σ = l.holds τ)

namespace Footing

variable {theory : Theory} {settings : Settings} {letters : List Atom} {g : Footing theory settings letters}
  {d : Deadline} {e e' : Encoding} {p : Problem}

/-- A later encoding: nothing more is said of the variables that were there. -/
structure Grows (g : Footing theory settings letters) (d : Deadline) (e e' : Encoding) : Prop where
  valid : g.Valid d e'
  extend : g.basis.Extends e.draft.cnf e'.draft.cnf

instance : IsTrans Encoding (g.Grows d) := ⟨fun _ _ _ h h' => ⟨h'.valid, h.extend.extend h'.extend⟩⟩

theorem grows_refl (he : g.Valid d e) : g.Grows d e e := ⟨he, .refl (g.fits he)⟩

theorem basis_fits_start (g : Footing theory settings letters) : g.basis.Fits g.start := by
  have hopen : Deadline.never.Open := fun _ => rfl
  rcases g.builds .never with ⟨e, -, hvalid, hcnf⟩ | ⟨f, -, hlate⟩
  · exact hcnf ▸ g.fits hvalid
  · exact (hopen.not_late f hlate).elim

/-- All clauses are true, if those at the start and those that came later are. -/
theorem satisfiedBy_of_sat {f : Cnf} {σ : Nat → Bool} (hle : g.start ≤ f) (hstart : g.start.satisfiedBy σ)
    (hσ : g.basis.Sat f σ) : f.satisfiedBy σ := by
  refine Basis.sat_start.1 ((Basis.sat_iff_of_le g.start_fits hle).2 ⟨Basis.sat_start.2 hstart, fun c hc => ?_⟩)
  exact hσ.2 c (List.drop_subset_drop_left _ g.basis_fits_start.size_le hc)

theorem sat_of_satisfiedBy {f : Cnf} {σ : Nat → Bool} (hle : g.start ≤ f) (hσ : f.satisfiedBy σ) :
    g.basis.Sat f σ := by
  have hall := Basis.sat_start.2 hσ
  refine ⟨(g.holds_of_start (Basis.sat_start.1 (hall.mono hle))).1, fun c hc => ?_⟩
  exact Cnf.satisfiedBy_iff.1 hσ c (List.mem_of_mem_drop hc)

/-- Literals for the truth of formulas at the point of evaluation, one after the other. -/
theorem does_truths (he : g.Valid d e) {fs : List Formula} (hfs : ∀ f ∈ fs, f.Over theory.primitives letters) :
    Writes d.Late (g.Grows d) (fs.mapM Encoding.truthAtEval) e fun e' ls =>
      List.Forall₂ (fun f l => g.basis.Denotes e'.draft.cnf l fun σ => (g.model σ).isTrue f = .ok true) fs ls := by
  refine .mapM (fun _ _ h => grows_refl h.valid) (grows_refl he) (fun f s s' l h hl => hl.mono h.extend.le) ?_
  exact fun f hf e₁ h => (g.writes h.valid (hfs f hf)).weaken fun l e₂ hgrow _ => ⟨hgrow.1, hgrow.2⟩

/-- What the clauses about the goal say. -/
structure Aims (g : Footing theory settings letters) (d : Deadline) (p : Problem) (e e' : Encoding) (goal : Lit) :
    Prop where
  valid : g.Valid d e'
  le : e.draft.cnf ≤ e'.draft.cnf
  known : goal.var < e'.draft.cnf.numVars
  sound : ∀ σ, g.basis.Sat e'.draft.cnf σ → goal.holds σ = true → (g.model σ).Refutes p
  complete : ∀ σ, g.basis.Sat e.draft.cnf σ → ∃ τ, Agree e.draft.cnf.numVars σ τ ∧ g.basis.Sat e'.draft.cnf τ ∧
    ((g.model σ).Refutes p → goal.holds τ = true)

/-- The literals of premises are true and, if there are conclusions, one of theirs is false. -/
def Met (premises conclusions : List Lit) (σ : Nat → Bool) : Prop :=
  (∀ l ∈ premises, l.holds σ = true) ∧ (conclusions ≠ [] → ∃ l ∈ conclusions, l.holds σ = false)

/-- The clauses by which a literal implies that the literals of a goal are as they should be. -/
def goalClauses (goal : Lit) (premises conclusions : List Lit) : StateM Cnf Unit := do
  Emit.implyAll goal premises
  if conclusions ≠ [] then Emit.implyAny goal (conclusions.map Lit.neg)

theorem imposes_goalClauses {n : Nat} {goal : Lit} {premises conclusions : List Lit} (hgoal : goal.var < n)
    (hpremises : ∀ l ∈ premises, l.var < n) (hconclusions : ∀ l ∈ conclusions, l.var < n) :
    Imposes n (goalClauses goal premises conclusions) fun σ =>
      goal.holds σ = true → Met premises conclusions σ := by
  have hneg : ∀ l ∈ conclusions.map Lit.neg, l.var < n := by simpa using hconclusions
  refine ((Imposes.implyAll hgoal hpremises).seq (.ite fun _ => .implyAny hgoal hneg)).congr fun σ => ?_
  simp only [Met, List.mem_map, exists_exists_and_eq_and, Lit.holds_neg, Bool.not_eq_true']
  exact ⟨fun h hσ => ⟨fun l hl => h.1 l hl hσ, fun hne => h.2 hne hσ⟩,
    fun h => ⟨fun l hl hσ => (h hσ).1 l hl, fun hne hσ => (h hσ).2 hne⟩⟩

theorem run_goal {draft : Draft} (hpoll : draft.deadline.poll.1 = false) (premises conclusions : List Lit) :
    (do
      Draft.checkDeadline
      let goal ← Draft.emit Emit.fresh
      Draft.emit (Emit.implyAll goal premises)
      if conclusions ≠ [] then Draft.emit (Emit.implyAny goal (conclusions.map Lit.neg))
      return goal : DraftM Lit) draft = .ok (.positive draft.cnf.numVars)
        ⟨(goalClauses (.positive draft.cnf.numVars) premises conclusions draft.cnf.fresh.2).2,
          draft.deadline.poll.2⟩ := by
  rw [Draft.checkDeadline_bind hpoll, Draft.emit_bind, Draft.emit_bind, goalClauses]
  by_cases hne : conclusions = [] <;> simp only [hne, ne_eq, not_true_eq_false, not_false_eq_true, if_true, if_false] <;> rfl

section literals

variable {f : Cnf} {premises conclusions : List Lit} {σ : Nat → Bool} {fs : List Formula} {ls : List Lit}

theorem some_fails_iff (hσ : g.basis.Sat f σ) (hfs : ∀ a ∈ fs, a.Over theory.primitives letters)
    (h : List.Forall₂ (fun a l => g.basis.Denotes f l fun σ => (g.model σ).isTrue a = .ok true) fs ls) :
    (∃ l ∈ ls, l.holds σ = false) ↔ ∃ a ∈ fs, (g.model σ).isTrue a = .ok false := by
  induction h with
  | nil => simp
  | @cons a l as ls hx _ ih =>
    rw [List.forall_mem_cons] at hfs
    obtain ⟨t, ht⟩ := g.returns hσ.1 hfs.1
    have hl : l.holds σ = t := by
      have hiff := hx.2 σ hσ
      dsimp only at hiff
      rw [ht, Except.ok.injEq] at hiff
      exact Bool.eq_iff_iff.2 hiff
    simp only [List.mem_cons, exists_eq_or_imp, ih hfs.2, hl, ht, Except.ok.injEq]

theorem met_iff (hσ : g.basis.Sat f σ) (hp : p.Over theory letters)
    (hpremises : List.Forall₂ (fun a l => g.basis.Denotes f l fun σ => (g.model σ).isTrue a = .ok true)
      p.premises premises)
    (hconclusions : List.Forall₂ (fun a l => g.basis.Denotes f l fun σ => (g.model σ).isTrue a = .ok true)
      p.conclusions conclusions) : Met premises conclusions σ ↔ (g.model σ).Refutes p := by
  have hnil : conclusions = [] ↔ p.conclusions = [] := by
    rw [← List.length_eq_zero_iff, ← List.length_eq_zero_iff, hconclusions.length_eq]
  rw [Met, Countermodel.Refutes, Basis.forall_holds_iff hpremises hσ,
    some_fails_iff hσ (fun a ha => hp a (List.mem_append_right _ ha)) hconclusions, ne_eq, ne_eq, hnil]

end literals

theorem Aims.of_grows {e₁ : Encoding} {goal : Lit} (he : g.Valid d e) (h : g.Grows d e e₁)
    (haims : g.Aims d p e₁ e' goal) : g.Aims d p e e' goal where
  valid := haims.valid
  le := Cnf.le_trans h.extend.le haims.le
  known := haims.known
  sound := haims.sound
  complete σ hσ := by
    obtain ⟨τ, hστ, hτ⟩ := h.extend.complete σ hσ trivial
    obtain ⟨υ, hτυ, hυ, hgoal⟩ := haims.complete τ hτ
    have hmodel : g.model σ = g.model τ := g.model_congr (hστ.mono (g.fits he).numVars_le)
    exact ⟨υ, hστ.trans (hτυ.mono h.extend.le.1), hυ, hmodel ▸ hgoal⟩

/-- The goal, once there are literals for the formulas of the argument. -/
theorem goalClauses_aims {premises conclusions : List Lit} (he : g.Valid d e) (hp : p.Over theory letters)
    (hpremises : List.Forall₂ (fun a l => g.basis.Denotes e.draft.cnf l fun σ => (g.model σ).isTrue a = .ok true)
      p.premises premises)
    (hconclusions : List.Forall₂ (fun a l => g.basis.Denotes e.draft.cnf l fun σ => (g.model σ).isTrue a = .ok true)
      p.conclusions conclusions) :
    g.Aims d p e (e.withDraft ⟨(goalClauses (.positive e.draft.cnf.numVars) premises conclusions e.draft.cnf.fresh.2).2,
      e.draft.deadline.poll.2⟩) (.positive e.draft.cnf.numVars) := by
  have hfits := g.fits he
  have hgoal : (Lit.positive e.draft.cnf.numVars).var < e.draft.cnf.fresh.2.numVars := by
    simp [Cnf.fresh]
  have hlt : ∀ l : Lit, l.var < e.draft.cnf.numVars → l.var < e.draft.cnf.fresh.2.numVars :=
    fun l hl => Nat.lt_succ_of_lt hl
  have himpose := (imposes_goalClauses hgoal (fun l hl => hlt l (Basis.known_of_denotes hpremises l hl))
    (fun l hl => hlt l (Basis.known_of_denotes hconclusions l hl))).restricts g.basis _ hfits.fresh (Nat.le_refl _)
  have hle := Cnf.le_trans (Basis.le_fresh e.draft.cnf) himpose.le
  refine ⟨g.redraft he hle himpose.fits (g.same_deadline he).poll, ?_, ?_, fun σ hσ hgoalσ => ?_, fun σ hσ => ?_⟩
  · rw [Encoding.draft_withDraft]
    exact hle
  · rw [Encoding.draft_withDraft]
    exact Nat.lt_of_lt_of_le hgoal himpose.le.1
  · rw [Encoding.draft_withDraft] at hσ
    exact (met_iff (hσ.mono hle) hp hpremises hconclusions).1 (himpose.sound σ hσ hgoalσ)
  · classical
    rw [Encoding.draft_withDraft]
    have hagree := Agree.update e.draft.cnf.numVars σ (decide ((g.model σ).Refutes p))
    generalize hτ : Function.update σ e.draft.cnf.numVars (decide ((g.model σ).Refutes p)) = τ at hagree
    have hvalue : (Lit.positive e.draft.cnf.numVars).holds τ = true ↔ (g.model σ).Refutes p := by
      rw [Lit.holds_positive, ← hτ, Function.update_self, decide_eq_true_eq]
    have hmodel : g.model σ = g.model τ := g.model_congr (hagree.mono hfits.numVars_le)
    have hsat := hσ.congr hfits hagree
    obtain ⟨υ, hτυ, hυ⟩ := himpose.complete τ hsat fun hgoalτ => by
      rw [met_iff hsat hp hpremises hconclusions, ← hmodel]
      exact hvalue.1 hgoalτ
    refine ⟨υ, hagree.trans (hτυ.mono (Nat.le_succ _)), hυ, fun hrefutes => ?_⟩
    rw [← hτυ.holds hgoal]
    exact hvalue.2 hrefutes

/-- The goal of a problem is written, unless the deadline comes, and says of models that they refute the
argument. -/
theorem writeGoal_aims (he : g.Valid d e) (hp : p.Over theory letters) :
    Writes d.Late (fun _ _ => True) (Check.writeGoal p) e fun e' goal => g.Aims d p e e' goal := by
  refine (does_truths he fun f hf => hp f (List.mem_append_left _ hf)).chain (fun premises e₁ h₁ hprem => ?_)
    fun _ _ _ _ => trivial
  refine (does_truths h₁.valid fun f hf => hp f (List.mem_append_right _ hf)).chain (fun conclusions e₂ h₂ hconc => ?_)
    fun _ _ _ _ => trivial
  have haims := goalClauses_aims h₂.valid hp (hprem.imp fun f l h => h.mono h₂.extend.le) hconc
  cases hpoll : e₂.draft.deadline.poll.1 with
  | false =>
    refine .of_run ((Encoding.lift_eq _ e₂).trans (congrArg _ (run_goal hpoll ..))) trivial ?_
    exact (haims.of_grows h₁.valid h₂).of_grows he h₁
  | true =>
    refine .of_error ((Encoding.lift_eq _ e₂).trans (congrArg _ (Draft.checkDeadline_bind_late hpoll _))) ?_
    exact (g.same_deadline h₂.valid).late hpoll

end Footing

end Countermodels
