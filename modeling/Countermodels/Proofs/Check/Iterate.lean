import Countermodels.Proofs.Check.Footing
import Countermodels.Proofs.Sat.Session

/-! The search for further models. The assignments that were found differ from each other in an essential
literal, so there are no more of them than there are ways to value these literals; and when there are no
more, every assignment that meets the goal agrees with one of them on all essential literals. -/

open Countermodels.Sat

namespace Countermodels

namespace Countermodel

variable {m : Countermodel} {p : Problem} {fs : List Formula}

theorem verifyPremises_eq (h : ∀ f ∈ fs, m.isTrue f = .ok true) : m.verifyPremises fs = .ok () := by
  induction fs with
  | nil => rfl
  | cons f fs ih =>
    rw [List.forall_mem_cons] at h
    rw [verifyPremises, h.1]
    exact ih h.2

theorem refutes_eq (hreturns : ∀ f ∈ fs, ∃ t, m.isTrue f = .ok t) (h : ∃ f ∈ fs, m.isTrue f = .ok false) :
    m.refutes fs = .ok true := by
  induction fs with
  | nil => simp at h
  | cons f fs ih =>
    rw [List.forall_mem_cons] at hreturns
    obtain ⟨⟨t, ht⟩, hreturns⟩ := hreturns
    rw [refutes, ht]
    cases t with
    | false => rfl
    | true =>
      simp only [List.mem_cons, exists_eq_or_imp, ht, Except.ok.injEq, Bool.true_eq_false, false_or] at h
      exact ih hreturns h

/-- A countermodel passes its check. -/
theorem Refutes.verify_eq (h : m.Refutes p) (hreturns : ∀ f ∈ p.conclusions, ∃ t, m.isTrue f = .ok t) :
    m.verify p.premises p.conclusions = .ok () := by
  rw [verify, verifyPremises_eq h.1, ok_bind]
  split
  · next hne =>
    rw [refutes_eq hreturns (h.2 hne)]
    rfl
  · rfl

end Countermodel

namespace Check

/-- A session that is to search an encoding for a model that meets the goal. -/
def aimed (e : Encoding) (goal : Lit) : Session :=
  ((({} : Session).load e.draft.cnf).limit e.draft.deadline.budget).assume goal

/-- The enumeration of the models that meet the goal, after the one that a session holds. -/
def others (e : Encoding) (goal : Lit) (s : Session) : Enumeration :=
  ({ essential := e.essential, assumptions := [goal] } : Enumeration).resume s

/-- The sessions that a check searches: one for the goal; if there is no model, one for the frame; and otherwise one for
each further model, as long as there are fewer than were asked for. -/
inductive Asks (p : Problem) (e : Encoding) (goal : Lit) : Session → Prop
  | goal : Asks p e goal (aimed e goal)
  | frame {s : Session} (hgoal : (aimed e goal).solve = .ok (.unsat, s)) : Asks p e goal s
  | further {s s' : Session} {k : Nat} {e' : Enumeration} (hgoal : (aimed e goal).solve = .ok (.sat, s))
      (hreach : (others e goal s).Reaches s k e' s') (hk : k + 1 < p.settings.iterate) : Asks p e goal (e'.query s')

/-- One of the searches of a check breaks off. -/
def Breaks (p : Problem) (e : Encoding) (goal : Lit) (f : Fault) : Prop := ∃ s, Asks p e goal s ∧ s.Breaks f

end Check

/-- A failure that is a fault of a kind. -/
def Failure.IsFault (F : Fault → Prop) (f : Failure) : Prop := ∃ x, f = .fault x ∧ F x

theorem Yields.ofFault {α : Type} {F : Fault → Prop} {x : Except Fault α} {P : α → Prop} (h : Yields F x P) :
    Yields (Failure.IsFault F) (Failure.ofFault x) P := by
  cases x with
  | ok a => exact h
  | error e => exact ⟨e, rfl, h⟩

namespace Footing

variable {theory : Theory} {p : Problem} {g : Footing theory p.settings p.letters} {d : Deadline} {e : Encoding}
  {goal : Lit}

theorem sameShape_iff_not_differ {σ τ : Nat → Bool} (hσ : g.start.satisfiedBy σ) (hτ : g.start.satisfiedBy τ) :
    (g.model σ).sameShape (g.model τ) = true ↔ ¬ Differ g.essential σ τ := by
  rw [g.sameShape_iff hσ hτ, Differ]
  simp

/-- An encoding with a literal for the goal, as a check searches it. -/
structure Written (g : Footing theory p.settings p.letters) (d : Deadline) (e : Encoding) (goal : Lit) : Prop where
  valid : g.Valid d e
  sentences : p.Over theory p.letters
  le : g.start ≤ e.draft.cnf
  known : goal.var < e.draft.cnf.numVars
  sound : ∀ σ, g.basis.Sat e.draft.cnf σ → goal.holds σ = true → (g.model σ).Refutes p
  complete : ∀ σ, g.start.satisfiedBy σ → ∃ τ, Agree g.start.numVars σ τ ∧ e.draft.cnf.satisfiedBy τ ∧
    ((g.model σ).Refutes p → goal.holds τ = true)

theorem Aims.written {e₀ : Encoding} (h : g.Aims d p e₀ e goal) (hp : p.Over theory p.letters)
    (hstart : e₀.draft.cnf = g.start) : g.Written d e goal where
  valid := h.valid
  sentences := hp
  le := hstart ▸ h.le
  known := h.known
  sound := h.sound
  complete σ hσ := by
    obtain ⟨τ, hστ, hτ, hgoal⟩ := h.complete σ (hstart ▸ g.holds_of_start hσ)
    rw [hstart] at hστ
    have hτstart := Basis.sat_start.1 ((Basis.sat_start.2 hσ).congr g.start_fits hστ)
    exact ⟨τ, hστ, g.satisfiedBy_of_sat (hstart ▸ h.le) hτstart hτ, hgoal⟩

/-- An assignment that meets the goal. -/
structure Hits (e : Encoding) (goal : Lit) (σ : Nat → Bool) : Prop where
  satisfied : e.draft.cnf.satisfiedBy σ
  met : goal.holds σ = true

namespace Written

variable (h : g.Written d e goal) {s : Session} {σ τ : Nat → Bool}
include h

theorem start_of_satisfied (hσ : e.draft.cnf.satisfiedBy σ) : g.start.satisfiedBy σ :=
  Basis.sat_start.1 ((Basis.sat_start.2 hσ).mono h.le)

theorem refutes (hσ : Hits e goal σ) : (g.model σ).Refutes p :=
  h.sound σ (g.sat_of_satisfiedBy h.le hσ.satisfied) hσ.met

theorem basis_le : g.basis.numVars ≤ e.draft.cnf.numVars := (g.fits h.valid).numVars_le

theorem fits : Basis.start.Fits e.draft.cnf where
  numVars_le := Nat.zero_le _
  size_le := Nat.zero_le _
  known c hc l hl := by
    obtain ⟨new, hnew⟩ := h.le.2
    rcases List.mem_append.1 (hnew ▸ List.mem_of_mem_drop hc) with hc | hc
    · exact Nat.lt_of_lt_of_le (g.start_fits.known c hc l hl) h.le.1
    · refine (g.fits h.valid).known c (List.drop_subset_drop_left _ g.basis_fits_start.size_le ?_) l hl
      rw [← hnew, ← Array.length_toList, List.drop_left]
      exact hc

theorem essential_lt : ∀ l ∈ g.essential, l.var < e.draft.cnf.numVars := fun l hl =>
  Nat.lt_of_lt_of_le (g.essential_lt l hl) h.basis_le

/-- What the encoding reads off a session is the model of the assignment that the session shows. -/
theorem extract_eq (hs : s.Shows e.draft.cnf.numVars σ) (hσ : e.draft.cnf.satisfiedBy σ) :
    e.extract s = .ok (g.model σ) := by
  rw [Encoding.extract_eq]
  exact g.extracts h.valid (g.sat_of_satisfiedBy h.le hσ).1 fun l hl => hs l (Nat.lt_of_lt_of_le hl h.basis_le)

theorem verify_eq (hσ : Hits e goal σ) : (g.model σ).verify p.premises p.conclusions = .ok () :=
  (h.refutes hσ).verify_eq fun f hf =>
    g.returns (g.sat_of_satisfiedBy h.le hσ.satisfied).1 (h.sentences f (List.mem_append_right _ hf))

theorem sameShape_iff (hσ : Hits e goal σ) (hτ : Hits e goal τ) :
    (g.model σ).sameShape (g.model τ) = true ↔ ¬ Differ g.essential σ τ :=
  sameShape_iff_not_differ (h.start_of_satisfied hσ.satisfied) (h.start_of_satisfied hτ.satisfied)

/-- What every assignment that meets the goal has, every countermodel has up to an assignment that agrees on the
essential literals. -/
theorem exists_hits (hσ : g.start.satisfiedBy σ) (hrefutes : (g.model σ).Refutes p) :
    ∃ τ, Hits e goal τ ∧ ¬ Differ g.essential σ τ := by
  obtain ⟨τ, hστ, hτ, hgoal⟩ := h.complete σ hσ
  refine ⟨τ, ⟨hτ, hgoal hrefutes⟩, ?_⟩
  rintro ⟨l, hl, hne⟩
  exact hne (hστ.holds (Nat.lt_of_lt_of_le (g.essential_lt l hl) g.numVars_le))

end Written

/-- The state of a search that has found the models of `σ` and, before it, of `σs`. What `σ` says of the essential
literals is still to be excluded. -/
structure Collected (g : Footing theory p.settings p.letters) (d : Deadline) (e : Encoding) (goal : Lit) (σ : Nat → Bool)
    (σs : List (Nat → Bool)) (found : Check.Found) : Prop where
  models : found.models = (σ :: σs).map g.model
  hits : ∀ τ ∈ σ :: σs, Hits e goal τ
  differ : (σ :: σs).Pairwise (Differ g.essential)
  essential : found.enumeration.essential = g.essential
  assumed : found.enumeration.assumptions = [goal]
  running : found.enumeration.stoppedBy = none
  excluded : ∃ lits, found.enumeration.excluded = some lits ∧ (∀ l ∈ lits, l.var < e.draft.cnf.numVars) ∧
    ∀ τ, Lit.anyHolds lits τ = true ↔ Differ g.essential τ σ
  stands : ∃ b, b.answers = d.budget.answers ∧ found.session.Stands e.draft.cnf.numVars b
  live : ∃ solver, found.session.solver = .ok solver
  clear : found.session.assumptions = #[]
  clauses : ∀ τ, Models found.session.clauses.toList τ ↔
    e.draft.cnf.satisfiedBy τ ∧ ∀ υ ∈ σs, Differ g.essential τ υ
  reached : ∃ s, (Check.aimed e goal).solve = .ok (.sat, s) ∧
    (Check.others e goal s).Reaches s σs.length found.enumeration found.session

/-- A search that found the models of `σs` and then no more: there are no others, or the deadline has come. -/
structure Halted (g : Footing theory p.settings p.letters) (d : Deadline) (e : Encoding) (goal : Lit)
    (σs : List (Nat → Bool)) (enumeration : Enumeration) : Prop where
  stopped : enumeration.stoppedBy = some .unsat ∧ (∀ τ, Hits e goal τ → ∃ υ ∈ σs, ¬ Differ g.essential τ υ) ∨
    enumeration.stoppedBy = some .unknown ∧ ∃ i, d.budget.answers i = true

namespace Collected

variable {σ : Nat → Bool} {σs : List (Nat → Bool)} {found : Check.Found}

/-- One more search. A model that is found has another shape than all before it, and passes its check. -/
theorem next_yields (hw : g.Written d e goal) (hc : g.Collected d e goal σ σs found) :
    Yields (found.enumeration.query found.session).Breaks (found.enumeration.next found.session) fun r =>
      (∃ solver, r.2.2.solver = .ok solver) ∧
      (r.1 = true → ∃ τ, e.extract r.2.2 = .ok (g.model τ) ∧ found.models.any ((g.model τ).sameShape ·) = false ∧
        (g.model τ).verify p.premises p.conclusions = .ok () ∧
        g.Collected d e goal τ (σ :: σs) ⟨g.model τ :: found.models, r.2.1, r.2.2⟩) ∧
      (r.1 = false → g.Halted d e goal (σ :: σs) r.2.1) := by
  obtain ⟨lits, hex, hlits, hiff⟩ := hc.excluded
  have hassume : ∀ l ∈ found.enumeration.assumptions, l.var < e.draft.cnf.numVars := by
    rw [hc.assumed]
    exact List.forall_mem_singleton.2 hw.known
  have hmodels : ∀ τ, Models (found.session.clauses.toList ++ [lits]) τ ↔
      e.draft.cnf.satisfiedBy τ ∧ ∀ υ ∈ σ :: σs, Differ g.essential τ υ := fun τ => by
    rw [models_append, hc.clauses, Models, List.forall_mem_singleton, hiff, List.forall_mem_cons]
    tauto
  obtain ⟨b, hbudget, hstands₀⟩ := hc.stands
  have hcontinued := Enumeration.next_yields hstands₀ hc.clear hc.running hex hlits hassume
  cases hnext : found.enumeration.next found.session with
  | error f =>
    rw [hnext] at hcontinued
    exact hcontinued
  | ok r =>
  rw [hnext] at hcontinued
  obtain ⟨b', hstands, hlive, hclauses, hclear, hanswers, hfound, hexhausted⟩ := hcontinued
  refine ⟨hlive, fun hmore => ?_, fun hmore => ?_⟩
  · obtain ⟨henum, τ, hshows, hτ, hgoal⟩ := hfound hmore
    obtain ⟨hsat, hdiffer⟩ := (hmodels τ).1 hτ
    have hhit : Hits e goal τ := ⟨hsat, hgoal goal (by simp [hc.assumed])⟩
    have hessential : ∀ l ∈ found.enumeration.essential, l.var < e.draft.cnf.numVars := hc.essential ▸ hw.essential_lt
    obtain ⟨s, hsolve, hreach⟩ := hc.reached
    refine ⟨τ, hw.extract_eq hshows hsat, ?_, hw.verify_eq hhit, ?_⟩
    · rw [List.any_eq_false, hc.models, List.forall_mem_map]
      intro υ hυ hsame
      exact (hw.sameShape_iff hhit (hc.hits υ hυ)).1 hsame (hdiffer υ hυ)
    · refine ⟨by simp [hc.models], List.forall_mem_cons.2 ⟨hhit, hc.hits⟩, List.pairwise_cons.2 ⟨hdiffer, hc.differ⟩,
        ?_, ?_, ?_, ?_, ⟨b', hanswers.trans hbudget, hstands⟩, hlive, hclear, fun υ => ?_,
        ⟨s, hsolve, hreach.next hc.running hnext hmore⟩⟩
      · exact henum ▸ hc.essential
      · exact henum ▸ hc.assumed
      · exact henum ▸ hc.running
      · refine ⟨_, congrArg Enumeration.excluded henum, Session.refutation_known hessential, fun υ => ?_⟩
        rw [Session.anyHolds_refutation hshows hessential, hc.essential]
        rfl
      · rw [hclauses, hmodels]
  · obtain ⟨answer, hstopped, hwhy⟩ := hexhausted hmore
    refine ⟨hwhy.imp ?_ ?_⟩
    · rintro ⟨rfl, hnone⟩
      refine ⟨hstopped, fun τ hτ => ?_⟩
      by_contra hall
      push Not at hall
      refine hnone τ ((hmodels τ).2 ⟨hτ.satisfied, hall⟩) ?_
      rw [hc.assumed]
      exact List.forall_mem_singleton.2 hτ.met
    · rintro ⟨rfl, hlate⟩
      exact ⟨hstopped, hbudget ▸ hlate⟩

end Collected

/-- A search that has come to its end with the models of `σs`. -/
structure Gathered (g : Footing theory p.settings p.letters) (d : Deadline) (e : Encoding) (goal : Lit)
    (σs : List (Nat → Bool)) (found : Check.Found) : Prop where
  models : found.models = σs.map g.model
  hits : ∀ σ ∈ σs, Hits e goal σ
  differ : σs.Pairwise (Differ g.essential)
  pos : 1 ≤ σs.length
  live : ∃ solver, found.session.solver = .ok solver
  stop : σs.length = p.settings.iterate ∨ σs.length < p.settings.iterate ∧ g.Halted d e goal σs found.enumeration

/-- A search comes to its end before its fuel is used up: each step finds an assignment that differs from all
before it on the essential literals. -/
theorem search_yields (hw : g.Written d e goal) {σ : Nat → Bool} {σs : List (Nat → Bool)} {fuel : Nat}
    {found : Check.Found} (hc : g.Collected d e goal σ σs found) (hle : σs.length + 1 ≤ p.settings.iterate)
    (hfuel : 2 ^ g.essential.length ≤ fuel + σs.length) :
    Yields (Failure.IsFault (Check.Breaks p e goal)) (Check.search e p fuel found) fun found' =>
      ∃ σs', g.Gathered d e goal σs' found' := by
  induction fuel generalizing σ σs found with
  | zero =>
    have hbound := length_le_of_differ hc.differ
    rw [List.length_cons] at hbound
    omega
  | succ fuel ih =>
    have hlen : found.models.length = σs.length + 1 := by simp [hc.models]
    rw [Check.search]
    split
    · next hdone =>
      exact .pure ⟨σ :: σs, hc.models, hc.hits, hc.differ, by simp, hc.live,
        .inl (by rw [List.length_cons]; omega)⟩
    · next hmore =>
      obtain ⟨s, hsolve, hreach⟩ := hc.reached
      have hbreaks : ∀ f, (found.enumeration.query found.session).Breaks f → Check.Breaks p e goal f := fun f hf =>
        ⟨_, .further hsolve hreach (by omega), hf⟩
      refine ((hc.next_yields hw).mono hbreaks).ofFault.bind fun r hr => ?_
      obtain ⟨more, enumeration, session⟩ := r
      obtain ⟨hlive, hfound, hhalted⟩ := hr
      cases more with
      | false =>
        exact .pure ⟨σ :: σs, hc.models, hc.hits, hc.differ, by simp, hlive,
          .inr ⟨by rw [List.length_cons]; omega, hhalted rfl⟩⟩
      | true =>
        obtain ⟨τ, hextract, hnew, hverify, hc'⟩ := hfound rfl
        simp only [Bool.not_true, Bool.false_eq_true, if_false, hextract, ok_bind, hnew, hverify]
        refine ih hc' ?_ ?_ <;> rw [List.length_cons] <;> omega

end Footing

namespace Check

/-- The search for further models, with `skip` in the place of what is done with a model that has the shape of
an earlier one. -/
def searchElse (skip : Found → Except Failure Found) (e : Encoding) (p : Problem) : Nat → Found → Except Failure Found
  | 0, _ => .error (.fault .bound)
  | fuel + 1, found => do
    if p.settings.iterate ≤ found.models.length then return found
    let (more, enumeration, session) ← Failure.ofFault (found.enumeration.next found.session)
    if !more then return { found with enumeration, session }
    let model ← e.extract session
    if found.models.any (model.sameShape ·) then skip { found with enumeration, session }
    else
      model.verify p.premises p.conclusions
      searchElse skip e p fuel { models := model :: found.models, enumeration, session }

end Check

namespace Footing

variable {theory : Theory} {p : Problem} {g : Footing theory p.settings p.letters} {d : Deadline} {e : Encoding}
  {goal : Lit}

/-- No model is passed over. -/
theorem searchElse_eq (hw : g.Written d e goal) (skip : Check.Found → Except Failure Check.Found) {σ : Nat → Bool}
    {σs : List (Nat → Bool)} {fuel : Nat} {found : Check.Found} (hc : g.Collected d e goal σ σs found) :
    Check.searchElse skip e p fuel found = Check.search e p fuel found := by
  induction fuel generalizing σ σs found with
  | zero => rfl
  | succ fuel ih =>
    have hnext := hc.next_yields hw
    rw [Check.searchElse, Check.search]
    cases hrun : found.enumeration.next found.session with
    | error x => rfl
    | ok r =>
      rw [hrun] at hnext
      obtain ⟨more, enumeration, session⟩ := r
      obtain ⟨-, hfound, -⟩ := hnext
      cases more with
      | false => rfl
      | true =>
        obtain ⟨τ, hextract, hnew, hverify, hc'⟩ := hfound rfl
        simp only [Failure.ofFault, ok_bind, Bool.not_true, Bool.false_eq_true, if_false, hextract, hnew, hverify, ih hc']

/-- What a check says of countermodels: the list it gives stands for assignments that differ from each other on the
essential literals, and is as long as it should be, unless there are no others or the deadline has come. -/
structure Listed (g : Footing theory p.settings p.letters) (d : Deadline) (σs : List (Nat → Bool))
    (models : List Countermodel) (stop : Option CheckError) : Prop where
  models_eq : models = σs.map g.model
  start : ∀ σ ∈ σs, g.start.satisfiedBy σ
  refutes : ∀ σ ∈ σs, (g.model σ).Refutes p
  differ : σs.Pairwise (Differ g.essential)
  pos : 1 ≤ σs.length
  stop : stop = none ∧ σs.length = max 1 p.settings.iterate ∨ σs.length < p.settings.iterate ∧
    (stop = some (.iterationExhausted p.settings.iterate σs.length) ∧
        (∀ τ, g.start.satisfiedBy τ → (g.model τ).Refutes p → ∃ σ ∈ σs, ¬ Differ g.essential τ σ) ∨
      stop = some (.timeout d.maxTime) ∧ ∃ i, d.budget.answers i = true)

theorem not_differ_trans {lits : List Lit} {σ τ υ : Nat → Bool} (h : ¬ Differ lits σ τ) (h' : ¬ Differ lits τ υ) :
    ¬ Differ lits σ υ := by
  rintro ⟨l, hl, hne⟩
  refine h' ⟨l, hl, fun heq => h ⟨l, hl, fun heq' => hne (heq'.trans heq)⟩⟩

/-- The list of a search that has come to its end. -/
theorem Gathered.listed (hw : g.Written d e goal) {σs : List (Nat → Bool)} {found : Check.Found}
    (h : g.Gathered d e goal σs found) : g.Listed d σs.reverse found.models.reverse
      (if found.models.reverse.length < p.settings.iterate then
        some (if found.enumeration.stoppedBy = some .unknown then .timeout d.maxTime
          else .iterationExhausted p.settings.iterate found.models.reverse.length)
      else none) where
  models_eq := by rw [h.models, List.map_reverse]
  start σ hσ := hw.start_of_satisfied (h.hits σ (List.mem_reverse.1 hσ)).satisfied
  refutes σ hσ := hw.refutes (h.hits σ (List.mem_reverse.1 hσ))
  differ := List.pairwise_reverse.2 (h.differ.imp Differ.symm)
  pos := by
    rw [List.length_reverse]
    exact h.pos
  stop := by
    have hlen : found.models.reverse.length = σs.length := by simp [h.models]
    have hpos := h.pos
    rw [hlen, List.length_reverse]
    rcases h.stop with hfull | ⟨hless, hhalted⟩
    · exact .inl ⟨if_neg (by omega), by omega⟩
    · refine .inr ⟨hless, ?_⟩
      rw [if_pos hless]
      rcases hhalted.stopped with ⟨hstopped, hnone⟩ | ⟨hstopped, hlate⟩
      · refine .inl ⟨by simp [hstopped], fun τ hτ hrefutes => ?_⟩
        obtain ⟨υ, hυ, hsame⟩ := hw.exists_hits hτ hrefutes
        obtain ⟨σ, hσ, hsame'⟩ := hnone υ hυ
        exact ⟨σ, List.mem_reverse.2 hσ, not_differ_trans hsame hsame'⟩
      · exact .inr ⟨by simp [hstopped], hlate⟩

/-- A session that holds the first countermodel. -/
structure Opened (g : Footing theory p.settings p.letters) (d : Deadline) (e : Encoding) (goal : Lit) (σ : Nat → Bool)
    (s : Session) : Prop where
  solved : (Check.aimed e goal).solve = .ok (.sat, s)
  stands : ∃ b, b.answers = d.budget.answers ∧ s.Stands e.draft.cnf.numVars b
  live : ∃ solver, s.solver = .ok solver
  clauses : s.clauses.toList = e.draft.cnf.clauses.toList
  clear : s.assumptions = #[]
  showing : s.Shows e.draft.cnf.numVars σ
  hits : Hits e goal σ

/-- The state from which further models are looked for. -/
theorem Opened.collected (hw : g.Written d e goal) {σ : Nat → Bool} {s : Session} (h : g.Opened d e goal σ s) :
    g.Collected d e goal σ [] { models := [g.model σ], enumeration := Check.others e goal s, session := s } where
  models := rfl
  hits := List.forall_mem_singleton.2 h.hits
  differ := List.pairwise_singleton _ _
  essential := g.essential_eq hw.valid
  assumed := rfl
  running := rfl
  excluded := by
    have hessential : ∀ l ∈ e.essential, l.var < e.draft.cnf.numVars := g.essential_eq hw.valid ▸ hw.essential_lt
    refine ⟨_, rfl, Session.refutation_known hessential, fun τ => ?_⟩
    rw [Session.anyHolds_refutation h.showing hessential, g.essential_eq hw.valid]
    rfl
  stands := h.stands
  live := h.live
  clear := h.clear
  clauses τ := by
    rw [h.clauses, ← Cnf.satisfiedBy_iff]
    simp
  reached := ⟨s, h.solved, .start⟩

theorem iterate_yields (hw : g.Written d e goal) {σ : Nat → Bool} {s : Session} (h : g.Opened d e goal σ s) :
    Yields (Failure.IsFault (Check.Breaks p e goal)) (Check.iterate e p goal (g.model σ) e.draft.deadline s) fun r =>
      (∃ solver, r.2.2.solver = .ok solver) ∧ ∃ σs, g.Listed d σs r.1 r.2.1 := by
  unfold Check.iterate
  dsimp only
  split
  · next hone =>
    refine .pure ⟨h.live, [σ], rfl, ?_, ?_, List.pairwise_singleton _ _, Nat.le_refl _, .inl ⟨rfl, ?_⟩⟩
    · exact List.forall_mem_singleton.2 (hw.start_of_satisfied h.hits.satisfied)
    · exact List.forall_mem_singleton.2 (hw.refutes h.hits)
    · exact (Nat.max_eq_left hone).symm
  · next hmore =>
    have hfuel : 2 ^ g.essential.length ≤ Check.searchBound e.essential := by
      rw [Check.searchBound, g.essential_eq hw.valid, Nat.shiftLeft_eq]
      omega
    have hsearch := search_yields hw (h.collected hw) (by simpa using Nat.le_of_not_ge hmore) (by simpa using hfuel)
    refine hsearch.bind fun found hf => ?_
    obtain ⟨σs, hf⟩ := hf
    rw [(g.same_deadline hw.valid).maxTime]
    exact .pure ⟨hf.live, _, hf.listed hw⟩

end Footing

end Countermodels
