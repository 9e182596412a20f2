import Countermodels.Proofs.Check.Footing
import Countermodels.Proofs.Truthmaker.Symmetry

/-! Checks in the theory of truthmakers. The encoder is a footing for them, and the clauses that break
symmetry take no countermodel away. -/

namespace Countermodels.Truthmaker

variable {settings : Settings} {letters : List Atom}

/-! What an encoder reads off the literals it knows. -/

namespace Frame

variable {f : Frame} {n : Nat} {σ τ : Nat → Bool} {v : Valuation ContentLits}

/-- Two sets of states are the same just if all literals agree. -/
theorem select_eq_iff (hn : f.space.n < 32) {lits : Array Lit} (hlits : Tabled f.space n lits) :
    f.select σ lits = f.select τ lits ↔ ∀ l ∈ lits, l.holds σ = l.holds τ := by
  constructor
  · intro h l hl
    obtain ⟨s, hs, rfl⟩ := hlits.exists_state hl
    have hmem := StateSpace.mem_states.2 ⟨hn, hs⟩
    have hiff : s ∈ f.select σ lits ↔ s ∈ f.select τ lits := by rw [h]
    rwa [mem_select, mem_select, and_iff_right hmem, and_iff_right hmem, ← Bool.eq_iff_iff] at hiff
  · intro h
    ext s
    rw [mem_select, mem_select]
    refine and_congr_right fun hs => ?_
    rw [h _ (hlits.mem (StateSpace.mem_states.1 hs).2)]

theorem content_eq_iff (hn : f.space.n < 32) {c : ContentLits} (hc : c.Tabled f.space n) :
    f.content σ c = f.content τ c ↔ ∀ l ∈ c.lits, l.holds σ = l.holds τ := by
  rw [content, content, Content.mk.injEq, select_eq_iff hn hc.ver, select_eq_iff hn hc.fal, ContentLits.lits,
    List.forall_mem_append]
  simp

/-- Two models have one shape just if all literals for possible states and for contents agree. -/
theorem shape_reading_eq_iff (hn : f.space.n < 32) (hf : f.Known n) (hv : ∀ p ∈ v, p.2.Tabled f.space n) :
    (f.reading v σ).shape = (f.reading v τ).shape ↔
      ∀ l ∈ f.possible.toList ++ v.meanings.flatMap ContentLits.lits, l.holds σ = l.holds τ := by
  have hcontents : (v.map fun p => (p.1, f.content σ p.2)) = (v.map fun p => (p.1, f.content τ p.2)) ↔
      ∀ p ∈ v, f.content σ p.2 = f.content τ p.2 := by
    rw [List.map_inj_left]
    exact forall₂_congr fun p _ => by simp
  rw [Model.shape, Model.shape, Prod.mk.injEq, List.forall_mem_append]
  refine and_congr ((select_eq_iff hn hf.possible).trans (by simp)) (hcontents.trans ?_)
  rw [forall₂_congr fun p hp => content_eq_iff hn (hv p hp)]
  constructor
  · intro h l hl
    obtain ⟨c, hc, hl⟩ := List.mem_flatMap.1 hl
    obtain ⟨p, hp, rfl⟩ := List.mem_map.1 hc
    exact h p hp l hl
  · exact fun h p hp l hl => h l (List.mem_flatMap.2 ⟨p.2, List.mem_map_of_mem hp, hl⟩)

theorem essential_known (hf : f.Known n) (hv : ∀ p ∈ v, p.2.Tabled f.space n) :
    ∀ l ∈ f.possible.toList ++ v.meanings.flatMap ContentLits.lits, l.var < n := by
  rw [List.forall_mem_append]
  refine ⟨fun l hl => hf.possible.known l (Array.mem_toList_iff.1 hl), fun l hl => ?_⟩
  obtain ⟨c, hc, hl⟩ := List.mem_flatMap.1 hl
  obtain ⟨p, hp, rfl⟩ := List.mem_map.1 hc
  rcases List.mem_append.1 hl with hl | hl
  · exact (hv p hp).ver.known l (Array.mem_toList_iff.1 hl)
  · exact (hv p hp).fal.known l (Array.mem_toList_iff.1 hl)

end Frame

namespace Foundation

variable {g : Foundation} {e : Encoder} {holds holds' : Lit → Bool}

theorem statesOf_congr (he : g.Valid e) (h : ∀ l : Lit, l.var < g.basis.numVars → holds l = holds' l) {lits : Array Lit}
    (hlits : Tabled g.frame.space g.basis.numVars lits) : e.statesOf holds lits = e.statesOf holds' lits := by
  ext s
  rw [Encoder.statesOf, Encoder.statesOf, StateSet.mem_filter, StateSet.mem_filter, StateSet.mem_ofSpace, he.frame]
  refine and_congr_right fun hs => ?_
  rw [h _ (hlits.var_lt (StateSpace.mem_states.1 hs).2)]

/-- An encoder asks only for the values of literals it knows. -/
theorem extract_congr (he : g.Valid e) (h : ∀ l : Lit, l.var < g.basis.numVars → holds l = holds' l) :
    e.extract holds = e.extract holds' := by
  have heval : e.frame.eval.eval holds = e.frame.eval.eval holds' :=
    Choice.eval_congr fun l hl => h l (g.known.eval l (he.frame ▸ hl))
  have hpossible : e.statesOf holds e.frame.possible = e.statesOf holds' e.frame.possible :=
    statesOf_congr he h (by rw [he.frame]; exact g.known.possible)
  have hvaluation : (e.valuation.map fun p => (p.1, (⟨e.statesOf holds p.2.ver, e.statesOf holds p.2.fal⟩ : Content))) =
      e.valuation.map fun p => (p.1, ⟨e.statesOf holds' p.2.ver, e.statesOf holds' p.2.fal⟩) := by
    refine List.map_congr_left fun p hp => ?_
    have hp := g.tabled p (he.valuation ▸ hp)
    rw [statesOf_congr he h hp.ver, statesOf_congr he h hp.fal]
  simp only [Encoder.extract, heval, hpossible, hvaluation]

end Foundation

open Foundation in
/-- The clauses of truthmaker models for some settings and letters. -/
def footing (settings : Settings) (letters : List Atom) : Footing .counterfactual settings letters where
  basis := (foundation settings letters .never).basis
  start := (Gates.new (brokenCnf settings letters)).2
  model σ := .truthmaker (described settings letters σ)
  Valid d e := ∃ t, e = .truthmaker t ∧ (foundation settings letters d).Valid t
  fits := by
    rintro d e ⟨t, rfl, ht⟩
    exact ht.fits
  same_deadline := by
    rintro d e ⟨t, rfl, ht⟩
    exact ht.deadline
  redraft := by
    rintro d e draft ⟨t, rfl, ht⟩ hle hfits hsame
    exact ⟨_, rfl, { ht.extend hle hfits (ht.gates.mono hle) with deadline := hsame }⟩
  builds d := by
    rcases build_valid settings letters d with ⟨t, hbuild, hvalid, hcnf⟩ | ⟨f, hbuild, hlate⟩
    · exact .inl ⟨.truthmaker t, by rw [Encoding.build, hbuild]; rfl, ⟨t, rfl, hvalid⟩, hcnf⟩
    · exact .inr ⟨f, by rw [Encoding.build, hbuild]; rfl, hlate⟩
  start_fits := Gates.fits_after_new (broken_restricts settings letters).fits
  holds_of_start hσ := sat_of_satisfiedBy (Cnf.le_refl _) hσ
  numVars_le := (Gates.numVars_new _).ge
  model_congr hστ := congrArg _ (Foundation.model_congr (g := foundation settings letters .never) hστ)
  returns hσ ha := (proper (g := foundation settings letters .never) (Sentence.of_over ha) hσ).truth _
  writes := by
    rintro d e a ⟨t, rfl, ht⟩ ha
    rcases (does_truthAtEval hasMeanings (Sentence.of_over ha) ht).outcome with
      ⟨l, t', hrun, hgrow, hden⟩ | ⟨f, t', hrun, hlate⟩
    · exact .of_run (t := .truthmaker t') (by rw [Encoding.truthAtEval, hrun]; rfl)
        ⟨⟨t', rfl, hgrow.valid⟩, hgrow.extend⟩ hden
    · exact .of_error (t := .truthmaker t') (by rw [Encoding.truthAtEval, hrun]; rfl) hlate
  essential := (openingFrame settings letters).possible.toList ++
    (openingValuation settings letters).meanings.flatMap ContentLits.lits
  essential_eq := by
    rintro d e ⟨t, rfl, ht⟩
    rw [Countermodels.Encoding.essential, Encoder.essential, ht.frame, ht.valuation]
    rfl
  essential_lt :=
    Frame.essential_known (foundation settings letters .never).known (foundation settings letters .never).tabled
  extracts := by
    rintro d e σ holds ⟨t, rfl, ht⟩ hσ hholds
    rw [Countermodels.Encoding.extractBy, extract_congr ht hholds, extract_eq ht hσ]
    rfl
  sameShape_iff {σ} _ hσ _ := by
    have hbasis : (foundation settings letters .never).basis.holds σ :=
      (sat_of_satisfiedBy (Cnf.le_refl _) hσ).1
    rw [Countermodel.sameShape, decide_eq_true_eq]
    exact Frame.shape_reading_eq_iff (n_lt hbasis) (foundation settings letters .never).known
      (foundation settings letters .never).tabled

/-- The clauses of an encoding without those that break symmetry. -/
def unbroken (settings : Settings) (letters : List Atom) (f : Cnf) : List (List Lit) :=
  (openingCnf settings letters).clauses.toList ++ f.clauses.toList.drop (brokenCnf settings letters).clauses.size

section unbroken

variable {f : Cnf} {σ : Nat → Bool}

/-- The assignments under which formulas are written are those that satisfy these clauses. -/
theorem models_unbroken (hle : (footing settings letters).start ≤ f) :
    Models (unbroken settings letters f) σ ↔ (footing settings letters).basis.Sat f σ := by
  obtain ⟨new, hnew⟩ := hle.2
  rw [show (footing settings letters).start = (Gates.new (brokenCnf settings letters)).2 from rfl, Gates.clauses_new,
    List.append_assoc] at hnew
  have hdrop : f.clauses.toList.drop (brokenCnf settings letters).clauses.size =
      [.positive (brokenCnf settings letters).numVars] :: new := by
    rw [← hnew, ← Array.length_toList, List.drop_left]
    rfl
  have hlater : f.clauses.toList.drop (footing settings letters).basis.size = new := by
    rw [show (footing settings letters).basis.size = (brokenCnf settings letters).clauses.size + 1 from rfl,
      ← List.drop_drop, hdrop]
    rfl
  have hbasis : (footing settings letters).basis.holds σ ↔
      (openingCnf settings letters).satisfiedBy σ ∧ σ (brokenCnf settings letters).numVars = true := Iff.rfl
  rw [Basis.Sat, hlater, unbroken, hdrop, models_append, ← Cnf.satisfiedBy_iff, hbasis, and_assoc]
  refine and_congr_right fun _ => ?_
  simp [Models, Lit.anyHolds]

/-- A model and its image refute the same arguments. -/
theorem refutes_permute {m : Model} (hm : m.Admissible settings letters) (π : Equiv.Perm (Fin m.space.n))
    {p : Problem} (hp : p.Over .counterfactual letters) :
    (Countermodel.truthmaker (m.permute π)).Refutes p ↔ (Countermodel.truthmaker m).Refutes p := by
  have htrue : ∀ f ∈ p.premises ++ p.conclusions, (Countermodel.truthmaker (m.permute π)).isTrue f =
      (Countermodel.truthmaker m).isTrue f := fun f hf =>
    hm.placed.isTrue_permute (Sentence.of_over (hp f hf)) hm.eval_mem
  refine and_congr (forall₂_congr fun f hf => ?_) (forall_congr' fun _ => exists_congr fun f => and_congr_right fun hf => ?_)
  · rw [htrue f (List.mem_append_left _ hf)]
  · rw [htrue f (List.mem_append_right _ hf)]

/-- Every admissible model has an image that some assignment describes when the encoding is built. -/
theorem exists_start_image {m : Model} (hm : m.Admissible settings letters) : ∃ π σ,
    (footing settings letters).start.satisfiedBy σ ∧ described settings letters σ = m.permute π := by
  obtain ⟨π, σ, hσ, hdesc⟩ := exists_broken_image hm
  have hagree := Agree.update (brokenCnf settings letters).numVars σ true
  have hrestrict := broken_restricts settings letters
  refine ⟨π, Function.update σ (brokenCnf settings letters).numVars true, Gates.satisfiedBy_new.2 ⟨?_, ?_⟩, ?_⟩
  · exact Basis.sat_start.1 ((Basis.sat_start.2 hσ).congr hrestrict.fits hagree)
  · exact Function.update_self ..
  · rw [← described_congr (hagree.mono hrestrict.le.1), hdesc]

/-- What can be met without the clauses that break symmetry can be met with them. -/
theorem exists_satisfiedBy_goal {d : Deadline} {p : Problem} (hp : p.Over .counterfactual letters) {e e' : Countermodels.Encoding} {goal : Lit}
    (he : e.draft.cnf = (footing settings letters).start) (haims : (footing settings letters).Aims d p e e' goal)
    (hσ : (footing settings letters).basis.Sat e'.draft.cnf σ) (hgoal : goal.holds σ = true) :
    ∃ τ, e'.draft.cnf.satisfiedBy τ ∧ goal.holds τ = true := by
  have hadmissible : (described settings letters σ).Admissible settings letters :=
    (opening_describes settings letters).sound σ hσ.1.1
  obtain ⟨π, υ, hυ, hdesc⟩ := exists_start_image hadmissible
  obtain ⟨τ, hυτ, hτ, hmet⟩ := haims.complete υ (he ▸ (footing settings letters).holds_of_start hυ)
  rw [he] at hυτ
  have hstart := Basis.sat_start.1 ((Basis.sat_start.2 hυ).congr (footing settings letters).start_fits hυτ)
  refine ⟨τ, (footing settings letters).satisfiedBy_of_sat (he ▸ haims.le) hstart hτ, hmet ?_⟩
  show (Countermodel.truthmaker (described settings letters υ)).Refutes p
  rw [hdesc, refutes_permute hadmissible π hp]
  exact haims.sound σ hσ hgoal

end unbroken

/-- Permutations of the atomic states take admissible models to admissible models and keep the truth of
formulas; of every admissible model, some image satisfies the clauses that break symmetry; and so these
clauses make no difference to whether the goal of an argument can be met. -/
theorem breaking_swaps_keeps_countermodels (settings : Settings) (letters : List Atom) :
    (∀ m : Model, m.Admissible settings letters → ∀ π : Equiv.Perm (Fin m.space.n),
      (m.permute π).Admissible settings letters ∧
        ∀ f : Formula, (∀ op ∈ f.operators, op ∈ Theory.counterfactual.primitives) → ∀ w ∈ m.space.states,
          (m.permute π).isTrue f (w.permute π) = m.isTrue f w) ∧
    (∀ m : Model, m.Admissible settings letters → ∃ π σ,
      (brokenCnf settings letters).satisfiedBy σ ∧ described settings letters σ = m.permute π) ∧
    ∀ (p : Problem) (deadline : Deadline), p.Over .counterfactual letters → deadline.Open → ∃ e goal e',
      Countermodels.Encoding.build .counterfactual settings letters deadline = .ok e ∧ Check.writeGoal p e = .ok goal e' ∧
      ((∃ σ, e'.draft.cnf.satisfiedBy σ ∧ goal.holds σ = true) ↔
        ∃ σ, Models (unbroken settings letters e'.draft.cnf) σ ∧ goal.holds σ = true) := by
  refine ⟨fun m hm π => ⟨hm.permute π, fun f hf w hw => ?_⟩, fun m hm => exists_broken_image hm,
    fun p deadline hp hopen => ?_⟩
  · exact hm.placed.isTrue_permute (Sentence.of_over (show f.Over _ f.atoms from ⟨hf, fun a ha => ha⟩)) hw
  · have hbuilt := ((footing settings letters).builds deadline).resolve_right fun h => by
      obtain ⟨f, -, hlate⟩ := h
      exact hopen.not_late f hlate
    obtain ⟨e, hbuild, hvalid, hcnf⟩ := hbuilt
    obtain ⟨goal, e', hrun, -, haims⟩ := (Footing.writeGoal_aims hvalid hp).succeeds hopen.not_late
    have hle : (footing settings letters).start ≤ e'.draft.cnf := hcnf ▸ haims.le
    refine ⟨e, goal, e', hbuild, hrun, ?_⟩
    simp only [models_unbroken hle]
    constructor
    · rintro ⟨σ, hσ, hgoal⟩
      exact ⟨σ, (footing settings letters).sat_of_satisfiedBy hle hσ, hgoal⟩
    · rintro ⟨σ, hσ, hgoal⟩
      exact exists_satisfiedBy_goal hp hcnf haims hσ hgoal

/-- Two atomic states that exclude each other; one verifies the letter and the other falsifies it. -/
def split : Model where
  space := ⟨2⟩
  possible := ⟨[⟨0⟩, ⟨1⟩, ⟨2⟩], by decide⟩
  evalWorld := ⟨1⟩
  valuation := [(⟨'A', rfl⟩, ⟨.singleton ⟨1⟩, .singleton ⟨2⟩⟩)]

/-- The letter that has a proposition in `split`. -/
def splitLetter : Atom := ⟨'A', rfl⟩

theorem split_admissible : split.Admissible { n := 2, contingent := true, nonNull := true } [⟨'A', rfl⟩] := by
  have hpossible : ∀ s, s ∈ split.possible ↔ s = ⟨0⟩ ∨ s = ⟨1⟩ ∨ s = ⟨2⟩ := fun s => by
    show s ∈ [_, _, _] ↔ _
    simp
  refine { mem_states := fun s hs => ?_, part := fun s hs t ht => ?_, null := ?_, eval := by decide, space_eq := rfl,
           letters_eq := by decide, allows := ?_, disjoint := fun h => by cases h }
  · rcases (hpossible s).1 hs with rfl | rfl | rfl <;> decide
  · have hle := State.bits_le_of_isPartOf ht
    have hsmall : s.bits ≤ 2 := by rcases (hpossible s).1 hs with rfl | rfl | rfl <;> decide
    obtain ⟨t⟩ := t
    have ht : t ≤ 2 := Nat.le_trans hle hsmall
    interval_cases t <;> decide
  · decide
  · refine List.forall_mem_singleton.2 ⟨?_, ?_, ?_, ?_, fun w hw => ?_, fun _ => ?_, fun h => (Bool.false_ne_true h).elim,
      fun _ => ?_⟩
    · simp only [StateSet.mem_singleton]
      rintro s (rfl | rfl) <;> decide
    · simp
    · simp
    · simp only [StateSet.mem_singleton]
      rintro _ rfl _ rfl
      decide
    · rcases (hpossible w).1 (Model.isWorld_iff.1 hw).1 with rfl | rfl | rfl
      · exact absurd hw (by decide)
      · exact ⟨⟨1⟩, by decide, by simp⟩
      · exact ⟨⟨2⟩, by decide, by simp⟩
    · exact ⟨⟨⟨1⟩, by decide, by simp⟩, ⟨2⟩, by decide, by simp⟩
    · decide

/-- The images of the model, and the argument from nothing to its letter. -/
theorem breaking_swaps_keeps_countermodels_split :
    (∀ π, (split.permute π).Admissible { n := 2, contingent := true, nonNull := true } [⟨'A', rfl⟩] ∧
      (split.permute π).isTrue (.atom ⟨'A', rfl⟩) (State.permute π ⟨1⟩) = split.isTrue (.atom ⟨'A', rfl⟩) ⟨1⟩) ∧
    (∃ π σ, (brokenCnf { n := 2, contingent := true, nonNull := true } [⟨'A', rfl⟩]).satisfiedBy σ ∧
      described { n := 2, contingent := true, nonNull := true } [⟨'A', rfl⟩] σ = split.permute π) ∧
    ∃ e goal e', Countermodels.Encoding.build .counterfactual { n := 2, contingent := true, nonNull := true }
        [⟨'A', rfl⟩] .never = .ok e ∧
      Check.writeGoal ⟨[], [.atom ⟨'A', rfl⟩], { n := 2 }⟩ e = .ok goal e' ∧
      ((∃ σ, e'.draft.cnf.satisfiedBy σ ∧ goal.holds σ = true) ↔ ∃ σ,
        Models (unbroken { n := 2, contingent := true, nonNull := true } [⟨'A', rfl⟩] e'.draft.cnf) σ ∧
          goal.holds σ = true) := by
  obtain ⟨himages, hleaders, hgoals⟩ :=
    breaking_swaps_keeps_countermodels { n := 2, contingent := true, nonNull := true } [⟨'A', rfl⟩]
  have hover : (Formula.atom ⟨'A', rfl⟩).Over Theory.counterfactual.primitives [⟨'A', rfl⟩] :=
    Formula.over_atom.2 (by decide)
  refine ⟨fun π => ?_, hleaders split split_admissible, hgoals _ _ (by simpa [Problem.Over] using hover) fun _ => rfl⟩
  obtain ⟨hadmissible, htruth⟩ := himages split split_admissible π
  exact ⟨hadmissible, htruth _ hover.1 ⟨1⟩ (by decide)⟩

end Countermodels.Truthmaker
