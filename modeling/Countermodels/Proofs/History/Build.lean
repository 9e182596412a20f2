import Countermodels.Countermodel
import Countermodels.Proofs.History.Encoding

/-! The encoder of histories as it is built, and its answers. After any sequence of questions, the literals it has given
are true in an assignment just if the model that the assignment describes says so; and the questions leave open all that
the frame and the letters leave open. -/

namespace Countermodels.History

open Encoder
open Truthmaker (Tabled)

/-- The settings give a number of times that is within the bounds. -/
structure Timed (settings : Settings) (m : Nat) : Prop where
  m_eq : settings.m = some m
  pos : 1 ≤ m
  le : m ≤ Settings.maxM

theorem Timed.requireM_eq {settings : Settings} {m : Nat} (hm : Timed settings m) : settings.requireM = .ok m := by
  have hpos := hm.pos
  have hle := hm.le
  rw [Settings.requireM, hm.m_eq]
  simp only [Settings.positive]
  rw [if_neg (by omega), if_neg (by omega)]

/-! What stands when the encoder is built. -/

section build

variable (settings : Settings) (m : Nat) (letters : List Atom)

/-- The clauses of the frame and of the letters. -/
def openingCnf : Cnf := (opening settings m letters {}).2

def openingFrame : Frame := (opening settings m letters {}).1.1

def openingValuation : Valuation (Array Lit) := (opening settings m letters {}).1.2

variable {settings m} (hm : Timed settings m)

include hm in
theorem opening_describes : Describing settings m letters (openingFrame settings m letters)
    (openingValuation settings m letters) (openingCnf settings m letters) := opening_describing settings hm.pos letters

/-- Formulas are written on the clauses of the frame and of the letters. -/
def foundation (deadline : Deadline) : Foundation where
  deadline
  basis := .withConstant (opening_describes letters hm).fits (Cnf.le_refl _)
  frame := openingFrame settings m letters
  valuation := openingValuation settings m letters
  known := (opening_describes letters hm).known.mono (Nat.le_succ _)
  tabled p hp := ((opening_describes letters hm).tabled p hp).mono (Nat.le_succ _)
  slots_pos := Nat.lt_of_lt_of_eq (Frame.bound_pos settings.n m) (opening_describes letters hm).numHistories_eq.symm
  m_pos := Nat.le_trans hm.pos (Nat.le_of_eq (opening_describes letters hm).m_eq.symm)
  m_le := Nat.le_trans (Nat.le_of_eq (opening_describes letters hm).m_eq) hm.le
  settled σ hσ := (opening_describes letters hm).settled σ hσ.1
  arranged σ hσ := (opening_describes letters hm).arranged σ hσ.1

/-- What is written when the encoder is built. -/
theorem run_opening (settings : Settings) (m : Nat) (letters : List Atom) : (do
    let frame ← Frame.write ⟨settings.n⟩ m
    let valuation ← frame.valuation settings letters
    return (frame, valuation, ← Gates.new) : StateM Cnf (Frame × Valuation (Array Lit) × Gates)) {} =
      ((openingFrame settings m letters, openingValuation settings m letters,
        (Gates.new (openingCnf settings m letters)).1), (Gates.new (openingCnf settings m letters)).2) := rfl

open Draft in
/-- The encoder is built, unless the deadline comes. -/
theorem build_valid (deadline : Deadline) :
    (∃ e, build settings letters deadline = .ok e ∧ (foundation letters hm deadline).Valid e ∧
      e.draft.cnf = (Gates.new (openingCnf settings m letters)).2) ∨
      ∃ f, build settings letters deadline = .error f ∧ deadline.Late f := by
  have hkeeps : Keeps (do
        let frame ← Frame.new ⟨settings.n⟩ m
        let valuation ← emit (frame.valuation settings letters)
        return (frame, valuation, ← emit Gates.new)) (do
        let frame ← Frame.write ⟨settings.n⟩ m
        let valuation ← frame.valuation settings letters
        return (frame, valuation, ← Gates.new)) :=
    (Frame.keeps_new _ _).bind fun _ => (Keeps.emit _).bind fun _ => (Keeps.emit _).bind fun _ => .pure _
  simp only [build, hm.requireM_eq, ok_bind]
  rcases (hkeeps deadline { deadline } (Deadline.Same.refl deadline)).outcome with
    ⟨r, draft, hrun, hsame, hwritten⟩ | ⟨f, draft, hrun, hlate⟩
  · obtain ⟨frame, valuation, gates⟩ := r
    obtain ⟨htables, hcnf⟩ := Prod.mk.inj (hwritten.trans (run_opening settings m letters))
    obtain ⟨hframe, hrest⟩ := Prod.mk.inj htables
    obtain ⟨hvaluation, hgates⟩ := Prod.mk.inj hrest
    rw [hrun]
    refine .inl ⟨_, rfl, ⟨hframe, hvaluation, ?_, hsame, ?_, ?_, ?_⟩, hcnf⟩
    · show (foundation letters hm deadline).basis.Fits draft.cnf
      rw [hcnf]
      exact Gates.fits_new (opening_describes letters hm).fits (Cnf.le_refl _)
    · show gates.Valid (foundation letters hm deadline).basis draft.cnf
      rw [hcnf, hgates]
      exact Gates.valid_new (opening_describes letters hm).fits (Cnf.le_refl _)
    · simp
    · simp
  · rw [hrun]
    exact .inr ⟨f, rfl, hlate⟩

variable {letters}

theorem hasMeanings {deadline : Deadline} :
    ∀ p ∈ letters, ∃ lits, (foundation letters hm deadline).valuation.meaning? p = some lits := by
  intro p hp
  rw [← Valuation.mem_letters_iff]
  refine (opening_describes letters hm).letters_eq ▸ ?_
  exact Atom.mem_sorted.2 hp

/-- Assignments under which formulas are written. -/
theorem sat_of_satisfiedBy {deadline : Deadline} {f : Cnf} (hf : (Gates.new (openingCnf settings m letters)).2 ≤ f)
    {σ : Nat → Bool} (hσ : f.satisfiedBy σ) : (foundation letters hm deadline).basis.Sat f σ := by
  have hall := Basis.sat_start.2 hσ
  refine ⟨Gates.satisfiedBy_new.1 (Basis.sat_start.1 (hall.mono hf)), fun c hc => ?_⟩
  exact hall.2 c (List.mem_of_mem_drop hc)

/-- What satisfies the clauses of the frame and of the letters satisfies all later ones, once a constant is true. -/
theorem satisfiedBy_of_sat {deadline : Deadline} {f : Cnf} (hf : (Gates.new (openingCnf settings m letters)).2 ≤ f)
    {σ : Nat → Bool} (hσ : (foundation letters hm deadline).basis.Sat f σ) : f.satisfiedBy σ := by
  have hfits := Gates.fits_after_new (opening_describes letters hm).fits
  refine Basis.sat_start.1 ((Basis.sat_iff_of_le hfits hf).2 ⟨Basis.sat_start.2 (Gates.satisfiedBy_new.2 hσ.1), ?_⟩)
  rw [Gates.size_new]
  exact hσ.2

end build

namespace Foundation

variable {g : Foundation} {e : Encoder} {letters : List Atom} {a : Formula} {σ : Nat → Bool} {h t : Nat}

section extract

variable {holds : Lit → Bool} (he : g.Valid e) (hσ : g.basis.holds σ)
  (hholds : ∀ l : Lit, l.var < g.basis.numVars → holds l = l.holds σ)
include he hσ hholds

/-- The states that an encoder reads off a slot. -/
theorem historyOf_eq (hh : h < g.frame.numHistories) : e.historyOf holds h = .ok (g.frame.slot σ h) := by
  rw [historyOf, he.frame]
  apply mapM_eq_ok
  intro t ht
  have ht := List.mem_range.1 ht
  have heval : (g.frame.choice h t).eval holds = .ok (some (g.frame.stateOf σ h t)) := by
    rw [Choice.eval_congr fun l hl => hholds l ((g.known.choice_known hh ht).2.2 l hl)]
    exact ((g.settled σ hσ).stateOf_spec g.known hh ht).2.1
  rw [heval]
  rfl

/-- The model that an encoder reads off the literals it knows. -/
theorem extract_eq : e.extract holds = .ok (g.model σ) := by
  have hactive : (e.frame.histories.filter fun h => holds (e.frame.isActive h)) = g.frame.inUse σ := by
    rw [he.frame]
    apply List.filter_congr
    intro h hh
    exact hholds _ (g.known.isActive_lt (Frame.mem_histories.1 hh))
  have hhistories : (g.frame.inUse σ).mapM (e.historyOf holds) = .ok ((g.frame.inUse σ).map (g.frame.slot σ)) := by
    apply mapM_eq_ok
    intro h hh
    exact historyOf_eq he hσ hholds (Frame.mem_inUse.1 hh).1
  have hselect : ∀ p ∈ g.valuation, ((StateSet.ofSpace g.frame.space).filter fun s => holds (p.2.getD s.bits default)) =
      g.frame.select σ p.2 := by
    intro p hp
    ext s
    rw [Frame.mem_select, StateSet.mem_filter, StateSet.mem_ofSpace]
    apply and_congr_right
    intro hs
    have hlt : (p.2.getD s.bits default).var < g.basis.numVars := (g.tabled p hp).var_lt (StateSpace.mem_states.1 hs).2
    rw [hholds _ hlt]
  have hvaluation : (g.valuation.map fun p => (p.1, (StateSet.ofSpace g.frame.space).filter fun s =>
      holds (p.2.getD s.bits default))) = g.valuation.map fun p => (p.1, g.frame.select σ p.2) := by
    apply List.map_congr_left
    intro p hp
    rw [hselect p hp]
  rw [extract, hactive, hhistories, he.valuation, he.frame]
  exact congrArg (fun v => Except.ok (Model.mk g.frame.space g.frame.m _ v)) hvaluation

end extract

theorem timed_model (g : Foundation) (σ : Nat → Bool) : (g.model σ).Timed where
  pos := g.m_pos
  word := by
    have hle := g.m_le
    rw [Settings.maxM] at hle
    show 2 * g.frame.m < 2 ^ 64
    omega
  length x hx := by
    obtain ⟨h, -, rfl⟩ := mem_histories_model.1 hx
    exact Frame.length_slot

/-- The evaluator says of a slot in use what its literal denotes. -/
theorem isTrue_eq (ha : Sentence letters a) (hσ : g.basis.holds σ) (hused : g.frame.Used σ h) (ht : t < g.frame.numTimes)
    {b : Bool} (hb : b = true ↔ g.Truth a h t σ) : (g.model σ).isTrue a h t = .ok b := by
  have hslot : (g.model σ).histories[h]? = some (g.frame.slot σ h) := (g.arranged σ hσ).getElem?_shown hused
  obtain ⟨c, hrun, hc⟩ := Model.isTrue_gives (g.timed_model σ) ha hslot ht
  rw [hrun, Bool.eq_iff_iff.2 (hc.trans hb.symm)]

theorem now_lt (g : Foundation) : g.frame.now < g.frame.numTimes := by
  have hpos := g.m_pos
  rw [Frame.now, Frame.numTimes]
  omega

/-- Truth on the main history at present. -/
theorem countermodel_isTrue_eq (ha : Sentence letters a) (hσ : g.basis.holds σ) {b : Bool}
    (hb : b = true ↔ g.Truth a 0 g.frame.now σ) : (Countermodel.history (g.model σ)).isTrue a = .ok b := by
  have hpos := g.m_pos
  have hnow : (g.model σ).now = .ok g.frame.now := by
    rw [Model.now, if_neg]
    · rfl
    · show ¬ g.frame.m = 0
      omega
  rw [Countermodel.isTrue, hnow]
  exact isTrue_eq ha hσ (g.arranged σ hσ).main g.now_lt hb

theorem does_truthAtEval (hletters : ∀ p ∈ letters, ∃ lits, g.valuation.meaning? p = some lits) (ha : Sentence letters a)
    (he : g.Valid e) : g.Does (truthAtEval a) e fun f l => g.basis.Denotes f l (g.Truth a 0 g.frame.now) := by
  apply (does_frame he).bind
  rintro f e₁ h₁ rfl
  exact does_truth hletters ha h₁.valid g.slots_pos g.now_lt

end Foundation

/-! Questions to the encoder. -/

/-- The truth of a formula in a slot at a time, or on the main history at present. -/
inductive Query where
  | truth (a : Formula) (h t : Nat)
  | truthAtEval (a : Formula)

namespace Query

def run : Query → EncodeM Lit
  | truth a h t => Encoder.truth a h t
  | truthAtEval a => Encoder.truthAtEval a

/-- A question about a formula with the letters and operators there are, in a slot and at a time that there are. -/
def Proper (n m : Nat) (letters : List Atom) : Query → Prop
  | truth a h t => a.Over Theory.bimodal.primitives letters ∧ h < Frame.bound n m ∧ t < 2 * m - 1
  | truthAtEval a => a.Over Theory.bimodal.primitives letters

/-- The literal of a reply says what is the case in the model, if its slot is in use. -/
def Answered (f : Frame) (B : Model) (σ : Nat → Bool) : Query → Lit → Prop
  | truth a h t, l => (f.isActive h).holds σ = true → B.isTrue a h t = .ok (l.holds σ)
  | truthAtEval a, l => (Countermodel.history B).isTrue a = .ok (l.holds σ)

end Query

namespace Foundation

variable {g : Foundation} {e : Encoder} {letters : List Atom}

/-- What a reply is to say in every assignment. -/
def Replies (g : Foundation) (q : Query) (f : Cnf) (l : Lit) : Prop :=
  ∀ σ, g.basis.Sat f σ → q.Answered g.frame (g.model σ) σ l

theorem does_query (hletters : ∀ p ∈ letters, ∃ lits, g.valuation.meaning? p = some lits) (he : g.Valid e) {q : Query}
    (hslots : g.frame.numHistories = Frame.bound g.frame.space.n g.frame.m)
    (hq : q.Proper g.frame.space.n g.frame.m letters) : g.Does q.run e (g.Replies q) := by
  cases q with
  | truth a h t =>
    obtain ⟨ha, hh, ht⟩ := hq
    have ha := Sentence.of_over ha
    have hh : h < g.frame.numHistories := hslots ▸ hh
    apply (does_truth hletters ha he hh ht).imp
    intro l e' h' hl σ hσ hactive
    exact isTrue_eq ha hσ.1 ⟨hh, hactive⟩ ht (hl.2 σ hσ)
  | truthAtEval a =>
    have ha := Sentence.of_over hq
    apply (does_truthAtEval hletters ha he).imp
    intro l e' h' hl σ hσ
    exact countermodel_isTrue_eq ha hσ.1 (hl.2 σ hσ)

/-- A sequence of questions, all answered in the last state. -/
theorem does_queries (hletters : ∀ p ∈ letters, ∃ lits, g.valuation.meaning? p = some lits) (he : g.Valid e)
    (hslots : g.frame.numHistories = Frame.bound g.frame.space.n g.frame.m) {qs : List Query}
    (hqs : ∀ q ∈ qs, q.Proper g.frame.space.n g.frame.m letters) :
    g.Does (qs.mapM Query.run) e fun f ls => List.Forall₂ (fun q l => g.Replies q f l) qs ls :=
  .mapM (fun _ _ h => h.valid.grows) he.grows (fun _ _ _ _ h hl σ hσ => hl σ (hσ.mono h.le))
    fun q hq _ h => does_query hletters h.valid hslots (hqs q hq)

end Foundation

/-- An encoder that is built in time answers any sequence of questions. In an assignment that satisfies its clauses, the
slots in use are the histories of the model that it reads off the assignment, in their order, and the literals of its
replies are true just if the model says so. Whatever satisfies the clauses of the frame and of the letters can be
continued so that it satisfies all clauses. -/
theorem slots_agree_with_model (settings : Settings) (m : Nat) (hm : Timed settings m) (letters : List Atom)
    (deadline : Deadline) (hdeadline : deadline.Open) (queries : List Query)
    (hqueries : ∀ q ∈ queries, q.Proper settings.n m letters) :
    ∃ e lits e', build settings letters deadline = .ok e ∧ queries.mapM Query.run e = .ok lits e' ∧
      (∀ σ, e'.draft.cnf.satisfiedBy σ → ∃ B, e'.extract (·.holds σ) = .ok B ∧
        (∀ h < Frame.bound settings.n m, (e'.frame.isActive h).holds σ = true →
          ∃ states, e'.historyOf (·.holds σ) h = .ok states ∧ B.histories[h]? = some states) ∧
        List.Forall₂ (fun q l => q.Answered e'.frame B σ l) queries lits) ∧
      ∀ σ, (openingCnf settings m letters).satisfiedBy σ →
        ∃ τ, Agree (openingCnf settings m letters).numVars σ τ ∧ e'.draft.cnf.satisfiedBy τ := by
  have hopen := opening_describes letters hm
  obtain ⟨e, hbuild, hvalid, hcnf⟩ := (build_valid letters hm deadline).resolve_right fun h => by
    obtain ⟨f, -, hf⟩ := h
    exact hdeadline.not_late f hf
  have hspace : (foundation letters hm deadline).frame.space.n = settings.n := congrArg StateSpace.n hopen.space_eq
  have hfm : (foundation letters hm deadline).frame.m = m := hopen.m_eq
  have hslots : (foundation letters hm deadline).frame.numHistories = Frame.bound settings.n m := hopen.numHistories_eq
  obtain ⟨lits, e', hrun, hgrow, hreplies⟩ := (Foundation.does_queries (hasMeanings hm) hvalid
    (by rw [hspace, hfm, hslots]) (by rwa [hspace, hfm])).succeeds hdeadline.not_late
  have hle := hcnf ▸ hgrow.le
  refine ⟨e, lits, e', hbuild, hrun, fun σ hσ => ?_, fun σ hσ => ?_⟩
  · have hsat : (foundation letters hm deadline).basis.Sat e'.draft.cnf σ := sat_of_satisfiedBy hm hle hσ
    have harranged := (foundation letters hm deadline).arranged σ hsat.1
    refine ⟨_, Foundation.extract_eq hgrow.valid hsat.1 fun _ _ => rfl, fun h hh hactive => ?_, ?_⟩
    · rw [hgrow.valid.frame] at hactive
      rw [← hslots] at hh
      exact ⟨_, Foundation.historyOf_eq hgrow.valid hsat.1 (fun _ _ => rfl) hh, harranged.getElem?_shown ⟨hh, hactive⟩⟩
    · rw [hgrow.valid.frame]
      exact hreplies.imp fun q l h => h σ hsat
  · have hagree := Agree.update (openingCnf settings m letters).numVars σ true
    have hstart : (Gates.new (openingCnf settings m letters)).2.satisfiedBy
        (Function.update σ (openingCnf settings m letters).numVars true) :=
      Gates.satisfiedBy_new.2 ⟨Basis.sat_start.1 ((Basis.sat_start.2 hσ).congr hopen.fits hagree), Function.update_self ..⟩
    have hsat : (foundation letters hm deadline).basis.Sat _ _ := sat_of_satisfiedBy hm (Cnf.le_refl _) hstart
    rw [← hcnf] at hsat
    obtain ⟨τ, hυτ, hτ⟩ := hgrow.extend.complete _ hsat trivial
    have hnum : (openingCnf settings m letters).numVars ≤ e.draft.cnf.numVars := by
      rw [hcnf, Gates.numVars_new]
      exact Nat.le_succ _
    exact ⟨τ, hagree.trans (hυτ.mono hnum), satisfiedBy_of_sat hm hle hτ⟩

/-- One letter over one atomic state, with two times each way: a necessity about the future, and the letter in the last
slot at the last time. -/
theorem slots_agree_with_model_boxFuture : ∃ e lits e',
    build { n := 1, m := some 2 } [⟨'A', rfl⟩] .never = .ok e ∧
      [Query.truthAtEval (.unary .box (.unary .future (.atom ⟨'A', rfl⟩))),
        Query.truth (.atom ⟨'A', rfl⟩) 7 2].mapM Query.run e = .ok lits e' ∧
      (∀ σ, e'.draft.cnf.satisfiedBy σ → ∃ B, e'.extract (·.holds σ) = .ok B ∧
        (∀ h < Frame.bound 1 2, (e'.frame.isActive h).holds σ = true →
          ∃ states, e'.historyOf (·.holds σ) h = .ok states ∧ B.histories[h]? = some states) ∧
        List.Forall₂ (fun q l => q.Answered e'.frame B σ l)
          [Query.truthAtEval (.unary .box (.unary .future (.atom ⟨'A', rfl⟩))),
            Query.truth (.atom ⟨'A', rfl⟩) 7 2] lits) ∧
      ∀ σ, (openingCnf { n := 1, m := some 2 } 2 [⟨'A', rfl⟩]).satisfiedBy σ →
        ∃ τ, Agree (openingCnf { n := 1, m := some 2 } 2 [⟨'A', rfl⟩]).numVars σ τ ∧ e'.draft.cnf.satisfiedBy τ := by
  refine slots_agree_with_model _ 2 ⟨rfl, by decide, by decide⟩ _ _ (fun _ => rfl) _ ?_
  simp only [List.forall_mem_cons, Query.Proper, Formula.over_unary, Formula.over_atom]
  exact ⟨⟨by decide, by decide, by decide⟩, ⟨by decide, by decide, by decide⟩, by simp⟩

end Countermodels.History
