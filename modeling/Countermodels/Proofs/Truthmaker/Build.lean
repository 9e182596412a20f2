import Countermodels.Proofs.Cnf.Order
import Countermodels.Proofs.Draft
import Countermodels.Proofs.State.Permute
import Countermodels.Proofs.Truthmaker.Evaluation

/-! The encoder as it is built, and its answers. After any sequence of questions, the literals it has given
are true in an assignment just if the model that the assignment describes says so; and the questions
leave open all that the frame and the contents of the letters leave open. -/

namespace Countermodels.Truthmaker

open Encoder

namespace Frame

variable {f : Frame} {v : Valuation ContentLits} {n : Nat} {s : State}

theorem length_row (f : Frame) (v : Valuation ContentLits) (s : State) :
    (f.row v s).length = 2 + 2 * v.meanings.length := by
  simp only [row, List.length_append, List.length_flatMap, List.length_cons, List.length_nil, List.map_const',
    List.sum_replicate, smul_eq_mul]
  omega

theorem row_known (hf : f.Known n) (hv : ∀ p ∈ v, p.2.Tabled f.space n) (hs : s ∈ f.space.states) :
    ∀ l ∈ f.row v s, l.var < n := by
  have hlt := (StateSpace.mem_states.1 hs).2
  have hcontents : ∀ c ∈ v.meanings, c.Tabled f.space n := List.forall_mem_map.2 hv
  rw [row, List.forall_mem_append]
  refine ⟨by simpa using ⟨hf.isPossible_lt hlt, hf.isEval_lt hs⟩, fun l hl => ?_⟩
  obtain ⟨c, hc, hl⟩ := List.mem_flatMap.1 hl
  have hboth : ∀ k ∈ [litAt c.ver s, litAt c.fal s], k.var < n := by
    simpa using ⟨(hcontents c hc).ver.var_lt hlt, (hcontents c hc).fal.var_lt hlt⟩
  exact hboth l hl

/-- The truth values of the literals of all states, each found in the row of its image. -/
def profile (f : Frame) (v : Valuation ContentLits) (σ : Nat → Bool) (image : State → State) : List Bool :=
  (f.space.states.flatMap fun s => f.row v (image s)).map (·.holds σ)

theorem swapBits_mem {i : Nat} (hi : i + 1 < f.space.n) (hs : s ∈ f.space.states) :
    s.swapBits i (i + 1) ∈ f.space.states := by
  obtain ⟨hn, hlt⟩ := StateSpace.mem_states.1 hs
  have hswap := State.swapBits_eq_permute hlt ⟨i, Nat.lt_of_succ_lt hi⟩ ⟨i + 1, hi⟩
  rw [StateSpace.mem_states, show s.swapBits i (i + 1) = _ from hswap]
  exact ⟨hn, State.permute_lt _ _⟩

theorem row_of_table (hs : s ∈ f.space.states) :
    (f.space.states.map (f.row v)).toArray.getD s.bits [] = f.row v s := by
  obtain ⟨hn, hlt⟩ := StateSpace.mem_states.1 hs
  simp [StateSpace.states, hn, Array.getD_eq_getD_getElem?, hlt]

/-- No exchange of neighbouring atomic states gives literals that come earlier. -/
theorem imposes_breakSwaps (hf : f.Known n) (hv : ∀ p ∈ v, p.2.Tabled f.space n) :
    Imposes n (f.breakSwaps v) fun σ => ∀ i ∈ List.range (f.space.n - 1),
      Ordered false (f.profile v σ id) (f.profile v σ (·.swapBits i (i + 1))) := by
  refine .forM fun i hi => ?_
  have hmem : ∀ s ∈ f.space.states, s.swapBits i (i + 1) ∈ f.space.states := fun s =>
    swapBits_mem (by have := List.mem_range.1 hi; omega)
  have hrows : ∀ image : State → State, (∀ s ∈ f.space.states, image s ∈ f.space.states) →
      (f.space.states.flatMap fun s => (f.space.states.map (f.row v)).toArray.getD (image s).bits []) =
        f.space.states.flatMap fun s => f.row v (image s) := by
    intro image himage
    rw [List.flatMap, List.flatMap, List.map_congr_left fun s hs => row_of_table (himage s hs)]
  have hknown : ∀ image : State → State, (∀ s ∈ f.space.states, image s ∈ f.space.states) →
      ∀ l ∈ f.space.states.flatMap fun s => f.row v (image s), l.var < n := by
    intro image himage l hl
    obtain ⟨s, hs, hl⟩ := List.mem_flatMap.1 hl
    exact row_known hf hv (himage s hs) l hl
  have hlength : (f.space.states.flatMap fun s => f.row v (id s)).length =
      (f.space.states.flatMap fun s => f.row v (s.swapBits i (i + 1))).length := by
    simp only [List.length_flatMap, length_row]
  have hid := hrows id fun s hs => hs
  have hswap := hrows (·.swapBits i (i + 1)) hmem
  have horder := Imposes.lexOrder none false hlength (by simp)
    (hknown id fun s hs => hs) (hknown _ hmem)
  rw [← hid, ← hswap] at horder
  exact horder.congr fun σ => by
    rw [hid, hswap]
    simp [holdsOpt, profile]

end Frame

/-! What stands when the encoder is built. -/

section build

variable (settings : Settings) (letters : List Atom)

/-- The clauses of the frame and of the contents of letters. -/
def openingCnf : Cnf := (opening settings letters {}).2

def openingFrame : Frame := (opening settings letters {}).1.1

def openingValuation : Valuation ContentLits := (opening settings letters {}).1.2

/-- These clauses, and those that keep one of several models that differ by a permutation. -/
def brokenCnf : Cnf := ((openingFrame settings letters).breakSwaps (openingValuation settings letters)
  (openingCnf settings letters)).2

theorem opening_describes : Describing settings letters (openingFrame settings letters)
    (openingValuation settings letters) (openingCnf settings letters) := opening_describing settings letters

theorem broken_restricts : Basis.start.Restricts (fun σ => ∀ i ∈ List.range (settings.n - 1),
    Ordered false ((openingFrame settings letters).profile (openingValuation settings letters) σ id)
      ((openingFrame settings letters).profile (openingValuation settings letters) σ (·.swapBits i (i + 1))))
    (openingCnf settings letters) (brokenCnf settings letters) := by
  have hopen := opening_describes settings letters
  have himpose := (Frame.imposes_breakSwaps hopen.known hopen.tabled).restricts Basis.start _ hopen.fits
    (Nat.le_refl _)
  rw [hopen.space_eq] at himpose
  exact himpose

/-- Formulas are written on the clauses of the frame and of the contents. The clauses that break symmetry
say nothing that a formula depends on. -/
def foundation (deadline : Deadline) : Foundation where
  deadline
  basis := .withConstant (opening_describes settings letters).fits (broken_restricts settings letters).le
  frame := openingFrame settings letters
  valuation := openingValuation settings letters
  known := (opening_describes settings letters).known.mono
    (Nat.le_succ_of_le (broken_restricts settings letters).le.1)
  tabled p hp := ((opening_describes settings letters).tabled p hp).mono
    (Nat.le_succ_of_le (broken_restricts settings letters).le.1)
  realized σ hσ := (opening_describes settings letters).realized σ hσ.1

variable {settings letters}

/-- The encoder is built, unless the deadline comes. -/
theorem build_valid (settings : Settings) (letters : List Atom) (deadline : Deadline) :
    (∃ e, build settings letters deadline = .ok e ∧ (foundation settings letters deadline).Valid e ∧
      e.draft.cnf = (Gates.new (brokenCnf settings letters)).2) ∨
      ∃ f, build settings letters deadline = .error f ∧ deadline.Late f := by
  cases hpoll : deadline.poll.1 with
  | false =>
    have hbuild : build settings letters deadline = .ok
        { draft := ⟨(Gates.new (brokenCnf settings letters)).2, deadline.poll.2⟩
          frame := openingFrame settings letters
          valuation := openingValuation settings letters
          gates := (Gates.new (brokenCnf settings letters)).1 } := by
      simp only [build, Draft.emit_bind, Draft.checkDeadline_bind (d := ⟨_, deadline⟩) hpoll]
      rfl
    have hfits := (opening_describes settings letters).fits
    have hle := (broken_restricts settings letters).le
    refine .inl ⟨_, hbuild, ⟨rfl, rfl, Gates.fits_new hfits hle, (Deadline.Same.refl deadline).poll,
      Gates.valid_new hfits hle, ?_, ?_, ?_, ?_⟩, rfl⟩ <;> simp
  | true =>
    refine .inr ⟨_, ?_, (Deadline.Same.refl deadline).late hpoll⟩
    simp only [build, Draft.emit_bind, Draft.checkDeadline_bind_late (d := ⟨_, deadline⟩) hpoll]

theorem hasMeanings {deadline : Deadline} : ∀ a ∈ letters, ∃ c, (foundation settings letters deadline).valuation.meaning? a = some c := by
  intro a ha
  rw [← Valuation.mem_letters_iff]
  refine (opening_describes settings letters).letters_eq ▸ ?_
  exact Atom.mem_sorted.2 ha

/-- Assignments under which formulas are written. -/
theorem sat_of_satisfiedBy {deadline : Deadline} {f : Cnf} (hf : (Gates.new (brokenCnf settings letters)).2 ≤ f)
    {σ : Nat → Bool} (hσ : f.satisfiedBy σ) : (foundation settings letters deadline).basis.Sat f σ := by
  have hall := Basis.sat_start.2 hσ
  obtain ⟨hbroken, hconstant⟩ := Gates.satisfiedBy_new.1 (Basis.sat_start.1 (hall.mono hf))
  refine ⟨⟨Basis.sat_start.1 ((Basis.sat_start.2 hbroken).mono (broken_restricts settings letters).le), hconstant⟩, ?_⟩
  exact fun c hc => hall.2 c (List.mem_of_mem_drop hc)

end build

/-- The model that an encoder reads off an assignment. -/
theorem extract_eq_reading {e : Encoder} {n : Nat} {σ : Nat → Bool} (hσ : e.frame.Realized σ) (hf : e.frame.Known n) :
    e.extract (·.holds σ) = .ok (e.frame.reading e.valuation σ) := by
  rw [extract, (hσ.chosen_spec hf).2.1]
  rfl

theorem Foundation.extract_eq {g : Foundation} {e : Encoder} {σ : Nat → Bool} (he : g.Valid e)
    (hσ : g.basis.holds σ) : e.extract (·.holds σ) = .ok (g.model σ) := by
  have hread : e.extract (·.holds σ) = .ok (e.frame.reading e.valuation σ) :=
    extract_eq_reading (he.frame ▸ g.realized σ hσ) (he.frame ▸ g.known)
  rwa [he.frame, he.valuation] at hread

/-! Questions to the encoder. -/

/-- The truth or the content of a formula at a state, or its truth at the world of evaluation. -/
inductive Query where
  | truth (a : Formula) (w : State)
  | content (a : Formula) (w : State)
  | truthAtEval (a : Formula)

inductive Reply where
  | lit (l : Lit)
  | content (c : ContentLits)

namespace Query

def run : Query → EncodeM Reply
  | truth a w => return .lit (← (encode a).truth w)
  | content a w => return .content (← (encode a).content w)
  | truthAtEval a => return .lit (← Encoder.truthAtEval a)

/-- A question about a formula with the letters and operators there are, at a state that there is. -/
def Proper (space : StateSpace) (letters : List Atom) : Query → Prop
  | truth a w | content a w => a.Over Theory.counterfactual.primitives letters ∧ w.bits < space.size
  | truthAtEval a => a.Over Theory.counterfactual.primitives letters

/-- A table has one literal for each state, and those that are true give a set. -/
def Shown (space : StateSpace) (σ : Nat → Bool) (lits : Array Lit) (set : StateSet) : Prop :=
  lits.size = space.size ∧ ∀ s : State, s ∈ set ↔ ∃ l, lits[s.bits]? = some l ∧ l.holds σ = true

/-- The literals of a reply say what is the case in the model. -/
def Answered (m : Model) (σ : Nat → Bool) : Query → Reply → Prop
  | truth a w, .lit l => m.isTrue a w = .ok (l.holds σ)
  | content a w, .content c => ∃ d, m.content a w = .ok d ∧ Shown m.space σ c.ver d.ver ∧ Shown m.space σ c.fal d.fal
  | truthAtEval a, .lit l => m.isTrue a m.evalWorld = .ok (l.holds σ)
  | _, _ => False

end Query

namespace Foundation

variable {g : Foundation} {e : Encoder} {letters : List Atom} {a : Formula} {σ : Nat → Bool}

/-- What a reply is to say in every assignment. -/
def Replies (g : Foundation) (q : Query) (f : Cnf) (r : Reply) : Prop :=
  ∀ σ, g.basis.Sat f σ → q.Answered (g.model σ) σ r

theorem isTrue_eq (ha : Sentence letters a) (hσ : g.basis.holds σ) {w : State} {t : Bool}
    (h : t = true ↔ (g.meaning a σ).Holds w) : (g.model σ).isTrue a w = .ok t := by
  obtain ⟨u, hu⟩ := (proper ha hσ).truth w
  rw [Meaning.Holds, hu, Except.ok.injEq, ← Bool.eq_iff_iff] at h
  rw [h]
  exact hu

theorem shown {f : Cnf} {lits : Array Lit} {P : State → (Nat → Bool) → Prop} {set : StateSet}
    (hlits : g.Shows f lits P) (hfills : g.Fills lits) (hσ : g.basis.Sat f σ)
    (hset : ∀ s, s ∈ set ↔ P s σ) (hlocated : ∀ s ∈ set, s ∈ g.frame.space.states) :
    Query.Shown g.frame.space σ lits set := by
  have hsize := hfills (n_lt hσ.1)
  have hlit : ∀ s : State, s.bits < lits.size → lits[s.bits]? = some (litAt lits s) := fun s hs => by
    rw [litAt, Array.getD_eq_getD_getElem?, Array.getElem?_eq_getElem hs, Option.getD_some]
  refine ⟨hsize, fun s => ⟨fun hs => ?_, ?_⟩⟩
  · have hlt := has_of_mem (hlocated s hs)
    exact ⟨_, hlit s (hsize ▸ hlt), ((hlits s hlt).2 σ hσ).2 ((hset s).1 hs)⟩
  · rintro ⟨l, hl, hlσ⟩
    have hlt : s.bits < lits.size := by
      by_contra hge
      rw [Array.getElem?_eq_none (by omega)] at hl
      cases hl
    cases (hlit s hlt).symm.trans hl
    exact (hset s).2 (((hlits s (show s.bits < _ from hsize ▸ hlt)).2 σ hσ).1 hlσ)

theorem does_query (hletters : ∀ p ∈ letters, ∃ c, g.valuation.meaning? p = some c) (he : g.Valid e) {q : Query}
    (hq : q.Proper g.frame.space letters) : g.Does q.run e (g.Replies q) := by
  cases q with
  | truth a w =>
    have ha := Sentence.of_over hq.1
    refine ((encodes_sentence hletters ha).truth w hq.2 e he).bind fun l e' h hl => ?_
    exact does_pure h.valid fun σ hσ => isTrue_eq ha hσ.1 (hl.2 σ hσ)
  | content a w =>
    have ha := Sentence.of_over hq.1
    refine ((encodes_sentence hletters ha).content w hq.2 e he).bind fun c e' h hc => ?_
    refine does_pure h.valid fun σ hσ => ?_
    have hproper := proper ha hσ.1
    obtain ⟨d, hd, hver, hfal⟩ := hproper.content_gives w
    refine ⟨d, hd, shown hc.ver hc.ver_fills hσ hver fun s hs => ?_, shown hc.fal hc.fal_fills hσ hfal fun s hs => ?_⟩
    · exact hproper.verifier w s ((hver s).1 hs)
    · exact hproper.falsifier w s ((hfal s).1 hs)
  | truthAtEval a =>
    have ha := Sentence.of_over hq
    refine (does_truthAtEval hletters ha he).bind fun l e' h hl => ?_
    exact does_pure h.valid fun σ hσ => isTrue_eq ha hσ.1 (hl.2 σ hσ)

/-- A sequence of questions, all answered in the last state. -/
theorem does_queries (hletters : ∀ p ∈ letters, ∃ c, g.valuation.meaning? p = some c) (he : g.Valid e)
    {qs : List Query} (hqs : ∀ q ∈ qs, q.Proper g.frame.space letters) :
    g.Does (qs.mapM Query.run) e fun f rs => List.Forall₂ (fun q r => g.Replies q f r) qs rs :=
  does_mapM he (fun _ _ _ _ hle hr σ hσ => hr σ (hσ.mono hle)) fun q hq _ h => does_query hletters h.valid (hqs q hq)

end Foundation

/-- The later encoder has written nothing that the frame and the contents of letters do not allow: with these
clauses alone, or with all that stood before. -/
structure Conservative (settings : Settings) (letters : List Atom) (e e' : Encoder) : Prop where
  of_opening : ∀ σ, (openingCnf settings letters).satisfiedBy σ → ∃ τ,
    Agree (openingCnf settings letters).numVars σ τ ∧
      Models (e'.draft.cnf.clauses.toList.drop e.draft.cnf.clauses.size) τ
  of_all : ∀ σ, e.draft.cnf.satisfiedBy σ → ∃ τ, Agree e.draft.cnf.numVars σ τ ∧ e'.draft.cnf.satisfiedBy τ

theorem Foundation.Grows.conservative {settings : Settings} {letters : List Atom} {deadline : Deadline} {e e' : Encoder}
    (h : (foundation settings letters deadline).Grows e e') (he : e.draft.cnf = (Gates.new (brokenCnf settings letters)).2) :
    Conservative settings letters e e' := by
  have hfits : (foundation settings letters deadline).basis.Fits e.draft.cnf := he ▸ Gates.fits_new (opening_describes settings letters).fits (broken_restricts settings letters).le
  have hsize : (foundation settings letters deadline).basis.size = e.draft.cnf.clauses.size := by
    rw [he, Gates.size_new]
    rfl
  have hempty : e.draft.cnf.clauses.toList.drop (foundation settings letters deadline).basis.size = [] := by
    rw [hsize, ← Array.length_toList, List.drop_length]
  have hsat : ∀ σ, (foundation settings letters deadline).basis.holds σ → (foundation settings letters deadline).basis.Sat e.draft.cnf σ :=
    fun σ hσ => ⟨hσ, by simp [hempty, Models]⟩
  refine ⟨fun σ hσ => ?_, fun σ hσ => ?_⟩
  · have hopen := opening_describes settings letters
    have hagree := Agree.update (brokenCnf settings letters).numVars σ true
    have hle := (broken_restricts settings letters).le.1
    have hτ : (foundation settings letters deadline).basis.holds (Function.update σ (brokenCnf settings letters).numVars true) :=
      ⟨Basis.sat_start.1 ((Basis.sat_start.2 hσ).congr hopen.fits (hagree.mono hle)), Function.update_self ..⟩
    obtain ⟨υ, hτυ, hυ⟩ := h.extend.complete _ (hsat _ hτ) trivial
    have hnum : (openingCnf settings letters).numVars ≤ e.draft.cnf.numVars := by
      rw [he, Gates.numVars_new]
      exact Nat.le_succ_of_le hle
    exact ⟨υ, (hagree.mono hle).trans (hτυ.mono hnum), hsize ▸ hυ.2⟩
  · obtain ⟨τ, hστ, hτ⟩ := h.extend.complete σ (sat_of_satisfiedBy (he ▸ Cnf.le_refl e.draft.cnf) hσ) trivial
    have hstart : Basis.start.Fits e.draft.cnf := he ▸ Gates.fits_after_new (broken_restricts settings letters).fits
    refine ⟨τ, hστ, Basis.sat_start.1 ((Basis.sat_iff_of_le hstart h.le).2 ⟨?_, hsize ▸ hτ.2⟩)⟩
    exact (Basis.sat_start.2 hσ).congr hstart hστ

/-- An encoder that is built in time answers any sequence of questions. The literals of its replies are true in
an assignment that satisfies its clauses just if the model it reads off the assignment says so, and its
clauses about them can be satisfied whatever the frame and the letters are. -/
theorem replies_agree_with_model (settings : Settings) (letters : List Atom) (deadline : Deadline)
    (hdeadline : deadline.Open) (queries : List Query)
    (hqueries : ∀ q ∈ queries, q.Proper ⟨settings.n⟩ letters) :
    ∃ e replies e', build settings letters deadline = .ok e ∧ queries.mapM Query.run e = .ok replies e' ∧
      (∀ σ, e'.draft.cnf.satisfiedBy σ → ∃ m, e'.extract (·.holds σ) = .ok m ∧
        List.Forall₂ (fun q r => q.Answered m σ r) queries replies) ∧
      Conservative settings letters e e' := by
  obtain ⟨e, hbuild, hvalid, hcnf⟩ := (build_valid settings letters deadline).resolve_right
    fun h => by
      obtain ⟨f, -, hf⟩ := h
      exact hdeadline.not_late f hf
  have hspace : (foundation settings letters deadline).frame.space = ⟨settings.n⟩ :=
    (opening_describes settings letters).space_eq
  obtain ⟨replies, e', hrun, hgrow, hreplies⟩ :=
    (Foundation.does_queries hasMeanings hvalid (hspace ▸ hqueries)).succeeds hdeadline.not_late
  refine ⟨e, replies, e', hbuild, hrun, fun σ hσ => ?_, hgrow.conservative hcnf⟩
  have hsat : (foundation settings letters deadline).basis.Sat e'.draft.cnf σ := sat_of_satisfiedBy (hcnf ▸ hgrow.le) hσ
  exact ⟨_, Foundation.extract_eq hgrow.valid hsat.1, hreplies.imp fun q r h => h σ hsat⟩

/-- One letter over two atomic states, and a counterfactual inside a necessity. -/
theorem replies_agree_with_model_boxRight : ∃ e replies e',
    build { n := 2 } [⟨'A', rfl⟩] .never = .ok e ∧
      [Query.truthAtEval (.unary .box (.binary .boxRight (.atom ⟨'A', rfl⟩) .bot)),
        Query.content (.atom ⟨'A', rfl⟩) ⟨3⟩].mapM Query.run e = .ok replies e' ∧
      (∀ σ, e'.draft.cnf.satisfiedBy σ → ∃ m, e'.extract (·.holds σ) = .ok m ∧
        List.Forall₂ (fun q r => q.Answered m σ r)
          [Query.truthAtEval (.unary .box (.binary .boxRight (.atom ⟨'A', rfl⟩) .bot)),
            Query.content (.atom ⟨'A', rfl⟩) ⟨3⟩] replies) ∧
      Conservative { n := 2 } [⟨'A', rfl⟩] e e' := by
  refine replies_agree_with_model _ _ _ (fun _ => rfl) _ ?_
  simp only [List.forall_mem_cons, Query.Proper, Formula.over_unary, Formula.over_binary, Formula.over_atom]
  exact ⟨⟨by decide, by decide, by decide, Formula.over_bot.2 (by decide)⟩, ⟨by decide, by decide⟩, by simp⟩

end Countermodels.Truthmaker
