import Countermodels.Proofs.Formula.Valuation
import Countermodels.Proofs.History.Layout
import Countermodels.Proofs.Truthmaker.Frame

/-! Admissible models of histories. The clauses of a frame and of its letters are true in just those assignments that
describe one whose histories are listed in order, and each of these is described. -/

namespace Countermodels.History

open Truthmaker (Tabled litAt)

/-- What the settings demand of the states where a letter is true. -/
structure Allows (settings : Settings) (space : StateSpace) (set : StateSet) : Prop where
  located : ∀ s ∈ set, s ∈ space.states
  contingent : settings.contingent = true → (∃ s ∈ space.states, s ∈ set) ∧ ∃ s ∈ space.states, s ∉ set
  nonEmpty : settings.nonEmpty = true → ∃ s ∈ space.states, s ∈ set
  nonNull : settings.nonNull = true → .null ∉ set

/-- No state is in both sets. -/
def Apart (a b : StateSet) : Prop := ∀ s ∈ a, s ∉ b

/-- The histories are a bundle, of which the main history comes first, and the letters are true at such states as the
settings ask for. -/
structure Model.Admissible (settings : Settings) (m : Nat) (letters : List Atom) (B : Model) : Prop where
  space_eq : B.space = ⟨settings.n⟩
  m_eq : B.m = m
  bundle : Bundle B.space (2 * m - 1) (Frame.bound settings.n m) B.histories
  nonempty : B.histories ≠ []
  letters_eq : B.valuation.letters = Atom.sorted letters
  allows : ∀ p ∈ B.valuation, Allows settings B.space p.2
  disjoint : settings.disjoint = true → B.valuation.Pairwise fun p q => Apart p.2 q.2

/-- The histories after the main one are listed with increasing codes. -/
def Model.InOrder (B : Model) : Prop := Increasing (code B.space) (B.histories.drop 1)

theorem Model.Admissible.listing {settings : Settings} {m : Nat} {letters : List Atom} {B : Model}
    (hB : B.Admissible settings m letters) (horder : B.InOrder) : Frame.Listing ⟨settings.n⟩ m B.histories := by
  obtain ⟨space, k, hs, v⟩ := B
  obtain ⟨rfl, -, hbundle, hnonempty, -⟩ := hB
  exact ⟨hbundle, hnonempty, horder⟩

namespace Frame

variable {f : Frame} {n k : Nat} {σ τ : Nat → Bool} {settings : Settings} {letters : List Atom} {lits : Array Lit}
  {v : Valuation (Array Lit)} {g : Cnf}

/-! Clauses on letters. -/

/-- The demands on the literals of one letter. -/
structure Constrained (settings : Settings) (lits : Array Lit) (σ : Nat → Bool) : Prop where
  contingent : settings.contingent = true → (∃ l ∈ lits, l.holds σ = true) ∧ ∃ l ∈ lits, l.holds σ = false
  nonEmpty : settings.nonEmpty = true → ∃ l ∈ lits, l.holds σ = true
  nonNull : settings.nonNull = true → (litAt lits .null).holds σ = false

theorem imposes_constrainLetter (settings : Settings) (hlits : Tabled f.space n lits) :
    Imposes n (constrainLetter settings lits) (Constrained settings lits) := by
  have hknown : ∀ l ∈ lits.toList, l.var < n := by simpa using hlits.known
  have hneg : ∀ l ∈ lits.toList.map Lit.neg, l.var < n := by simpa using hlits.known
  have hnull : (litAt lits .null).neg.var < n := by simpa using hlits.var_lt (s := .null) f.space.size_pos
  have hlast : Imposes n (if settings.nonNull = true then Emit.unit (litAt lits .null).neg else pure ()) fun σ =>
      settings.nonNull = true → (litAt lits .null).neg.holds σ = true := .ite fun _ => .unit hnull
  have hmiddle := Imposes.ite_before (p := settings.nonEmpty = true) (.clause hknown) hlast
  refine (Imposes.ite_seq (p := settings.contingent = true) (.clause hknown) (.clause hneg) hmiddle).congr fun σ => ?_
  simp only [Lit.anyHolds_iff, Array.mem_toList_iff, List.mem_map, exists_exists_and_eq_and, Lit.holds_neg,
    Bool.not_eq_true']
  constructor
  · rintro ⟨hcontingent, hnonEmpty, hnonNull⟩
    exact ⟨hcontingent, hnonEmpty, hnonNull⟩
  · intro h
    exact ⟨h.contingent, h.nonEmpty, h.nonNull⟩

/-- No state has a true literal in both tables. -/
def LitsApart (σ : Nat → Bool) (p q : Array Lit) : Prop :=
  ∀ r ∈ p.toList.zip q.toList, r.1.holds σ = true → r.2.holds σ = false

theorem imposes_allDisjoint {ps : List (Array Lit)} (hps : ∀ p ∈ ps, Tabled f.space n p) :
    Imposes n (allDisjoint ps) fun σ => ps.Pairwise (LitsApart σ) := by
  induction ps with
  | nil => exact (Imposes.pure n).congr fun σ => by simp
  | cons p ps ih =>
    rw [List.forall_mem_cons] at hps
    have hfirst : Imposes n (ps.forM fun q => (p.toList.zip q.toList).forM fun r => Emit.clause [r.1.neg, r.2.neg])
        fun σ => ∀ q ∈ ps, LitsApart σ p q := by
      apply Imposes.forM
      intro q hq
      apply Imposes.forM
      intro r hr
      obtain ⟨hx, hy⟩ := List.of_mem_zip hr
      have hx' := hps.1.known _ (Array.mem_toList_iff.1 hx)
      have hy' := (hps.2 q hq).known _ (Array.mem_toList_iff.1 hy)
      exact (Imposes.imply hx' (y := r.2.neg) (by simpa using hy')).congr fun σ => by simp
    exact (hfirst.seq (ih hps.2)).congr fun σ => List.pairwise_cons.symm

/-- The clauses on all letters. -/
def constrain (settings : Settings) (v : Valuation (Array Lit)) : StateM Cnf Unit := do
  v.meanings.forM (constrainLetter settings)
  if settings.disjoint then allDisjoint v.meanings

theorem imposes_constrain (settings : Settings) (hv : ∀ p ∈ v, Tabled f.space n p.2) :
    Imposes n (constrain settings v) fun σ => (∀ p ∈ v, Constrained settings p.2 σ) ∧
      (settings.disjoint = true → v.Pairwise fun p q => LitsApart σ p.2 q.2) := by
  have hmeanings : ∀ p ∈ v.meanings, Tabled f.space n p := List.forall_mem_map.2 hv
  have hfirst : Imposes n (v.meanings.forM (constrainLetter settings)) fun σ =>
      ∀ p ∈ v.meanings, Constrained settings p σ := .forM fun p hp => imposes_constrainLetter settings (hmeanings p hp)
  refine (hfirst.seq (.ite fun _ => imposes_allDisjoint hmeanings)).congr fun σ => ?_
  rw [Valuation.meanings, List.forall_mem_map, List.pairwise_map]

/-- New literals for letters. -/
def blanks (k : Nat) (letters : List Atom) : StateM Cnf (List (Atom × Array Lit)) :=
  letters.mapM fun a => do return (a, ← Emit.freshArray k)

theorem supplies_blanks (k : Nat) (letters : List Atom) : Supplies (blanks k letters)
    ((((Display.lits k).comap Array.toList).comap Prod.snd).list letters.length) :=
  .mapM letters fun a _ => (Supplies.freshArray k).map (Prod.mk a) Prod.snd fun _ => rfl

theorem map_fst_blanks (k : Nat) (letters : List Atom) (g : Cnf) : (blanks k letters g).1.map Prod.fst = letters := by
  induction letters generalizing g with
  | nil => rfl
  | cons a letters ih =>
    have hrun : (blanks k (a :: letters) g).1 =
        (a, (Emit.freshArray k g).1) :: (blanks k letters (Emit.freshArray k g).2).1 := by
      rw [blanks, List.mapM_cons]
      rfl
    rw [hrun, List.map_cons, ih]

theorem run_valuation (f : Frame) (settings : Settings) (letters : List Atom) (g : Cnf) :
    f.valuation settings letters g = (Valuation.ofList (blanks f.space.size letters g).1,
      (constrain settings (Valuation.ofList (blanks f.space.size letters g).1) (blanks f.space.size letters g).2).2) := by
  have hrun : ∀ pairs h, (do
      let v := Valuation.ofList pairs
      v.meanings.forM (constrainLetter settings)
      if settings.disjoint then allDisjoint v.meanings
      return v : StateM Cnf (Valuation (Array Lit))) h =
        (Valuation.ofList pairs, (constrain settings (Valuation.ofList pairs) h).2) := by
    intro pairs h
    unfold constrain
    cases settings.disjoint <;> rfl
  exact hrun (blanks f.space.size letters g).1 (blanks f.space.size letters g).2

/-! The states where a letter is true. -/

section select

variable (hn : f.space.n < 32)
include hn

theorem mem_select_iff {s : State} (hs : s.bits < f.space.size) :
    s ∈ f.select σ lits ↔ (litAt lits s).holds σ = true := by
  rw [mem_select, and_iff_right (StateSpace.mem_states.2 ⟨hn, hs⟩)]
  rfl

theorem constrained_iff (hlits : Tabled f.space n lits) :
    Constrained settings lits σ ↔ Allows settings f.space (f.select σ lits) := by
  have hexists : ∀ x : Bool, (∃ l ∈ lits, l.holds σ = x) ↔ ∃ s ∈ f.space.states, (litAt lits s).holds σ = x := by
    intro x
    constructor
    · rintro ⟨l, hl, hσ⟩
      obtain ⟨s, hs, rfl⟩ := hlits.exists_state hl
      exact ⟨s, StateSpace.mem_states.2 ⟨hn, hs⟩, hσ⟩
    · rintro ⟨s, hs, hσ⟩
      exact ⟨_, hlits.mem (StateSpace.mem_states.1 hs).2, hσ⟩
  have hsome : (∃ s ∈ f.space.states, (litAt lits s).holds σ = true) ↔ ∃ s ∈ f.space.states, s ∈ f.select σ lits :=
    exists_congr fun s => and_congr_right fun hs => (mem_select_iff hn (StateSpace.mem_states.1 hs).2).symm
  have hother : (∃ s ∈ f.space.states, (litAt lits s).holds σ = false) ↔ ∃ s ∈ f.space.states, s ∉ f.select σ lits :=
    exists_congr fun s => and_congr_right fun hs => by
      rw [mem_select_iff hn (StateSpace.mem_states.1 hs).2, Bool.not_eq_true]
  have hnull : (litAt lits .null).holds σ = false ↔ .null ∉ f.select σ lits := by
    rw [mem_select_iff hn (s := .null) f.space.size_pos, Bool.not_eq_true]
  constructor
  · intro h
    refine ⟨fun s hs => (mem_select.1 hs).1, fun hc => ?_, fun he => ?_, fun hz => hnull.1 (h.nonNull hz)⟩
    · obtain ⟨htrue, hfalse⟩ := h.contingent hc
      exact ⟨hsome.1 ((hexists true).1 htrue), hother.1 ((hexists false).1 hfalse)⟩
    · exact hsome.1 ((hexists true).1 (h.nonEmpty he))
  · intro h
    refine ⟨fun hc => ?_, fun he => ?_, fun hz => hnull.2 (h.nonNull hz)⟩
    · obtain ⟨hin, hout⟩ := h.contingent hc
      exact ⟨(hexists true).2 (hsome.2 hin), (hexists false).2 (hother.2 hout)⟩
    · exact (hexists true).2 (hsome.2 (h.nonEmpty he))

theorem litsApart_iff {p q : Array Lit} (hp : Tabled f.space n p) (hq : Tabled f.space n q) :
    LitsApart σ p q ↔ Apart (f.select σ p) (f.select σ q) := by
  have hpair : ∀ s : State, s.bits < f.space.size → (litAt p s, litAt q s) ∈ p.toList.zip q.toList := by
    intro s hs
    have hp' : s.bits < p.size := hp.size ▸ hs
    have hq' : s.bits < q.size := hq.size ▸ hs
    have hget : (p.toList.zip q.toList)[s.bits]? = some (litAt p s, litAt q s) := by
      simp [litAt, Array.getD_eq_getD_getElem?, hp', hq']
    exact List.mem_of_getElem? hget
  constructor
  · intro h s hs hs'
    have hlt := (StateSpace.mem_states.1 (mem_select.1 hs).1).2
    rw [mem_select_iff hn hlt] at hs hs'
    rw [h _ (hpair s hlt) hs] at hs'
    cases hs'
  · intro h r hr hσ
    obtain ⟨i, hi, rfl⟩ := List.getElem_of_mem hr
    have hlt : i < f.space.size := by
      have hi' : i < p.toList.length ∧ i < q.toList.length := by simpa using hi
      rw [Array.length_toList, hp.size] at hi'
      exact hi'.1
    have hentry : (p.toList.zip q.toList)[i] = (litAt p ⟨i⟩, litAt q ⟨i⟩) := by
      have hp' : i < p.size := hp.size ▸ hlt
      have hq' : i < q.size := hq.size ▸ hlt
      simp [litAt, Array.getD_eq_getD_getElem?, hp', hq']
    rw [hentry] at hσ ⊢
    have hnot := h ⟨i⟩ ((mem_select_iff hn hlt).2 hσ)
    rw [mem_select_iff hn hlt, Bool.not_eq_true] at hnot
    exact hnot

/-- The demands on the literals of all letters are those on the letters of the model that is described. -/
theorem constraints_iff (hv : ∀ p ∈ v, Tabled f.space n p.2) :
    ((∀ p ∈ v, Constrained settings p.2 σ) ∧
        (settings.disjoint = true → v.Pairwise fun p q => LitsApart σ p.2 q.2)) ↔
      (∀ p ∈ (f.reading v σ).valuation, Allows settings f.space p.2) ∧
        (settings.disjoint = true → (f.reading v σ).valuation.Pairwise fun p q => Apart p.2 q.2) := by
  refine and_congr ?_ (imp_congr_right fun _ => ?_)
  · rw [reading, List.forall_mem_map]
    exact forall₂_congr fun p hp => constrained_iff hn (hv p hp)
  · rw [reading, List.pairwise_map]
    exact List.Pairwise.iff_of_mem fun hp hq => litsApart_iff hn (hv _ hp) (hv _ hq)

end select

theorem select_congr (hστ : Agree n σ τ) (hlits : Tabled f.space n lits) : f.select σ lits = f.select τ lits := by
  ext s
  rw [mem_select, mem_select]
  apply and_congr_right
  intro hs
  have hlt : (lits.getD s.bits default).var < n := hlits.var_lt (StateSpace.mem_states.1 hs).2
  rw [hστ.holds hlt]

/-- Assignments that agree on the variables of the frame and the letters describe one model. -/
theorem reading_congr (hστ : Agree n σ τ) (hf : f.Known n) (hv : ∀ p ∈ v, Tabled f.space n p.2) :
    f.reading v σ = f.reading v τ := by
  have hvaluation : (v.map fun p => (p.1, f.select σ p.2)) = v.map fun p => (p.1, f.select τ p.2) := by
    apply List.map_congr_left
    intro p hp
    rw [select_congr hστ (hv p hp)]
  have hshown : (f.inUse σ).map (f.slot σ) = (f.inUse τ).map (f.slot τ) := shown_congr hf hστ
  rw [reading, reading, hvaluation, hshown]

theorem letters_reading : (f.reading v σ).valuation.letters = v.letters := by
  simp [Valuation.letters, reading]

/-- Literals that have the values of a set select it. -/
theorem select_eq {set : StateSet} (hlits : Tabled f.space n lits) (hset : ∀ s ∈ set, s ∈ f.space.states)
    (hvalues : lits.toList.map (·.holds σ) = (List.range f.space.size).map fun i => decide (⟨i⟩ ∈ set)) :
    f.select σ lits = set := by
  have hlit : ∀ s : State, s.bits < f.space.size → (litAt lits s).holds σ = decide (s ∈ set) := by
    intro s hs
    exact holds_getD hvalues (hlits.size ▸ hs) (by simp [hs])
  ext s
  rw [mem_select]
  constructor
  · rintro ⟨hs, hσ⟩
    have hdecide := hlit s (StateSpace.mem_states.1 hs).2
    exact of_decide_eq_true (hdecide.symm.trans hσ)
  · intro hs
    have hmem := hset s hs
    exact ⟨hmem, (hlit s (StateSpace.mem_states.1 hmem).2).trans (decide_eq_true hs)⟩

/-- Every letter can be given the states of a set, also where it is asked for more than once. -/
theorem exists_values {b : Basis} (hg : b.Fits g) (hσ : b.Sat g σ) (k : Nat) (letters : List Atom)
    (sets : Atom → StateSet) : ∃ τ, Agree g.numVars σ τ ∧ b.Sat (blanks k letters g).2 τ ∧
      ∀ p ∈ (blanks k letters g).1,
        p.2.toList.map (·.holds τ) = (List.range k).map fun i => decide (⟨i⟩ ∈ sets p.1) := by
  obtain ⟨τ, hστ, hτ, hvalues⟩ := (supplies_blanks k letters b g hg).complete σ
    (letters.map fun a => (List.range k).map fun i => decide (⟨i⟩ ∈ sets a)) hσ
    ⟨List.length_map _, List.forall_mem_map.2 fun a _ => by simp [Display.comap, Display.lits]⟩
  have hnames := map_fst_blanks k letters g
  refine ⟨τ, hστ, hτ, ?_⟩
  generalize (blanks k letters g).1 = pairs at hnames hvalues ⊢
  rw [← hnames, List.map_map] at hvalues
  exact List.forall₂_same.1 (List.forall₂_map_right_iff.1 hvalues)

/-- The model that is described is the one whose histories stand in the slots and whose sets the literals select. -/
theorem reading_eq {B : Model} (hB : B.Admissible settings k letters) (hspace : B.space = f.space) (hm : f.m = k)
    (hshown : f.shown σ = B.histories) (hletters : v.letters = Atom.sorted letters)
    (hv : ∀ p ∈ v, Tabled f.space n p.2) (hvalues : ∀ p ∈ v, p.2.toList.map (·.holds σ) =
      (List.range f.space.size).map fun i => decide (⟨i⟩ ∈ (B.valuation.meaning? p.1).getD .empty)) :
    f.reading v σ = B := by
  have hnodup : B.valuation.letters.Nodup := hB.letters_eq ▸ (Atom.alphabetical_sorted letters).nodup
  have hmeaning : ∀ p ∈ v, B.valuation.meaning? p.1 = some (f.select σ p.2) := by
    intro p hp
    have hname : p.1 ∈ B.valuation.letters := by
      rw [hB.letters_eq, ← hletters]
      exact List.mem_map_of_mem hp
    obtain ⟨set, hset⟩ := Valuation.mem_letters_iff.1 hname
    have hlocated := (hB.allows _ (Valuation.mem_of_meaning? hset)).located
    rw [hspace] at hlocated
    rw [hset, select_eq (hv p hp) hlocated]
    have hrow := hvalues p hp
    rwa [hset, Option.getD_some] at hrow
  have hhistories : (f.inUse σ).map (f.slot σ) = B.histories := hshown
  have hvaluation := Valuation.map_eq (F := f.select σ) hnodup (hletters.trans hB.letters_eq.symm) hmeaning
  rw [reading, hhistories, hvaluation, ← hspace, hm, ← hB.m_eq]

end Frame

/-- A frame, and literals for letters. -/
def opening (settings : Settings) (m : Nat) (letters : List Atom) : StateM Cnf (Frame × Valuation (Array Lit)) := do
  let frame ← Frame.write ⟨settings.n⟩ m
  let valuation ← frame.valuation settings letters
  return (frame, valuation)

/-- Which models a frame with literals for letters describes. -/
structure Describing (settings : Settings) (m : Nat) (letters : List Atom) (f : Frame) (v : Valuation (Array Lit))
    (g : Cnf) : Prop where
  space_eq : f.space = ⟨settings.n⟩
  m_eq : f.m = m
  numHistories_eq : f.numHistories = Frame.bound settings.n m
  known : f.Known g.numVars
  tabled : ∀ p ∈ v, Tabled f.space g.numVars p.2
  letters_eq : v.letters = Atom.sorted letters
  fits : Basis.start.Fits g
  settled : ∀ σ, g.satisfiedBy σ → f.Settled σ
  arranged : ∀ σ, g.satisfiedBy σ → f.Arranged σ
  sound : ∀ σ, g.satisfiedBy σ → (f.reading v σ).Admissible settings m letters
  complete : ∀ B : Model, B.Admissible settings m letters → B.InOrder → ∃ σ, g.satisfiedBy σ ∧ f.reading v σ = B

namespace Frame

variable {f : Frame} {n : Nat} {σ : Nat → Bool}

/-- There are no more states than can be listed where a slot has a state. -/
theorem Settled.n_lt (hσ : f.Settled σ) (hf : f.Known n) (hpos : 0 < f.numHistories) (hm : 1 ≤ f.m) : f.space.n < 32 := by
  have htimes : 0 < f.numTimes := by
    rw [numTimes]
    omega
  exact (StateSpace.mem_states.1 (hσ.stateOf_mem hf hpos htimes)).1

end Frame

/-- A frame with literals for letters describes all admissible models with their histories in order. -/
theorem opening_describing (settings : Settings) {m : Nat} (hm : 1 ≤ m) (letters : List Atom) :
    Describing settings m letters (opening settings m letters {}).1.1 (opening settings m letters {}).1.2
      (opening settings m letters {}).2 := by
  have hopened := Frame.write_opened Basis.fits_start ⟨settings.n⟩ hm
  have hrun : opening settings m letters {} =
      (((Frame.write ⟨settings.n⟩ m {}).1, ((Frame.write ⟨settings.n⟩ m {}).1.valuation settings letters
        (Frame.write ⟨settings.n⟩ m {}).2).1), ((Frame.write ⟨settings.n⟩ m {}).1.valuation settings letters
        (Frame.write ⟨settings.n⟩ m {}).2).2) := rfl
  rw [hrun]
  generalize Frame.write ⟨settings.n⟩ m ({} : Cnf) = r at hopened
  obtain ⟨f, g⟩ := r
  rw [Frame.run_valuation]
  have hblanks := Frame.supplies_blanks f.space.size letters Basis.start g hopened.fits
  have hnames := Frame.map_fst_blanks f.space.size letters g
  have hgiven {σ : Nat → Bool} (hσ : Basis.start.Sat g σ) := Frame.exists_values hopened.fits hσ f.space.size letters
  dsimp only at hopened ⊢
  generalize Frame.blanks f.space.size letters g = r at hblanks hnames hgiven
  obtain ⟨pairs, g'⟩ := r
  dsimp only at hblanks hnames hgiven ⊢
  have hknown := hopened.known.mono hblanks.le.1
  have hmem : ∀ p ∈ Valuation.ofList pairs, p ∈ pairs := fun p hp => Valuation.mem_ofList hp
  have htabled : ∀ p ∈ Valuation.ofList pairs, Tabled f.space g'.numVars p.2 := by
    intro p hp
    obtain ⟨hsize, hlt⟩ := hblanks.known.2 p (hmem p hp)
    exact ⟨hsize, fun l hl => hlt l (Array.mem_toList_iff.2 hl)⟩
  have hletters : (Valuation.ofList pairs).letters = Atom.sorted letters := by
    rw [Valuation.letters_ofList, hnames]
  have himpose := (Frame.imposes_constrain settings htabled).restricts Basis.start g' hblanks.fits (Nat.le_refl _)
  generalize (Frame.constrain settings (Valuation.ofList pairs) g').2 = h at himpose
  generalize Valuation.ofList pairs = v at hmem htabled hletters himpose
  have hpos : 0 < f.numHistories := hopened.numHistories_eq ▸ Frame.bound_pos _ _
  have hfm : 1 ≤ f.m := hopened.m_eq.symm ▸ hm
  have hsettled : ∀ {σ : Nat → Bool} {h : Cnf}, g ≤ h → Basis.start.Sat h σ → f.Settled σ :=
    fun hgh hσ => hopened.settled _ (hσ.mono hgh)
  have hle := Cnf.le_trans hblanks.le himpose.le
  refine ⟨hopened.space_eq, hopened.m_eq, hopened.numHistories_eq, hknown.mono himpose.le.1,
    fun p hp => (htabled p hp).mono himpose.le.1, hletters, himpose.fits, fun σ hσ => ?_, fun σ hσ => ?_, fun σ hσ => ?_,
    fun B hB horder => ?_⟩
  · exact hsettled hle (Basis.sat_start.2 hσ)
  · exact hopened.arranged σ ((Basis.sat_start.2 hσ).mono hle)
  · have hσ := Basis.sat_start.2 hσ
    have hset := hsettled hle hσ
    have harranged := hopened.arranged σ (hσ.mono hle)
    have hbundle := harranged.bundle hknown hset
    rw [Frame.numTimes, hopened.m_eq, hopened.numHistories_eq] at hbundle
    obtain ⟨hallows, hdisjoint⟩ :=
      (Frame.constraints_iff (hset.n_lt hknown hpos hfm) htabled).1 (himpose.sound σ hσ)
    exact ⟨hopened.space_eq, hopened.m_eq, hbundle, List.length_pos_iff.1 harranged.shown_pos,
      Frame.letters_reading.trans hletters, hallows, hdisjoint⟩
  · have hspace : B.space = f.space := hB.space_eq.trans hopened.space_eq.symm
    obtain ⟨σ₁, -, hσ₁, hshown⟩ := hopened.complete (fun _ => false) (Basis.sat_start.2 (by simp [Cnf.satisfiedBy]))
      B.histories (hB.listing horder)
    obtain ⟨σ₂, h₁₂, hσ₂, hvalues⟩ := hgiven hσ₁ fun a => (B.valuation.meaning? a).getD .empty
    have hread : f.reading v σ₂ = B := Frame.reading_eq hB hspace hopened.m_eq
      ((Frame.shown_congr hopened.known h₁₂).symm.trans hshown) hletters htabled fun p hp => hvalues p (hmem p hp)
    have hdemands : (∀ p ∈ (f.reading v σ₂).valuation, Allows settings f.space p.2) ∧
        (settings.disjoint = true → (f.reading v σ₂).valuation.Pairwise fun p q => Apart p.2 q.2) := by
      rw [hread, ← hspace]
      exact ⟨hB.allows, hB.disjoint⟩
    have hn := (hsettled hblanks.le hσ₂).n_lt hknown hpos hfm
    obtain ⟨σ₃, h₂₃, hσ₃⟩ := himpose.complete σ₂ hσ₂ ((Frame.constraints_iff hn htabled).2 hdemands)
    exact ⟨σ₃, Basis.sat_start.1 hσ₃, (Frame.reading_congr h₂₃ hknown htabled).symm.trans hread⟩

end Countermodels.History
