import Countermodels.Proofs.Check.Footing
import Countermodels.Proofs.History.Build

/-! Checks in the theory of histories. Two assignments describe models of one shape just if they agree on the literals
of the slots and of the letters, and the encoder is a footing for checks. -/

namespace Countermodels.History

open Truthmaker (Tabled litAt)

namespace Frame

variable {f : Frame} {n : Nat} {σ τ : Nat → Bool} {v : Valuation (Array Lit)} {h : Nat}

/-- Two sets of states are the same just if all literals agree. -/
theorem select_eq_iff (hn : f.space.n < 32) {lits : Array Lit} (hlits : Tabled f.space n lits) :
    f.select σ lits = f.select τ lits ↔ ∀ l ∈ lits, l.holds σ = l.holds τ := by
  constructor
  · intro heq l hl
    obtain ⟨s, hs, rfl⟩ := hlits.exists_state hl
    rw [Bool.eq_iff_iff, ← mem_select_iff hn hs, heq, mem_select_iff hn hs]
  · intro hall
    ext s
    rw [mem_select, mem_select]
    apply and_congr_right
    intro hs
    have hmem : lits.getD s.bits default ∈ lits := hlits.mem (StateSpace.mem_states.1 hs).2
    rw [hall _ hmem]

section shape

variable (hf : f.Known n) (hσ : f.Settled σ) (hτ : f.Settled τ) (haσ : f.Canonical σ) (haτ : f.Canonical τ)
include hf hσ hτ

/-- Two slots hold one history just if all their literals agree. -/
theorem slot_eq_iff (hh : h < f.numHistories) :
    f.slot σ h = f.slot τ h ↔ ∀ l ∈ f.lits h, l.holds σ = l.holds τ := by
  rw [← List.map_inj_left, hσ.map_lits hf hh, hτ.map_lits hf hh]
  constructor
  · exact congrArg _
  · exact eq_of_code (by rw [length_slot, length_slot]) (hσ.slot_states hf hh)

/-- The literals of all slots agree just if the same slots are in use and all of them hold the same histories. -/
theorem essential_agree_iff : (∀ l ∈ f.essential, l.holds σ = l.holds τ) ↔
    (∀ h < f.numHistories, (f.isActive h).holds σ = (f.isActive h).holds τ) ∧
      ∀ h < f.numHistories, f.slot σ h = f.slot τ h := by
  have hactive : (∀ h < f.numHistories, (f.isActive h).holds σ = (f.isActive h).holds τ) ↔
      ∀ l ∈ f.active.toList, l.holds σ = l.holds τ := by
    constructor
    · intro hall l hl
      obtain ⟨h, hh, rfl⟩ := Array.getElem_of_mem (Array.mem_toList_iff.1 hl)
      simpa [isActive, Array.getD_eq_getD_getElem?, hh] using hall h hh
    · intro hall h hh
      have hlt : h < f.active.size := hh
      apply hall
      rw [isActive, Array.getD_eq_getD_getElem?, Array.getElem?_eq_getElem hlt]
      exact Array.mem_toList_iff.2 (Array.getElem_mem hlt)
  have hlits : (∀ l ∈ f.histories.flatMap f.lits, l.holds σ = l.holds τ) ↔
      ∀ h < f.numHistories, f.slot σ h = f.slot τ h := by
    rw [List.forall_mem_flatMap]
    constructor
    · intro hall h hh
      exact (slot_eq_iff hf hσ hτ hh).2 (hall h (mem_histories.2 hh))
    · intro hall h hh
      exact (slot_eq_iff hf hσ hτ (mem_histories.1 hh)).1 (hall h (mem_histories.1 hh))
  rw [essential, List.forall_mem_append, hlits, ← hactive]

include haσ haτ

omit hf hσ hτ in
theorem used_iff_of_shown_eq (heq : f.shown σ = f.shown τ) : f.Used σ h ↔ f.Used τ h := by
  rw [haσ.used_iff, haτ.used_iff, heq]

/-- The slots of a frame show the same histories just if all their literals agree. -/
theorem shown_eq_iff : f.shown σ = f.shown τ ↔ ∀ l ∈ f.essential, l.holds σ = l.holds τ := by
  rw [essential_agree_iff hf hσ hτ]
  constructor
  · intro heq
    have hused : ∀ h, f.Used σ h ↔ f.Used τ h := fun h => used_iff_of_shown_eq haσ haτ heq
    refine ⟨fun h hh => ?_, fun h hh => ?_⟩
    · have hiff := hused h
      rw [Used, Used, and_iff_right hh, and_iff_right hh] at hiff
      exact Bool.eq_iff_iff.2 hiff
    · by_cases hin : f.Used σ h
      · have hget := haσ.getElem?_shown hin
        rw [heq, haτ.getElem?_shown ((hused h).1 hin), Option.some.injEq] at hget
        exact hget.symm
      · -- slots that are not in use stay at the null state
        apply List.map_congr_left
        intro t ht
        have ht := List.mem_range.1 ht
        rw [haσ.idle h hh t ht hin, haτ.idle h hh t ht (mt (hused h).2 hin)]
  · rintro ⟨hactive, hslots⟩
    have hinUse : f.inUse σ = f.inUse τ := by
      apply List.filter_congr
      intro h hh
      exact hactive h (mem_histories.1 hh)
    rw [shown, shown, hinUse]
    apply List.map_congr_left
    intro h hh
    exact hslots h (mem_inUse.1 hh).1

end shape

end Frame

/-- Histories that are listed in order have one shape just if they are the same. -/
theorem shape_eq_iff {B C : Model} (hspace : B.space = C.space) (hB : B.histories ≠ []) (hC : C.histories ≠ [])
    (hBorder : B.InOrder) (hCorder : C.InOrder) :
    B.shape = C.shape ↔ B.histories = C.histories ∧ B.valuation = C.valuation := by
  rw [Model.shape, Model.shape, Prod.mk.injEq, Prod.mk.injEq, Model.others, Model.others, foldr_insert_eq_iff, ← and_assoc]
  apply and_congr_left
  intro _
  rw [Model.InOrder] at hBorder hCorder
  rw [← hspace] at hCorder
  cases hhB : B.histories with
  | nil => exact absurd hhB hB
  | cons x xs =>
    cases hhC : C.histories with
    | nil => exact absurd hhC hC
    | cons y ys =>
      rw [hhB] at hBorder
      rw [hhC] at hCorder
      simp only [List.headD_cons, List.drop_one, List.tail_cons] at hBorder hCorder ⊢
      rw [List.cons.injEq]
      apply and_congr_right
      intro _
      constructor
      · exact hBorder.eq hCorder
      · rintro rfl z
        rfl

namespace Foundation

variable {g : Foundation} {σ τ : Nat → Bool}

theorem inOrder_model (hσ : g.basis.holds σ) : (g.model σ).InOrder := (g.arranged σ hσ).increasing_others

theorem n_lt (hσ : g.basis.holds σ) : g.frame.space.n < 32 := (g.settled σ hσ).n_lt g.known g.slots_pos g.m_pos

/-- Two assignments describe models of one shape just if they agree on the literals of slots and letters. -/
theorem shape_model_eq_iff (hσ : g.basis.holds σ) (hτ : g.basis.holds τ) :
    (g.model σ).shape = (g.model τ).shape ↔
      ∀ l ∈ g.frame.essential ++ g.valuation.meanings.flatMap Array.toList, l.holds σ = l.holds τ := by
  have hshown := Frame.shown_eq_iff g.known (g.settled σ hσ) (g.settled τ hτ)
    (g.arranged σ hσ).toCanonical (g.arranged τ hτ).toCanonical
  have hvaluation : (g.model σ).valuation = (g.model τ).valuation ↔
      ∀ l ∈ g.valuation.meanings.flatMap Array.toList, l.holds σ = l.holds τ := by
    have hsets : (g.model σ).valuation = (g.model τ).valuation ↔
        ∀ p ∈ g.valuation, g.frame.select σ p.2 = g.frame.select τ p.2 := by
      show (g.valuation.map fun p => (p.1, g.frame.select σ p.2)) = (g.valuation.map fun p => (p.1, g.frame.select τ p.2)) ↔ _
      rw [List.map_inj_left]
      exact forall₂_congr fun p _ => by simp
    rw [hsets, Valuation.meanings, List.flatMap_map, List.forall_mem_flatMap]
    apply forall₂_congr
    intro p hp
    rw [Frame.select_eq_iff (n_lt hσ) (g.tabled p hp)]
    simp
  rw [List.forall_mem_append, ← hvaluation, ← hshown]
  exact shape_eq_iff rfl (List.length_pos_iff.1 (g.arranged σ hσ).shown_pos) (List.length_pos_iff.1 (g.arranged τ hτ).shown_pos)
    (inOrder_model hσ) (inOrder_model hτ)

theorem essential_lt (g : Foundation) :
    ∀ l ∈ g.frame.essential ++ g.valuation.meanings.flatMap Array.toList, l.var < g.basis.numVars := by
  rw [Frame.essential, List.forall_mem_append, List.forall_mem_append, List.forall_mem_flatMap, List.forall_mem_flatMap]
  refine ⟨⟨fun l hl => ?_, fun h hh => ?_⟩, fun lits hlits l hl => ?_⟩
  · exact g.known.active_lt l (Array.mem_toList_iff.1 hl)
  · exact g.known.lits_lt (Frame.mem_histories.1 hh)
  · obtain ⟨p, hp, rfl⟩ := List.mem_map.1 hlits
    exact (g.tabled p hp).known l (Array.mem_toList_iff.1 hl)

/-- The evaluator gives an answer at the point of evaluation, which says what holds there. -/
theorem exists_isTrue {letters : List Atom} {a : Formula} (ha : Sentence letters a) (hσ : g.basis.holds σ) :
    ∃ b, (Countermodel.history (g.model σ)).isTrue a = .ok b ∧ (b = true ↔ g.Truth a 0 g.frame.now σ) := by
  classical
  exact ⟨decide (g.Truth a 0 g.frame.now σ), countermodel_isTrue_eq ha hσ decide_eq_true_iff, decide_eq_true_iff⟩

theorem isTrue_iff {letters : List Atom} {a : Formula} (ha : Sentence letters a) (hσ : g.basis.holds σ) :
    (Countermodel.history (g.model σ)).isTrue a = .ok true ↔ g.Truth a 0 g.frame.now σ := by
  obtain ⟨b, hb, hiff⟩ := exists_isTrue ha hσ
  rw [hb, Except.ok.injEq, hiff]

end Foundation

open Foundation in
/-- The clauses of histories for some settings and letters. -/
def footing {settings : Settings} {m : Nat} (hm : Timed settings m) (letters : List Atom) :
    Footing .bimodal settings letters where
  basis := (foundation letters hm .never).basis
  start := (Gates.new (openingCnf settings m letters)).2
  model σ := .history ((foundation letters hm .never).model σ)
  Valid d e := ∃ t, e = .history t ∧ (foundation letters hm d).Valid t
  fits := by
    rintro d e ⟨t, rfl, ht⟩
    exact ht.fits
  same_deadline := by
    rintro d e ⟨t, rfl, ht⟩
    exact ht.deadline
  redraft := by
    rintro d e draft ⟨t, rfl, ht⟩ hle hfits hsame
    exact ⟨_, rfl, { ht.extend hle hfits (ht.gates.mono hle) with deadline := hsame }⟩
  builds d := by
    rcases build_valid letters hm d with ⟨t, hbuild, hvalid, hcnf⟩ | ⟨f, hbuild, hlate⟩
    · exact .inl ⟨.history t, by rw [Encoding.build, hbuild]; rfl, ⟨t, rfl, hvalid⟩, hcnf⟩
    · exact .inr ⟨f, by rw [Encoding.build, hbuild]; rfl, hlate⟩
  start_fits := Gates.fits_after_new (opening_describes letters hm).fits
  holds_of_start hσ := sat_of_satisfiedBy hm (Cnf.le_refl _) hσ
  numVars_le := (Gates.numVars_new _).ge
  model_congr hστ := congrArg _ (Frame.reading_congr hστ (foundation letters hm .never).known (foundation letters hm .never).tabled)
  returns hσ ha := by
    obtain ⟨b, hb, -⟩ := exists_isTrue (g := foundation letters hm .never) (Sentence.of_over ha) hσ
    exact ⟨b, hb⟩
  writes := by
    rintro d e a ⟨t, rfl, ht⟩ ha
    have ha := Sentence.of_over ha
    rcases (does_truthAtEval (hasMeanings hm) ha ht).outcome with ⟨l, t', hrun, hgrow, hden⟩ | ⟨f, t', hrun, hlate⟩
    · refine .of_run (t := .history t') (by rw [Encoding.truthAtEval, hrun]; rfl) ⟨⟨t', rfl, hgrow.valid⟩, hgrow.extend⟩ ?_
      exact hden.congr fun σ hσ => (isTrue_iff (g := foundation letters hm .never) ha hσ.1).symm
    · exact .of_error (t := .history t') (by rw [Encoding.truthAtEval, hrun]; rfl) hlate
  essential := (openingFrame settings m letters).essential ++
    (openingValuation settings m letters).meanings.flatMap Array.toList
  essential_eq := by
    rintro d e ⟨t, rfl, ht⟩
    rw [Countermodels.Encoding.essential, Encoder.essential, ht.frame, ht.valuation]
    rfl
  essential_lt := (foundation letters hm .never).essential_lt
  extracts := by
    rintro d e σ holds ⟨t, rfl, ht⟩ hσ hholds
    rw [Countermodels.Encoding.extractBy, extract_eq ht hσ hholds]
    rfl
  sameShape_iff {σ τ} hσ hτ := by
    rw [Countermodel.sameShape, decide_eq_true_eq]
    exact shape_model_eq_iff (g := foundation letters hm .never) (Gates.satisfiedBy_new.1 hσ) (Gates.satisfiedBy_new.1 hτ)

end Countermodels.History
