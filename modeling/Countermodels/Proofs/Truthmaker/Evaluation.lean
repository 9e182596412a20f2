import Countermodels.Proofs.Truthmaker.Admissible
import Countermodels.Proofs.Truthmaker.Encoding

/-! The truth of a formula at the world of evaluation. Its literal is written before the literals of the
formula at the single worlds, and tied to each of them; it can be given its value in advance. -/

namespace Countermodels.Truthmaker.Foundation

open Encoder

variable {g : Foundation} {e : Encoder} {a : Formula} {f h : Cnf} {σ τ : Nat → Bool}

theorem model_congr (hστ : Agree g.basis.numVars σ τ) : g.model σ = g.model τ :=
  Frame.reading_congr hστ g.known g.tabled

/-- The foundation at a later moment, for assignments in which a literal says something of the model. -/
def pin (g : Foundation) (hf : g.basis.Fits f) {x : Lit} (hx : x.var < f.numVars) (P : Model → Prop) :
    Foundation where
  basis :=
    { numVars := f.numVars
      size := f.clauses.size
      holds := fun σ => g.basis.Sat f σ ∧ (x.holds σ = true ↔ P (g.model σ))
      local_holds := fun hστ hσ => by
        rw [← hστ.holds hx, ← model_congr (hστ.mono hf.numVars_le)]
        exact ⟨hσ.1.congr hf hστ, hσ.2⟩ }
  deadline := g.deadline
  frame := g.frame
  valuation := g.valuation
  known := g.known.mono hf.numVars_le
  tabled p hp := (g.tabled p hp).mono hf.numVars_le
  realized σ hσ := g.realized σ hσ.1.1

section pin

variable (hf : g.basis.Fits f) {x : Lit} (hx : x.var < f.numVars) {P : Model → Prop} (hfh : f ≤ h)
include hfh

theorem sat_pin : (g.pin hf hx P).basis.Sat h σ ↔
    g.basis.Sat h σ ∧ (x.holds σ = true ↔ P (g.model σ)) := by
  rw [Basis.sat_iff_of_le hf hfh, and_right_comm]
  rfl

theorem denotes_pin {l : Lit} {Q : (Nat → Bool) → Prop} (hl : g.basis.Denotes h l Q) :
    (g.pin hf hx P).basis.Denotes h l Q :=
  ⟨hl.1, fun σ hσ => hl.2 σ ((sat_pin hf hx hfh).1 hσ).1⟩

theorem fits_pin (hh : g.basis.Fits h) : (g.pin hf hx P).basis.Fits h where
  numVars_le := hfh.1
  size_le := Cnf.size_le hfh
  known c hc := hh.known c (List.drop_subset_drop_left _ hf.size_le hc)

end pin

theorem Valid.pin (he : g.Valid e) (hf : g.basis.Fits f) {x : Lit} (hx : x.var < f.numVars) {P : Model → Prop}
    (hfe : f ≤ e.draft.cnf) : (g.pin hf hx P).Valid e where
  frame := he.frame
  valuation := he.valuation
  fits := fits_pin hf hx hfe he.fits
  deadline := he.deadline
  gates :=
    { top := denotes_pin hf hx hfe he.gates.top
      ands := fun xs y hy => denotes_pin hf hx hfe (he.gates.ands xs y hy)
      iffs := fun y z k hk => denotes_pin hf hx hfe (he.gates.iffs y z k hk) }
  parts z w y l hl := denotes_pin hf hx hfe (he.parts z w y l hl)
  alternatives w y u l hl := denotes_pin hf hx hfe (he.alternatives w y u l hl)
  truths c w l hl := denotes_pin hf hx hfe (he.truths c w l hl)
  contents c w k hk :=
    have hc := he.contents c w k hk
    ⟨fun s hs => denotes_pin hf hx hfe (hc.ver s hs), fun s hs => denotes_pin hf hx hfe (hc.fal s hs),
      hc.ver_fills, hc.fal_fills⟩

theorem evalWorld_eq (hσ : g.basis.holds σ) : (g.model σ).evalWorld ∈ g.frame.space.states ∧
    ∀ w ∈ g.frame.space.states, (g.frame.isEval w).holds σ = true ↔ w = (g.model σ).evalWorld :=
  have hspec := (g.realized σ hσ).chosen_spec g.known
  ⟨hspec.1, hspec.2.2⟩

/-- The truth at the world of evaluation. -/
def atEval (a : Formula) (m : Model) : Prop := (m.meaning a).Holds m.evalWorld

/-- A later state of the encoder, in which nothing more is said of the variables there were, provided that `x`
has its value. -/
structure Ties (g : Foundation) (hf : g.basis.Fits f) {x : Lit} (hx : x.var < f.numVars) (P : Model → Prop)
    (e e' : Encoder) : Prop where
  valid : g.Valid e'
  above : f ≤ e'.draft.cnf
  le : e.draft.cnf ≤ e'.draft.cnf
  extend : (g.pin hf hx P).basis.Extends e.draft.cnf e'.draft.cnf

section ties

variable (hf : g.basis.Fits f) {x : Lit} (hx : x.var < f.numVars) {P : Model → Prop}

instance : IsTrans Encoder (g.Ties hf hx P) :=
  ⟨fun _ _ _ h h' => ⟨h'.valid, h'.above, Cnf.le_trans h.le h'.le, h.extend.extend h'.extend⟩⟩

theorem Valid.ties (he : g.Valid e) (hfe : f ≤ e.draft.cnf) : g.Ties hf hx P e e :=
  ⟨he, hfe, Cnf.le_refl _, .refl (fits_pin hf hx hfe he.fits)⟩

/-- The literal `x` tied to the truth at one world. -/
theorem does_tie {letters : List Atom} (hletters : ∀ p ∈ letters, ∃ c, g.valuation.meaning? p = some c)
    (ha : Sentence letters a) {w : State} (hw : w ∈ g.frame.space.states) (he : g.Valid e) (hfe : f ≤ e.draft.cnf) :
    Writes g.deadline.Late (g.Ties hf hx (atEval a)) (do
      emit (Emit.implyIff (g.frame.isEval w) x (← (encode a).truth w)) : EncodeM Unit) e fun e' _ =>
        ∀ σ, g.basis.Sat e'.draft.cnf σ → (g.frame.isEval w).holds σ = true →
          (x.holds σ = true ↔ (g.meaning a σ).Holds w) := by
  have hhas := has_of_mem hw
  -- the same run, judged with and without the value of `x` in advance
  have htruth := (encodes_sentence hletters ha).truth w hhas e he
  have htruth' := (encodes_sentence (g := g.pin hf hx (atEval a)) hletters ha).truth w hhas e (he.pin hf hx hfe)
  have hboth := (htruth.both htruth').weaken (T := g.Ties hf hx (atEval a)) fun l e₁ h _ =>
    ⟨h.1.valid, Cnf.le_trans hfe h.1.le, h.1.le, h.2.extend⟩
  refine hboth.bind fun l e₁ h hl => ?_
  have hx₁ := Nat.lt_of_lt_of_le hx h.above.1
  have heval := Nat.lt_of_lt_of_le (g.known.isEval_lt hw) h.valid.fits.numVars_le
  have himpose := Imposes.implyIff heval hx₁ hl.1.1
  have hadd := himpose.restricts g.basis _ h.valid.fits (Nat.le_refl _)
  have hadd' := himpose.restricts (g.pin hf hx (atEval a)).basis _ h.extend.fits (Nat.le_refl _)
  -- where `x` has its value in advance, the new clauses say nothing
  have hext := hadd'.extends_of fun σ hσ hwσ => by
    obtain ⟨hσ, hxσ⟩ := (sat_pin hf hx h.above).1 hσ
    rw [hxσ, atEval, ← ((evalWorld_eq hσ.1).2 w hw).1 hwσ, hl.1.2 σ hσ]
    rfl
  refine .of_run rfl ⟨h.valid.extend hadd.le hadd.fits (h.valid.gates.mono hadd.le), Cnf.le_trans h.above hadd.le,
    hadd.le, hext⟩ fun σ hσ hwσ => ?_
  rw [hadd.sound σ hσ hwσ]
  exact hl.1.2 σ (hσ.mono hadd.le)

end ties

/-- The literal of a formula at the world of evaluation denotes its truth there. -/
theorem does_truthAtEval {letters : List Atom} (hletters : ∀ p ∈ letters, ∃ c, g.valuation.meaning? p = some c)
    (ha : Sentence letters a) (he : g.Valid e) : g.Does (truthAtEval a) e fun f l =>
      g.basis.Denotes f l fun σ => atEval a (g.model σ) := by
  unfold truthAtEval
  split
  · next hrigid =>
    refine ((encodes_sentence hletters ha).truth .null g.has_null e he).imp fun l e' _ hl => ?_
    refine hl.congr fun σ _ => ?_
    rw [atEval, Meaning.Holds, Meaning.Holds, meaning, Model.truth_rigid hrigid]
  refine (does_frame he).bind fun F e₁ h₁ hF => ?_
  subst hF
  have hfits := h₁.valid.fits.fresh
  have hx : (Lit.positive e₁.draft.cnf.numVars).var < e₁.draft.cnf.fresh.2.numVars := by
    simp [Cnf.fresh]
  have hle := Basis.le_fresh e₁.draft.cnf
  have hvalid := h₁.valid.extend hle hfits (h₁.valid.gates.mono hle)
  have hloop := Writes.forM (R := g.Ties hfits hx (atEval a))
    (K := fun w e => ∀ σ, g.basis.Sat e.draft.cnf σ → (g.frame.isEval w).holds σ = true →
      ((Lit.positive e₁.draft.cnf.numVars).holds σ = true ↔ (g.meaning a σ).Holds w))
    (fun s s' h => h.valid.ties hfits hx h.above) (hvalid.ties hfits hx (Cnf.le_refl _))
    (fun w s s' h hK σ hσ => hK σ (hσ.mono h.le))
    fun w hw s h => does_tie hfits hx hletters ha hw h.valid h.above
  have hfresh : emit Emit.fresh e₁ = .ok (.positive e₁.draft.cnf.numVars)
      { e₁ with draft := { e₁.draft with cnf := e₁.draft.cnf.fresh.2 } } := rfl
  rcases hloop.outcome with ⟨u, e', hrun, hties, htied⟩ | ⟨late, e', hrun, hlate⟩
  · refine .of_run (a := .positive e₁.draft.cnf.numVars) (t := e') ?_
      ⟨hties.valid, Cnf.le_trans hle hties.le, hties.valid.fits, fun _ _ => trivial, fun σ hσ _ => ?_⟩
      ⟨Nat.lt_of_lt_of_le hx hties.le.1, fun σ hσ => ?_⟩
    · simp only [bind, EStateM.bind] at hrun ⊢
      simp only [hfresh, hrun]
      rfl
    · classical
      have hagree := Agree.update e₁.draft.cnf.numVars σ (decide (atEval a (g.model σ)))
      have hτ := hσ.congr h₁.valid.fits hagree
      have hvalue : (Lit.positive e₁.draft.cnf.numVars).holds
          (Function.update σ e₁.draft.cnf.numVars (decide (atEval a (g.model σ)))) = true ↔
          atEval a (g.model (Function.update σ e₁.draft.cnf.numVars (decide (atEval a (g.model σ))))) := by
        rw [Lit.holds_positive, Function.update_self, decide_eq_true_eq,
          ← model_congr (hagree.mono h₁.valid.fits.numVars_le)]
      obtain ⟨υ, hτυ, hυ⟩ := hties.extend.complete _ ((sat_pin hfits hx (Cnf.le_refl _)).2 ⟨hτ, hvalue⟩) trivial
      exact ⟨υ, hagree.trans (hτυ.mono hle.1), ((sat_pin hfits hx hties.le).1 hυ).1⟩
    · obtain ⟨hmem, heval⟩ := evalWorld_eq hσ.1
      exact htied _ hmem σ hσ ((heval _ hmem).2 rfl)
  · refine .of_error (e := late) (t := e') ?_ hlate
    simp only [bind, EStateM.bind] at hrun ⊢
    simp only [hfresh, hrun]

end Countermodels.Truthmaker.Foundation
