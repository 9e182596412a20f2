import Countermodels.Proofs.Cnf.Supplies
import Countermodels.Proofs.Truthmaker.Frame

/-! The clauses of a frame from their first variable on: the assignments that make them true describe
models, and every model with a world of evaluation is described by one of them. -/

namespace Countermodels.Truthmaker

section tables

variable {space : StateSpace} {g : Cnf} {s : State}

theorem litAt_freshArray (hs : s.bits < space.size) :
    litAt (Emit.freshArray space.size g).1 s = .positive (g.numVars + s.bits) := by
  simp [litAt, Emit.run_freshArray, Array.getD_eq_getD_getElem?, hs]

theorem tabled_freshArray (space : StateSpace) (g : Cnf) :
    Tabled space (g.numVars + space.size) (Emit.freshArray space.size g).1 := by
  refine ⟨size_freshArray _ _, fun l hl => ?_⟩
  simp only [Emit.run_freshArray, List.mem_toArray, List.mem_map, List.mem_range] at hl
  obtain ⟨i, hi, rfl⟩ := hl
  simpa using hi

variable {b : Basis} {σ : Nat → Bool}

/-- A new table can be given any values. -/
theorem exists_table (hg : b.Fits g) (hσ : b.Sat g σ) (space : StateSpace) (value : State → Bool) :
    ∃ τ, Agree g.numVars σ τ ∧ b.Sat (g.widen space.size) τ ∧
      ∀ s, s.bits < space.size → (litAt (Emit.freshArray space.size g).1 s).holds τ = value s := by
  refine ⟨_, Agree.fill_agree g.numVars σ fun i => value ⟨i⟩, hσ.fill hg _ _, fun s hs => ?_⟩
  rw [litAt_freshArray hs, Lit.holds_positive, Agree.fill_add]

end tables

namespace Frame

variable {b : Basis} {g : Cnf} {space : StateSpace}

/-- The literals of the frame say which states of the model are possible, and which is its world of
evaluation. -/
structure Describes (f : Frame) (σ : Nat → Bool) (m : Model) : Prop where
  possible : ∀ s ∈ f.space.states, (f.isPossible s).holds σ = true ↔ s ∈ m.possible
  eval : ∀ s ∈ f.space.states, (f.isEval s).holds σ = true ↔ s = m.evalWorld

/-- The models that frames describe. -/
structure Framed (m : Model) : Prop extends m.Hereditary where
  null : .null ∈ m.possible
  eval : m.isWorld m.evalWorld = true

theorem Framed.eval_mem {m : Model} (hm : Framed m) : m.evalWorld ∈ m.space.states :=
  hm.mem_states _ (Model.isWorld_iff.1 hm.eval).1

/-- What is true of a frame right after it was written. -/
structure Opened (b : Basis) (g : Cnf) (space : StateSpace) (r : Frame × Cnf) : Prop where
  space_eq : r.1.space = space
  known : r.1.Known r.2.numVars
  le : g ≤ r.2
  fits : b.Fits r.2
  sound : ∀ τ, b.Sat r.2 τ → r.1.Realized τ
  complete : ∀ σ, b.Sat g σ → ∀ m : Model, m.space = space → Framed m →
    ∃ τ, Agree g.numVars σ τ ∧ b.Sat r.2 τ ∧ r.1.Describes τ m

/-- The variables of a frame stand in three rows, before any clause. -/
def layout (space : StateSpace) (g : Cnf) : Frame where
  space
  possible := (Emit.freshArray space.size g).1
  world := (Emit.freshArray space.size (g.widen space.size)).1
  eval := ⟨space.states, (Emit.freshList space.states.length ((g.widen space.size).widen space.size)).1⟩

/-- The formula that has the variables of a frame, and no clauses about them. -/
def blank (space : StateSpace) (g : Cnf) : Cnf :=
  ((g.widen space.size).widen space.size).widen space.states.length

theorem run_new (space : StateSpace) (g : Cnf) : Frame.new space g =
    (layout space g, ((layout space g).declare (Emit.exactlyOne (layout space g).eval.lits
      (blank space g)).2).2) := by
  have hrun : Frame.new space g =
      let possible := Emit.freshArray space.size g
      let world := Emit.freshArray space.size possible.2
      let lits := Emit.freshList space.states.length world.2
      let f : Frame := ⟨space, possible.1, world.1, ⟨space.states, lits.1⟩⟩
      (f, (f.declare (Emit.exactlyOne lits.1 lits.2).2).2) := rfl
  rw [hrun]
  simp only [freshArray_snd, freshList_snd]
  rfl

theorem le_blank (space : StateSpace) (g : Cnf) : g ≤ blank space g :=
  Cnf.le_trans (Cnf.le_widen _ _) (Cnf.le_trans (Cnf.le_widen _ _) (Cnf.le_widen _ _))

theorem fits_blank (hg : b.Fits g) : b.Fits (blank space g) := ((hg.widen _).widen _).widen _

theorem known_layout (space : StateSpace) (g : Cnf) :
    (layout space g).Known (blank space g).numVars where
  possible := (tabled_freshArray space g).mono (by simp only [blank, Cnf.widen]; omega)
  world := (tabled_freshArray space _).mono (by simp only [blank, Cnf.widen]; omega)
  domain := rfl
  length := by simp [layout, Emit.run_freshList]
  eval l hl := by
    simp only [layout, Emit.run_freshList, List.mem_map, List.mem_range] at hl
    obtain ⟨i, hi, rfl⟩ := hl
    simpa [blank, Cnf.widen] using hi

/-- The variables of a frame can be given the values that a model asks for. -/
theorem exists_describes (hg : b.Fits g) {σ : Nat → Bool} (hσ : b.Sat g σ) (m : Model) :
    ∃ τ, Agree g.numVars σ τ ∧ b.Sat (blank space g) τ ∧
      (∀ s, s.bits < space.size → (((layout space g).isPossible s).holds τ = true ↔ s ∈ m.possible) ∧
        (((layout space g).isWorld s).holds τ = true ↔ m.isWorld s = true)) ∧
      (layout space g).eval.lits.map (·.holds τ) = space.states.map fun s => decide (s = m.evalWorld) := by
  obtain ⟨σ₁, h₁, hσ₁, hpossible⟩ := exists_table hg hσ space fun s => decide (s ∈ m.possible)
  obtain ⟨σ₂, h₂, hσ₂, hworld⟩ := exists_table (hg.widen _) hσ₁ space m.isWorld
  obtain ⟨σ₃, h₃, hσ₃, heval⟩ := exists_values ((hg.widen _).widen _) hσ₂
    (space.states.map fun s => decide (s = m.evalWorld))
  rw [List.length_map] at hσ₃ heval
  have hle₁ := (Cnf.le_widen g space.size).1
  have hle₂ := (Cnf.le_widen (g.widen space.size) space.size).1
  refine ⟨σ₃, h₁.trans ((h₂.trans (h₃.mono hle₂)).mono hle₁), hσ₃, fun s hs => ⟨?_, ?_⟩, heval⟩
  · have hvar := (tabled_freshArray space g).var_lt hs
    have hsame := (h₂.trans (h₃.mono hle₂)).holds (l := (layout space g).isPossible s) hvar
    rw [← hsame, show ((layout space g).isPossible s).holds σ₁ = _ from hpossible s hs, decide_eq_true_eq]
  · have hvar := (tabled_freshArray space (g.widen space.size)).var_lt hs
    have hsame := h₃.holds (l := (layout space g).isWorld s) hvar
    rw [← hsame, show ((layout space g).isWorld s).holds σ₂ = _ from hworld s hs]

theorem forall_mem_zip {α β γ : Type} {xs : List α} {ys : List β} {p : β → γ} {q : α → γ}
    (h : ys.map p = xs.map q) : ∀ r ∈ xs.zip ys, p r.2 = q r.1 := by
  induction xs generalizing ys with
  | nil => simp
  | cons x xs ih =>
    cases ys with
    | nil => simp
    | cons y ys =>
      rw [List.map_cons, List.map_cons, List.cons.injEq] at h
      exact List.forall_mem_cons.2 ⟨h.1, ih h.2⟩

/-- An assignment with the values that a model asks for obeys the clauses of the frame. -/
theorem obeyed_of_values {f : Frame} {n : Nat} (hf : f.Known n) {m : Model} (hspace : m.space = f.space)
    (hm : Framed m) {τ : Nat → Bool}
    (hpossible : ∀ s, s.bits < f.space.size → ((f.isPossible s).holds τ = true ↔ s ∈ m.possible))
    (hworld : ∀ s, s.bits < f.space.size → ((f.isWorld s).holds τ = true ↔ m.isWorld s = true))
    (heval : ∀ s ∈ f.space.states, (f.isEval s).holds τ = true ↔ s = m.evalWorld) : f.Obeyed τ := by
  have hlt : ∀ s ∈ f.space.states, s.bits < f.space.size := fun s hs => (StateSpace.mem_states.1 hs).2
  refine ⟨(hpossible _ f.space.size_pos).2 hm.null, fun s hs e _ hes h => ?_, fun s hs => ?_, ?_,
    fun s hs h => ?_⟩
  · have hpart : (s.without e).isPartOf s = true := State.isPartOf_iff.2 fun i hi => by simp_all
    exact (hpossible _ (without_lt (hlt s hs))).2 (hm.part s ((hpossible s (hlt s hs)).1 h) _ hpart)
  · rw [hworld s (hlt s hs), Model.isWorld_iff_extensions hm.toHereditary, hpossible s (hlt s hs), hspace]
    refine and_congr_right fun _ => forall₂_congr fun e he => ?_
    have hfuse := StateSpace.fusion_lt (hlt s hs) (atom_bits_lt (List.mem_filter.1 he).1)
    rw [← hpossible _ hfuse, Bool.not_eq_true]
  · have hmem : m.evalWorld ∈ f.space.states := hspace ▸ hm.eval_mem
    exact ⟨_, hf.world.mem (hlt _ hmem), (hworld _ (hlt _ hmem)).2 hm.eval⟩
  · have hs' := hlt s hs
    rw [(heval s hs).1 h] at hs' ⊢
    exact (hworld _ hs').2 hm.eval

theorem new_opened (hg : b.Fits g) (space : StateSpace) : Opened b g space (Frame.new space g) := by
  rw [run_new]
  have hblank : b.Fits (blank space g) := fits_blank hg
  have hknown := known_layout space g
  have hone := (Imposes.exactlyOne hknown.eval).restricts b _ hblank (Nat.le_refl _)
  have hdeclare := (imposes_declare hknown).restricts b _ hone.fits hone.le.1
  have hle := Cnf.le_trans hone.le hdeclare.le
  refine ⟨rfl, hknown.mono hle.1, Cnf.le_trans (le_blank space g) hle, hdeclare.fits, fun τ hτ => ?_,
    fun σ hσ m hspace hm => ?_⟩
  · have hchosen := hone.sound τ (hτ.mono hdeclare.le)
    exact ⟨hdeclare.sound τ hτ, hchosen.1, hchosen.2⟩
  subst hspace
  obtain ⟨σ₁, hσσ₁, hσ₁, htable, heval⟩ := exists_describes hg hσ m
  have hchosen : (layout m.space g).eval.Chosen σ₁ := hknown.regular.chosen_of_shows hm.eval_mem heval
  have hlit : ∀ s ∈ m.space.states, ((layout m.space g).isEval s).holds σ₁ = true ↔ s = m.evalWorld := by
    intro s hs
    have hpair := forall_mem_zip heval (s, (layout m.space g).isEval s) (hknown.isEval_mem hs)
    rw [hpair, decide_eq_true_eq]
  obtain ⟨σ₂, h₁₂, hσ₂⟩ := hone.complete σ₁ hσ₁ ⟨hchosen.some_true, hchosen.one_true⟩
  have hpossible₂ : ∀ s, s.bits < m.space.size →
      (((layout m.space g).isPossible s).holds σ₂ = true ↔ s ∈ m.possible) := fun s hs => by
    rw [← h₁₂.holds (hknown.isPossible_lt hs)]
    exact (htable s hs).1
  have hworld₂ : ∀ s, s.bits < m.space.size →
      (((layout m.space g).isWorld s).holds σ₂ = true ↔ m.isWorld s = true) := fun s hs => by
    rw [← h₁₂.holds (hknown.isWorld_lt hs)]
    exact (htable s hs).2
  have heval₂ : ∀ s ∈ m.space.states,
      ((layout m.space g).isEval s).holds σ₂ = true ↔ s = m.evalWorld := fun s hs => by
    rw [← h₁₂.holds (hknown.isEval_lt hs)]
    exact hlit s hs
  obtain ⟨σ₃, h₂₃, hσ₃⟩ := hdeclare.complete σ₂ hσ₂
    (obeyed_of_values hknown rfl hm hpossible₂ hworld₂ heval₂)
  have h₂₃' := h₂₃.mono hone.le.1
  refine ⟨σ₃, hσσ₁.trans ((h₁₂.trans h₂₃').mono (le_blank _ g).1), hσ₃, fun s hs => ?_, fun s hs => ?_⟩
  · have hs' := (StateSpace.mem_states.1 hs).2
    have hsame := h₂₃'.holds (hknown.isPossible_lt hs')
    exact hsame ▸ hpossible₂ s hs'
  · have hsame := h₂₃'.holds (hknown.isEval_lt hs)
    exact hsame ▸ heval₂ s hs

end Frame

end Countermodels.Truthmaker
