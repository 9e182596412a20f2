import Countermodels.Proofs.Truthmaker.Contents

/-! Admissible models. The clauses of a frame and of the contents of letters are true in just those
assignments that describe one, and each of them is described. -/

namespace Countermodels.Truthmaker

/-- What a model and the settings demand of the content of a letter. -/
structure Model.Allows (m : Model) (settings : Settings) (c : Content) : Prop where
  located : ∀ s, s ∈ c.ver ∨ s ∈ c.fal → s ∈ m.space.states
  ver_closed : ∀ x ∈ c.ver, ∀ y ∈ c.ver, x.fusion y ∈ c.ver
  fal_closed : ∀ x ∈ c.fal, ∀ y ∈ c.fal, x.fusion y ∈ c.fal
  exclusive : ∀ x ∈ c.ver, ∀ y ∈ c.fal, x.fusion y ∉ m.possible
  exhaustive : ∀ w, m.isWorld w = true → ∃ y, y.isPartOf w = true ∧ (y ∈ c.ver ∨ y ∈ c.fal)
  contingent : settings.contingent = true → (∃ s ∈ m.possible, s ∈ c.ver) ∧ ∃ s ∈ m.possible, s ∈ c.fal
  nonEmpty : settings.nonEmpty = true → (∃ s, s ∈ c.ver) ∧ ∃ s, s ∈ c.fal
  nonNull : settings.nonNull = true → .null ∉ c.ver ∧ .null ∉ c.fal

/-- No state of one content shares an atomic state with a state of the other. -/
def Content.Apart (c d : Content) : Prop :=
  ∀ x, x ∈ c.ver ∨ x ∈ c.fal → ∀ y, y ∈ d.ver ∨ y ∈ d.fal → x.overlaps y = false

/-- The null state is possible, parts of possible states are, the world of evaluation is a world, and
the contents of the letters are as the settings ask for: the models that an encoder describes under these settings. Laws of
what is true in a model are stated under the weaker `Model.Lawful`, which knows no settings. -/
structure Model.Admissible (settings : Settings) (letters : List Atom) (m : Model) : Prop
    extends Frame.Framed m where
  space_eq : m.space = ⟨settings.n⟩
  letters_eq : m.valuation.letters = Atom.sorted letters
  allows : ∀ p ∈ m.valuation, m.Allows settings p.2
  disjoint : settings.disjoint = true → m.valuation.Pairwise fun p q => p.2.Apart q.2

namespace Frame

variable {f : Frame} {n : Nat} {σ : Nat → Bool} {c d : ContentLits} {settings : Settings}
  {v : Valuation ContentLits}

theorem content_ver (hσ : f.Realized σ) (hf : f.Known n) {s : State} (hs : s.bits < f.space.size) :
    s ∈ (f.content σ c).ver ↔ (litAt c.ver s).holds σ = true :=
  mem_select.trans (and_iff_right ((hσ.mem_states_iff hf).2 hs))

theorem content_fal (hσ : f.Realized σ) (hf : f.Known n) {s : State} (hs : s.bits < f.space.size) :
    s ∈ (f.content σ c).fal ↔ (litAt c.fal s).holds σ = true :=
  mem_select.trans (and_iff_right ((hσ.mem_states_iff hf).2 hs))

theorem content_ver_lt (hσ : f.Realized σ) (hf : f.Known n) {s : State} (hs : s ∈ (f.content σ c).ver) :
    s.bits < f.space.size := (hσ.mem_states_iff hf).1 (mem_select.1 hs).1

theorem content_fal_lt (hσ : f.Realized σ) (hf : f.Known n) {s : State} (hs : s ∈ (f.content σ c).fal) :
    s.bits < f.space.size := (hσ.mem_states_iff hf).1 (mem_select.1 hs).1

/-- Literals that meet the demands describe a content that does. -/
theorem Constrained.allows (h : f.Constrained settings c σ) (hσ : f.Realized σ) (hf : f.Known n)
    (hc : c.Tabled f.space n) : (f.reading v σ).Allows settings (f.content σ c) := by
  have hstate : ∀ {s : State}, s ∈ f.space.states ↔ s.bits < f.space.size := hσ.mem_states_iff hf
  have hver : ∀ {s : State}, s.bits < f.space.size →
      (s ∈ (f.content σ c).ver ↔ (litAt c.ver s).holds σ = true) := content_ver hσ hf
  have hfal : ∀ {s : State}, s.bits < f.space.size →
      (s ∈ (f.content σ c).fal ↔ (litAt c.fal s).holds σ = true) := content_fal hσ hf
  have hpossible : ∀ {s : State}, s.bits < f.space.size →
      (s ∈ (f.reading v σ).possible ↔ (f.isPossible s).holds σ = true) := hσ.mem_possible hf
  refine ⟨fun s hs => ?_, fun x hx y hy => ?_, fun x hx y hy => ?_, fun x hx y hy hxy => ?_, fun w hw => ?_,
    fun ht => ?_, fun ht => ?_, fun ht => ?_⟩
  · exact hs.elim (fun hs => (mem_select.1 hs).1) fun hs => (mem_select.1 hs).1
  · have hx' := content_ver_lt hσ hf hx
    have hy' := content_ver_lt hσ hf hy
    exact (hver (StateSpace.fusion_lt hx' hy')).2 (h.ver_closed x (hstate.2 hx') y (hstate.2 hy')
      ((hver hx').1 hx) ((hver hy').1 hy))
  · have hx' := content_fal_lt hσ hf hx
    have hy' := content_fal_lt hσ hf hy
    exact (hfal (StateSpace.fusion_lt hx' hy')).2 (h.fal_closed x (hstate.2 hx') y (hstate.2 hy')
      ((hfal hx').1 hx) ((hfal hy').1 hy))
  · have hx' := content_ver_lt hσ hf hx
    have hy' := content_fal_lt hσ hf hy
    have hfalse := h.exclusive x (hstate.2 hx') y (hstate.2 hy') ((hver hx').1 hx) ((hfal hy').1 hy)
    rw [(hpossible (StateSpace.fusion_lt hx' hy')).1 hxy] at hfalse
    cases hfalse
  · have hmem : w ∈ f.space.states := (mem_select.1 (Model.isWorld_iff.1 hw).1).1
    obtain ⟨y, hyw, hy⟩ := h.exhaustive w hmem ((hσ.isWorld_iff hf hmem).1 hw)
    have hy' := StateSpace.lt_of_isPartOf hyw (hstate.1 hmem)
    exact ⟨y, hyw, hy.imp (hver hy').2 (hfal hy').2⟩
  · obtain ⟨⟨s, hs, hsp, hsv⟩, t, ht, htp, htf⟩ := h.contingent ht
    exact ⟨⟨s, (hpossible (hstate.1 hs)).2 hsp, (hver (hstate.1 hs)).2 hsv⟩,
      t, (hpossible (hstate.1 ht)).2 htp, (hfal (hstate.1 ht)).2 htf⟩
  · obtain ⟨⟨l, hl, hlσ⟩, k, hk, hkσ⟩ := h.nonEmpty ht
    obtain ⟨s, hs, rfl⟩ := hc.ver.exists_state hl
    obtain ⟨t, ht, rfl⟩ := hc.fal.exists_state hk
    exact ⟨⟨s, (hver hs).2 hlσ⟩, t, (hfal ht).2 hkσ⟩
  · have hnull := h.nonNull ht
    rw [hver (s := .null) f.space.size_pos, hfal (s := .null) f.space.size_pos, hnull.1, hnull.2]
    simp

/-- Literals that describe a content which meets the demands meet them. -/
theorem constrained_of_allows (hσ : f.Realized σ) (hf : f.Known n) (hc : c.Tabled f.space n)
    (h : (f.reading v σ).Allows settings (f.content σ c)) : f.Constrained settings c σ := by
  have hstate : ∀ {s : State}, s ∈ f.space.states ↔ s.bits < f.space.size := hσ.mem_states_iff hf
  have hver : ∀ {s : State}, s.bits < f.space.size →
      (s ∈ (f.content σ c).ver ↔ (litAt c.ver s).holds σ = true) := content_ver hσ hf
  have hfal : ∀ {s : State}, s.bits < f.space.size →
      (s ∈ (f.content σ c).fal ↔ (litAt c.fal s).holds σ = true) := content_fal hσ hf
  have hpossible : ∀ {s : State}, s.bits < f.space.size →
      (s ∈ (f.reading v σ).possible ↔ (f.isPossible s).holds σ = true) := hσ.mem_possible hf
  refine ⟨fun x hx y hy hxσ hyσ => ?_, fun x hx y hy hxσ hyσ => ?_, fun x hx y hy hxσ hyσ => ?_,
    fun w hw hwσ => ?_, fun ht => ?_, fun ht => ?_, fun ht => ?_⟩
  · have hx' := hstate.1 hx
    have hy' := hstate.1 hy
    exact (hver (StateSpace.fusion_lt hx' hy')).1 (h.ver_closed x ((hver hx').2 hxσ) y ((hver hy').2 hyσ))
  · have hx' := hstate.1 hx
    have hy' := hstate.1 hy
    exact (hfal (StateSpace.fusion_lt hx' hy')).1 (h.fal_closed x ((hfal hx').2 hxσ) y ((hfal hy').2 hyσ))
  · have hx' := hstate.1 hx
    have hy' := hstate.1 hy
    have hnot := h.exclusive x ((hver hx').2 hxσ) y ((hfal hy').2 hyσ)
    rwa [hpossible (StateSpace.fusion_lt hx' hy'), Bool.not_eq_true] at hnot
  · obtain ⟨y, hyw, hy⟩ := h.exhaustive w ((hσ.isWorld_iff hf hw).2 hwσ)
    have hy' := StateSpace.lt_of_isPartOf hyw (hstate.1 hw)
    exact ⟨y, hyw, hy.imp (hver hy').1 (hfal hy').1⟩
  · obtain ⟨⟨s, hsp, hsv⟩, t, htp, htf⟩ := h.contingent ht
    have hs := content_ver_lt hσ hf hsv
    have ht := content_fal_lt hσ hf htf
    exact ⟨⟨s, hstate.2 hs, (hpossible hs).1 hsp, (hver hs).1 hsv⟩,
      t, hstate.2 ht, (hpossible ht).1 htp, (hfal ht).1 htf⟩
  · obtain ⟨⟨s, hs⟩, t, ht⟩ := h.nonEmpty ht
    have hs' := content_ver_lt hσ hf hs
    have ht' := content_fal_lt hσ hf ht
    exact ⟨⟨_, hc.ver.mem hs', (hver hs').1 hs⟩, _, hc.fal.mem ht', (hfal ht').1 ht⟩
  · have hnull := h.nonNull ht
    rwa [hver (s := .null) f.space.size_pos, hfal (s := .null) f.space.size_pos, Bool.not_eq_true,
      Bool.not_eq_true] at hnull

theorem apart_iff (hσ : f.Realized σ) (hf : f.Known n) :
    f.Apart σ c d ↔ (f.content σ c).Apart (f.content σ d) := by
  have hstate : ∀ {s : State}, s ∈ f.space.states ↔ s.bits < f.space.size := hσ.mem_states_iff hf
  have hmem : ∀ {e : ContentLits} {s : State}, s ∈ (f.content σ e).ver ∨ s ∈ (f.content σ e).fal ↔
      s ∈ f.space.states ∧ ((litAt e.ver s).holds σ = true ∨ (litAt e.fal s).holds σ = true) := by
    intro e s
    rw [content, mem_select, mem_select, ← and_or_left]
  simp only [Content.Apart, hmem]
  constructor
  · intro h x hx y hy
    by_contra hxy
    exact h x hx.1 y hy.1 (by simpa using hxy) hx.2 hy.2
  · intro h x hx y hy hxy hxσ hyσ
    rw [h x ⟨hx, hxσ⟩ y ⟨hy, hyσ⟩] at hxy
    cases hxy

/-- The demands on the literals of all letters are those on the letters of the model that is described. -/
theorem constraints_iff (hσ : f.Realized σ) (hf : f.Known n) (hv : ∀ p ∈ v, p.2.Tabled f.space n) :
    ((∀ p ∈ v, f.Constrained settings p.2 σ) ∧
        (settings.disjoint = true → v.Pairwise fun p q => f.Apart σ p.2 q.2)) ↔
      (∀ p ∈ (f.reading v σ).valuation, (f.reading v σ).Allows settings p.2) ∧
        (settings.disjoint = true → (f.reading v σ).valuation.Pairwise fun p q => p.2.Apart q.2) := by
  have hmap : (f.reading v σ).valuation = v.map fun p => (p.1, f.content σ p.2) := rfl
  rw [hmap, List.forall_mem_map, List.pairwise_map]
  refine and_congr (forall₂_congr fun p hp => ?_) (imp_congr_right fun _ => ?_)
  · exact ⟨fun h => h.allows hσ hf (hv p hp), constrained_of_allows hσ hf (hv p hp)⟩
  · exact ⟨fun h => h.imp (apart_iff hσ hf).1, fun h => h.imp (apart_iff hσ hf).2⟩

/-! The tables of the letters, before any clause about them. -/

section blank

variable {space : StateSpace} {g : Cnf} {b : Basis}

/-- Tables for the verifiers and the falsifiers of one letter. -/
def blankContent (space : StateSpace) (g : Cnf) : ContentLits :=
  ⟨(Emit.freshArray space.size g).1, (Emit.freshArray space.size (g.widen space.size)).1⟩

/-- Tables for letters, one after the other. -/
def blankContents (space : StateSpace) (g : Cnf) : List Atom → List (Atom × ContentLits)
  | [] => []
  | a :: letters => (a, blankContent space g) ::
      blankContents space ((g.widen space.size).widen space.size) letters

/-- The formula that has the variables of these tables, and no clauses about them. -/
def blankFormula (space : StateSpace) (g : Cnf) : List Atom → Cnf
  | [] => g
  | _ :: letters => blankFormula space ((g.widen space.size).widen space.size) letters

theorem run_blankContents (space : StateSpace) (letters : List Atom) (g : Cnf) :
    letters.mapM (fun a => (do
      let ver ← Emit.freshArray space.size
      let fal ← Emit.freshArray space.size
      return (a, (⟨ver, fal⟩ : ContentLits)) : StateM Cnf (Atom × ContentLits))) g =
      (blankContents space g letters, blankFormula space g letters) := by
  induction letters generalizing g with
  | nil => rfl
  | cons a letters ih =>
    rw [List.mapM_cons]
    have hstep : ∀ {α β γ : Type} (x : StateM Cnf α) (y : StateM Cnf β) (k : α → β → γ),
        (do
          let a ← x
          let b ← y
          return k a b : StateM Cnf γ) g = (k (x g).1 (y (x g).2).1, (y (x g).2).2) := fun _ _ _ => rfl
    rw [hstep, ih]
    have hcontent : (do
        let ver ← Emit.freshArray space.size
        let fal ← Emit.freshArray space.size
        return (a, (⟨ver, fal⟩ : ContentLits)) : StateM Cnf (Atom × ContentLits)) g =
        ((a, blankContent space g), (g.widen space.size).widen space.size) := by
      rw [hstep, freshArray_snd, freshArray_snd]
      rfl
    rw [hcontent]
    rfl

theorem letters_blankContents (space : StateSpace) (g : Cnf) (letters : List Atom) :
    (blankContents space g letters).map Prod.fst = letters := by
  induction letters generalizing g with
  | nil => rfl
  | cons a letters ih => rw [blankContents, List.map_cons, ih]

theorem le_blankFormula (space : StateSpace) (g : Cnf) (letters : List Atom) :
    g ≤ blankFormula space g letters := by
  induction letters generalizing g with
  | nil => exact Cnf.le_refl g
  | cons a letters ih => exact Cnf.le_trans (Cnf.le_widen _ _) (Cnf.le_trans (Cnf.le_widen _ _) (ih _))

theorem fits_blankFormula (hg : b.Fits g) (letters : List Atom) : b.Fits (blankFormula space g letters) := by
  induction letters generalizing g with
  | nil => exact hg
  | cons a letters ih => exact ih ((hg.widen _).widen _)

theorem tabled_blankContents (space : StateSpace) (g : Cnf) (letters : List Atom) :
    ∀ p ∈ blankContents space g letters, p.2.Tabled space (blankFormula space g letters).numVars := by
  induction letters generalizing g with
  | nil => simp [blankContents]
  | cons a letters ih =>
    have hle := (le_blankFormula space ((g.widen space.size).widen space.size) letters).1
    refine List.forall_mem_cons.2 ⟨⟨?_, ?_⟩, ih _⟩
    · exact (tabled_freshArray space g).mono (Nat.le_trans (Nat.le_add_right _ _) hle)
    · exact (tabled_freshArray space (g.widen space.size)).mono hle

/-- The tables of letters can be given any contents. -/
theorem exists_contents (space : StateSpace) (hg : b.Fits g) (hσ : b.Sat g σ) (value : Atom → Content) (letters : List Atom) :
    ∃ τ, Agree g.numVars σ τ ∧ b.Sat (blankFormula space g letters) τ ∧
      ∀ p ∈ blankContents space g letters, ∀ s : State, s.bits < space.size →
        ((litAt p.2.ver s).holds τ = true ↔ s ∈ (value p.1).ver) ∧
          ((litAt p.2.fal s).holds τ = true ↔ s ∈ (value p.1).fal) := by
  induction letters generalizing g σ with
  | nil => exact ⟨σ, .refl _ _, hσ, by simp [blankContents]⟩
  | cons a letters ih =>
    obtain ⟨σ₁, h₁, hσ₁, hver⟩ := exists_table hg hσ space fun s => decide (s ∈ (value a).ver)
    obtain ⟨σ₂, h₂, hσ₂, hfal⟩ := exists_table (hg.widen _) hσ₁ space fun s => decide (s ∈ (value a).fal)
    obtain ⟨τ, h₃, hτ, hrest⟩ := ih ((hg.widen _).widen _) hσ₂
    have hle₁ := (Cnf.le_widen g space.size).1
    have hle₂ := (Cnf.le_widen (g.widen space.size) space.size).1
    refine ⟨τ, h₁.trans ((h₂.trans (h₃.mono hle₂)).mono hle₁), hτ, List.forall_mem_cons.2 ⟨fun s hs => ⟨?_, ?_⟩, hrest⟩⟩
    · have hvar := (tabled_freshArray space g).var_lt hs
      have hsame := (h₂.trans (h₃.mono hle₂)).holds (l := litAt (blankContent space g).ver s) hvar
      rw [← hsame, show (litAt (blankContent space g).ver s).holds σ₁ = _ from hver s hs, decide_eq_true_eq]
    · have hvar := (tabled_freshArray space (g.widen space.size)).var_lt hs
      have hsame := h₃.holds (l := litAt (blankContent space g).fal s) hvar
      rw [← hsame, show (litAt (blankContent space g).fal s).holds σ₂ = _ from hfal s hs, decide_eq_true_eq]

end blank

/-- The clauses on the contents of all letters. -/
def constrain (f : Frame) (settings : Settings) (v : Valuation ContentLits) : StateM Cnf Unit := do
  v.meanings.forM (f.constrainContent settings)
  if settings.disjoint then f.allDisjoint v.meanings

theorem run_valuation (f : Frame) (settings : Settings) (letters : List Atom) (g : Cnf) :
    f.valuation settings letters g = (Valuation.ofList (blankContents f.space g letters),
      (f.constrain settings (Valuation.ofList (blankContents f.space g letters))
        (blankFormula f.space g letters)).2) := by
  have hrun : ∀ pairs h, (do
      let v := Valuation.ofList pairs
      v.meanings.forM (f.constrainContent settings)
      if settings.disjoint then f.allDisjoint v.meanings
      return v : StateM Cnf (Valuation ContentLits)) h =
        (Valuation.ofList pairs, (f.constrain settings (Valuation.ofList pairs) h).2) := by
    intro pairs h
    unfold constrain
    cases settings.disjoint <;> rfl
  have hbind : f.valuation settings letters g = (fun r : List (Atom × ContentLits) × Cnf => (do
      let v := Valuation.ofList r.1
      v.meanings.forM (f.constrainContent settings)
      if settings.disjoint then f.allDisjoint v.meanings
      return v : StateM Cnf (Valuation ContentLits)) r.2) (letters.mapM (fun a => (do
        let ver ← Emit.freshArray f.space.size
        let fal ← Emit.freshArray f.space.size
        return (a, (⟨ver, fal⟩ : ContentLits)) : StateM Cnf (Atom × ContentLits))) g) := rfl
  rw [hbind, run_blankContents]
  exact hrun _ _

theorem imposes_constrain (settings : Settings) (hf : f.Known n) (hv : ∀ p ∈ v, p.2.Tabled f.space n) :
    Imposes n (f.constrain settings v) fun σ => (∀ p ∈ v, f.Constrained settings p.2 σ) ∧
      (settings.disjoint = true → v.Pairwise fun p q => f.Apart σ p.2 q.2) := by
  have hmeanings : ∀ c ∈ v.meanings, c.Tabled f.space n := List.forall_mem_map.2 hv
  have hfirst : Imposes n (v.meanings.forM (f.constrainContent settings)) fun σ =>
      ∀ c ∈ v.meanings, f.Constrained settings c σ := .forM fun c hc => imposes_constrainContent hf (hmeanings c hc) settings
  refine (hfirst.seq (.ite fun _ => imposes_allDisjoint hmeanings)).congr fun σ => ?_
  rw [Valuation.meanings, List.forall_mem_map, List.pairwise_map]

end Frame

/-- A frame, and contents for letters. -/
def opening (settings : Settings) (letters : List Atom) : StateM Cnf (Frame × Valuation ContentLits) := do
  let frame ← Frame.new ⟨settings.n⟩
  let valuation ← frame.valuation settings letters
  return (frame, valuation)

/-- Which models a frame with contents for letters describes. -/
structure Describing (settings : Settings) (letters : List Atom) (f : Frame) (v : Valuation ContentLits)
    (g : Cnf) : Prop where
  space_eq : f.space = ⟨settings.n⟩
  known : f.Known g.numVars
  tabled : ∀ p ∈ v, p.2.Tabled f.space g.numVars
  letters_eq : v.letters = Atom.sorted letters
  fits : Basis.start.Fits g
  realized : ∀ σ, g.satisfiedBy σ → f.Realized σ
  sound : ∀ σ, g.satisfiedBy σ → (f.reading v σ).Admissible settings letters
  complete : ∀ m : Model, m.Admissible settings letters → ∃ σ, g.satisfiedBy σ ∧ f.reading v σ = m

namespace Frame

variable {f : Frame} {n : Nat} {σ τ : Nat → Bool} {v : Valuation ContentLits} {m : Model}
  {settings : Settings} {letters : List Atom}

theorem Realized.framed (hσ : f.Realized σ) (hf : f.Known n) : Framed (f.reading v σ) where
  toHereditary := hσ.hereditary hf
  null := (hσ.mem_possible hf (s := .null) f.space.size_pos).2 hσ.null
  eval := by
    obtain ⟨hmem, -, hiff⟩ := hσ.chosen_spec hf
    exact (hσ.isWorld_iff hf hmem).2 (hσ.eval_world _ hmem ((hiff _ hmem).2 rfl))

theorem select_congr {lits : Array Lit} (h : Agree n σ τ) (hlits : Tabled f.space n lits) :
    f.select σ lits = f.select τ lits := by
  ext s
  simp only [mem_select]
  refine and_congr_right fun hs => ?_
  rw [h.holds (hlits.var_lt (StateSpace.mem_states.1 hs).2)]

/-- Assignments that agree on the variables of the frame and the letters describe one model. -/
theorem reading_congr (h : Agree n σ τ) (hf : f.Known n) (hv : ∀ p ∈ v, p.2.Tabled f.space n) :
    f.reading v σ = f.reading v τ := by
  have heval : f.eval.value? σ = f.eval.value? τ := by
    rw [Choice.value?, Choice.value?]
    congr 1
    refine List.find?_congr fun p hp => ?_
    exact h.holds (hf.eval _ (List.of_mem_zip hp).2)
  simp only [reading, Model.mk.injEq, true_and]
  refine ⟨select_congr h hf.possible, by rw [chosen, chosen, heval], List.map_congr_left fun p hp => ?_⟩
  rw [content, content, select_congr h (hv p hp).ver, select_congr h (hv p hp).fal]

/-- The model that is described is the one whose states the literals name. -/
theorem reading_eq (hσ : f.Realized σ) (hf : f.Known n) (hm : m.Admissible settings letters)
    (hspace : m.space = f.space) (hdesc : f.Describes σ m) (hletters : v.letters = Atom.sorted letters)
    (hcontents : ∀ p ∈ v, ∀ s : State, s.bits < f.space.size →
      ((litAt p.2.ver s).holds σ = true ↔ s ∈ (m.atomContent p.1).ver) ∧
        ((litAt p.2.fal s).holds σ = true ↔ s ∈ (m.atomContent p.1).fal)) :
    f.reading v σ = m := by
  have hnodup : m.valuation.letters.Nodup := hm.letters_eq ▸ (Atom.alphabetical_sorted letters).nodup
  have hatom : ∀ p ∈ m.valuation, m.atomContent p.1 = p.2 := fun p hp => by
    rw [Model.atomContent, Valuation.meaning?_of_mem hnodup hp, Option.getD_some]
  have hmem : ∀ {s : State}, s ∈ f.space.states ↔ s.bits < f.space.size := hσ.mem_states_iff hf
  have hpossible : f.select σ f.possible = m.possible := by
    ext s
    rw [mem_select]
    constructor
    · exact fun hs => (hdesc.possible s hs.1).1 hs.2
    · intro hs
      have hstate : s ∈ f.space.states := hspace ▸ hm.mem_states s hs
      exact ⟨hstate, (hdesc.possible s hstate).2 hs⟩
  have heval : f.chosen σ = m.evalWorld := by
    obtain ⟨hchosen, -, hiff⟩ := hσ.chosen_spec hf
    exact (hdesc.eval _ hchosen).1 ((hiff _ hchosen).2 rfl)
  have hvalue : ∀ p ∈ v, f.content σ p.2 = m.atomContent p.1 := by
    intro p hp
    have hlocated : ∀ s, s ∈ (m.atomContent p.1).ver ∨ s ∈ (m.atomContent p.1).fal → s ∈ f.space.states := by
      have hp' : p.1 ∈ m.valuation.letters := by
        rw [hm.letters_eq, ← hletters]
        exact List.mem_map_of_mem hp
      obtain ⟨q, hq, hqp⟩ := List.mem_map.1 hp'
      rw [← hqp, hatom q hq, ← hspace]
      exact (hm.allows q hq).located
    have hside : ∀ {lits : Array Lit} {set : StateSet}, (∀ s ∈ set, s ∈ f.space.states) →
        (∀ s : State, s.bits < f.space.size → ((litAt lits s).holds σ = true ↔ s ∈ set)) →
        f.select σ lits = set := by
      intro lits set hset h
      ext s
      rw [mem_select]
      constructor
      · exact fun hs => (h s (hmem.1 hs.1)).1 hs.2
      · exact fun hs => ⟨hset s hs, (h s (hmem.1 (hset s hs))).2 hs⟩
    rw [content, hside (fun s hs => hlocated s (.inl hs)) fun s hs => (hcontents p hp s hs).1,
      hside (fun s hs => hlocated s (.inr hs)) fun s hs => (hcontents p hp s hs).2]
  have hvaluation : (v.map fun p => (p.1, f.content σ p.2)) = m.valuation := by
    have hleft : (v.map fun p => (p.1, f.content σ p.2)) = v.letters.map fun a => (a, m.atomContent a) := by
      rw [Valuation.letters, List.map_map]
      exact List.map_congr_left fun p hp => by rw [hvalue p hp]; rfl
    have hright : m.valuation = m.valuation.letters.map fun a => (a, m.atomContent a) := by
      rw [Valuation.letters, List.map_map]
      conv_lhs => rw [← List.map_id m.valuation]
      exact List.map_congr_left fun p hp => by simp [hatom p hp]
    rw [hleft, hright, hletters, hm.letters_eq]
  obtain ⟨space, possible, evalWorld, valuation⟩ := m
  simp only [reading, hpossible, heval, hvaluation, ← hspace]

end Frame

/-- A frame with contents for letters describes all admissible models, and no others. -/
theorem opening_describing (settings : Settings) (letters : List Atom) :
    Describing settings letters (opening settings letters {}).1.1 (opening settings letters {}).1.2
      (opening settings letters {}).2 := by
  have hopened := Frame.new_opened Basis.fits_start ⟨settings.n⟩
  generalize hr : (Frame.new ⟨settings.n⟩ ({} : Cnf)) = r at hopened
  obtain ⟨f, g⟩ := r
  have hrun : opening settings letters {} = ((f, (f.valuation settings letters g).1), (f.valuation settings letters g).2) := by
    show ((fun r : Frame × Cnf => (((r.1, (r.1.valuation settings letters r.2).1),
      (r.1.valuation settings letters r.2).2) : (Frame × Valuation ContentLits) × Cnf)) (Frame.new ⟨settings.n⟩ {})) = _
    rw [hr]
  rw [hrun, Frame.run_valuation]
  dsimp only at hopened ⊢
  have hle := Frame.le_blankFormula f.space g letters
  have hfits : Basis.start.Fits (Frame.blankFormula f.space g letters) := Frame.fits_blankFormula hopened.fits letters
  have hknown := hopened.known.mono hle.1
  have hblank := Frame.tabled_blankContents f.space g letters
  generalize hv : Valuation.ofList (Frame.blankContents f.space g letters) = v
  have hmem : ∀ p ∈ v, p ∈ Frame.blankContents f.space g letters := fun p hp =>
    Valuation.mem_ofList (hv ▸ hp)
  have htabled : ∀ p ∈ v, p.2.Tabled f.space (Frame.blankFormula f.space g letters).numVars :=
    fun p hp => hblank p (hmem p hp)
  have hletters : v.letters = Atom.sorted letters := by
    rw [← hv, Valuation.letters_ofList, Frame.letters_blankContents]
  have himpose := (Frame.imposes_constrain settings hknown htabled).restricts Basis.start _ hfits
    (Nat.le_refl _)
  have hrealized : ∀ {σ : Nat → Bool} {h : Cnf}, g ≤ h → Basis.start.Sat h σ → f.Realized σ :=
    fun hgh hσ => hopened.sound _ (hσ.mono hgh)
  refine ⟨hopened.space_eq, hknown.mono himpose.le.1, fun p hp => (htabled p hp).mono himpose.le.1, hletters,
    himpose.fits, fun σ hσ => ?_, fun σ hσ => ?_, fun m hm => ?_⟩
  · exact hrealized (Cnf.le_trans hle himpose.le) (Basis.sat_start.2 hσ)
  · have hσ := Basis.sat_start.2 hσ
    have hreal := hrealized (Cnf.le_trans hle himpose.le) hσ
    obtain ⟨hallows, hdisjoint⟩ := (Frame.constraints_iff hreal hknown htabled).1 (himpose.sound σ hσ)
    refine { hreal.framed hknown with
      space_eq := hopened.space_eq, letters_eq := ?_, allows := hallows, disjoint := hdisjoint }
    rw [← hletters]
    simp [Valuation.letters, Frame.reading]
  · have hspace : m.space = f.space := hm.space_eq.trans hopened.space_eq.symm
    obtain ⟨σ₁, -, hσ₁, hdesc⟩ := hopened.complete (fun _ => false) (Basis.sat_start.2 (by simp [Cnf.satisfiedBy])) m
      hm.space_eq hm.toFramed
    obtain ⟨σ₂, h₁₂, hσ₂, hcontents⟩ := Frame.exists_contents f.space hopened.fits hσ₁ m.atomContent letters
    have hreal := hrealized hle hσ₂
    have hdesc₂ : f.Describes σ₂ m := by
      refine ⟨fun s hs => ?_, fun s hs => ?_⟩
      · rw [← h₁₂.holds (hopened.known.isPossible_lt (StateSpace.mem_states.1 hs).2)]
        exact hdesc.possible s hs
      · rw [← h₁₂.holds (hopened.known.isEval_lt hs)]
        exact hdesc.eval s hs
    have hread : f.reading v σ₂ = m := Frame.reading_eq hreal hknown hm hspace hdesc₂ hletters
      fun p hp => hcontents p (hmem p hp)
    have hdemands : (∀ p ∈ (f.reading v σ₂).valuation, (f.reading v σ₂).Allows settings p.2) ∧
        (settings.disjoint = true → (f.reading v σ₂).valuation.Pairwise fun p q => p.2.Apart q.2) :=
      hread.symm ▸ ⟨hm.allows, hm.disjoint⟩
    obtain ⟨σ₃, h₂₃, hσ₃⟩ := himpose.complete σ₂ hσ₂ ((Frame.constraints_iff hreal hknown htabled).2 hdemands)
    exact ⟨σ₃, Basis.sat_start.1 hσ₃, (Frame.reading_congr h₂₃ hknown htabled).symm.trans hread⟩

end Countermodels.Truthmaker
