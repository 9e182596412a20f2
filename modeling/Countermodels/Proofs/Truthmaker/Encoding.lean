import Countermodels.Proofs.Truthmaker.Foundation

/-! Formulas as literals: the literals of a formula denote its truth and its content in the model that an
assignment describes. One lemma for each operator, and the formula by induction. -/

namespace Countermodels.Truthmaker.Foundation

open Encoder

variable {g : Foundation} {e : Encoder} {a b : Formula} {s t w x z u : State}

section kept

theorem Valid.keepTruth (he : g.Valid e) {l : Lit}
    (hl : g.basis.Denotes e.draft.cnf l fun σ => (g.meaning a σ).Holds w) :
    g.Grows e { e with truths := e.truths.insert (truthKey a w) l } := by
  refine ⟨{ he with truths := fun c u k hk => ?_ }, .refl he.fits⟩
  rw [Std.HashMap.getElem?_insert] at hk
  split at hk
  · next h =>
    rw [← Option.some.inj hk]
    exact hl.congr fun σ _ => holds_congr_of_truthKey (eq_of_beq h) σ
  · exact he.truths c u k hk

theorem Valid.keepContent (he : g.Valid e) {c : ContentLits}
    (hc : g.Conveys e.draft.cnf c (g.meaning a) w) :
    g.Grows e { e with contents := e.contents.insert (contentKey a w) c } := by
  refine ⟨{ he with contents := fun d u k hk => ?_ }, .refl he.fits⟩
  rw [Std.HashMap.getElem?_insert] at hk
  split at hk
  · next h =>
    have hsame := content_congr_of_contentKey (g := g) (eq_of_beq h)
    rw [← Option.some.inj hk]
    refine ⟨hc.ver.congr fun s σ _ => ?_, hc.fal.congr fun s σ _ => ?_, hc.ver_fills, hc.fal_fills⟩
    · rw [Meaning.Verifies, Meaning.Verifies, hsame σ]
    · rw [Meaning.Falsifies, Meaning.Falsifies, hsame σ]
  · exact he.contents d u k hk

theorem Valid.keepPart (he : g.Valid e) {l : Lit}
    (hl : g.basis.Denotes e.draft.cnf l fun σ => z ∈ (g.model σ).maximalCompatibleParts w x) :
    g.Grows e { e with parts := e.parts.insert (z, w, x) l } := by
  refine ⟨{ he with parts := fun z' w' x' k hk => ?_ }, .refl he.fits⟩
  rw [Std.HashMap.getElem?_insert] at hk
  split at hk
  · next h =>
    cases eq_of_beq h
    rw [← Option.some.inj hk]
    exact hl
  · exact he.parts z' w' x' k hk

theorem Valid.keepAlternative (he : g.Valid e) {l : Lit}
    (hl : g.basis.Denotes e.draft.cnf l fun σ => u ∈ (g.model σ).alternatives w x) :
    g.Grows e { e with alternatives := e.alternatives.insert (w, x, u) l } := by
  refine ⟨{ he with alternatives := fun w' x' u' k hk => ?_ }, .refl he.fits⟩
  rw [Std.HashMap.getElem?_insert] at hk
  split at hk
  · next h =>
    cases eq_of_beq h
    rw [← Option.some.inj hk]
    exact hl
  · exact he.alternatives w' x' u' k hk

/-- What is kept is what would be written. -/
theorem does_memoTruth {write : State → EncodeM Lit} (he : g.Valid e)
    (hwrite : ∀ e', g.Valid e' → g.Does (write w) e' fun f l =>
      g.basis.Denotes f l fun σ => (g.meaning a σ).Holds w) :
    g.Does (memoTruth a write w) e fun f l =>
      g.basis.Denotes f l fun σ => (g.meaning a σ).Holds w := by
  unfold memoTruth
  refine Writes.get ?_
  dsimp only
  split
  · next l hl => exact .pure he.grows (he.truths a w l hl)
  · exact (does_checkDeadline he).bind fun _ e₁ h₁ _ => (hwrite e₁ h₁.valid).bind fun l e₂ h₂ hl =>
      have hkeep := h₂.valid.keepTruth hl
      (Writes.modify (P := fun e' _ => g.basis.Denotes e'.draft.cnf l _) hkeep hl).bind
        fun _ e₃ h₃ hl' => .pure h₃.valid.grows hl'

theorem does_memoContent {write : State → EncodeM ContentLits} (he : g.Valid e)
    (hwrite : ∀ e', g.Valid e' → g.Does (write w) e' fun f c => g.Conveys f c (g.meaning a) w) :
    g.Does (memoContent a write w) e fun f c => g.Conveys f c (g.meaning a) w := by
  unfold memoContent
  refine Writes.get ?_
  dsimp only
  split
  · next c hc => exact .pure he.grows (he.contents a w c hc)
  · exact (hwrite e he).bind fun c e₁ h₁ hc =>
      have hkeep := h₁.valid.keepContent hc
      (Writes.modify (P := fun e' _ => g.Conveys e'.draft.cnf c _ _) hkeep hc).bind
        fun _ e₂ h₂ hc' => .pure h₂.valid.grows hc'

end kept

section frame

theorem denotes_isPossible (he : g.Valid e) (hs : g.Has s) :
    g.basis.Denotes e.draft.cnf (g.frame.isPossible s) fun σ => s ∈ (g.model σ).possible := by
  refine ⟨Nat.lt_of_lt_of_le (g.known.possible.var_lt hs) he.fits.numVars_le, fun σ hσ => ?_⟩
  exact ((g.realized σ hσ.1).mem_possible g.known hs).symm

theorem denotes_isWorld (he : g.Valid e) (hs : g.Has s) :
    g.basis.Denotes e.draft.cnf (g.frame.isWorld s) fun σ => s ∈ (g.model σ).worlds := by
  refine ⟨Nat.lt_of_lt_of_le (g.known.world.var_lt hs) he.fits.numVars_le, fun σ hσ => ?_⟩
  have hmem := (g.realized σ hσ.1).mem_worlds (v := g.valuation) (s := s) g.known
  exact (hmem.trans (and_iff_right ((g.mem_states hσ.1).2 hs))).symm

/-- Whether `z` is a maximal part of `w` compatible with `x` is asked one atomic state at a time. -/
theorem does_maximalCompatiblePart (he : g.Valid e) (hw : g.Has w) (hx : g.Has x)
    (hz : z.isPartOf w = true) : g.Does (maximalCompatiblePart z w x) e fun f l =>
      g.basis.Denotes f l fun σ => z ∈ (g.model σ).maximalCompatibleParts w x := by
  unfold maximalCompatiblePart
  refine Writes.get ?_
  split
  · next l hl => exact .pure he.grows (he.parts z w x l hl)
  refine (does_frame he).bind fun F e₁ h₁ hF => ?_
  subst hF
  have hlits : List.Forall₂ (fun P l => g.basis.Denotes e₁.draft.cnf l P)
      ((fun σ => z.fusion x ∈ (g.model σ).possible) :: ((g.frame.space.atoms.filter fun c =>
        c.isPartOf w && !c.isPartOf z).map fun c σ => (z.fusion c).fusion x ∉ (g.model σ).possible))
      (g.frame.isPossible (z.fusion x) :: ((g.frame.space.atoms.filter fun c =>
        c.isPartOf w && !c.isPartOf z).map fun c => (g.frame.isPossible ((z.fusion c).fusion x)).neg)) := by
    have hz' := hw.part hz
    refine .cons (denotes_isPossible h₁.valid (hz'.fusion hx)) ?_
    rw [List.forall₂_map_left_iff, List.forall₂_map_right_iff, List.forall₂_same]
    intro c hc
    have hc' : g.Has c := Frame.atom_bits_lt (List.mem_filter.1 hc).1
    exact (denotes_isPossible h₁.valid ((hz'.fusion hc').fusion hx)).neg
  refine (does_all (K := fun P => P) h₁.valid hlits).bind fun l e₂ h₂ hl => ?_
  have hl' : g.basis.Denotes e₂.draft.cnf l fun σ => z ∈ (g.model σ).maximalCompatibleParts w x := by
    refine hl.congr fun σ hσ => ?_
    have hher := (g.realized σ hσ.1).hereditary (v := g.valuation) g.known
    rw [List.forall_mem_cons, List.forall_mem_map, model,
      Model.mem_maximalCompatibleParts_iff hher hw, and_iff_right hz]
    simp only [List.mem_filter, Bool.and_eq_true, Bool.not_eq_true', and_imp]
    rfl
  exact (Writes.modify (P := fun e' _ => g.basis.Denotes e'.draft.cnf l _) (h₂.valid.keepPart hl') hl').bind
    fun _ e₃ h₃ hl => .pure h₃.valid.grows hl

/-- An alternative to `w` is a world that keeps a maximal part of `w`. -/
theorem does_alternative (he : g.Valid e) (hw : g.Has w) (hu : g.Has u) (hx : x.isPartOf u = true) :
    g.Does (alternative w x u) e fun f l =>
      g.basis.Denotes f l fun σ => u ∈ (g.model σ).alternatives w x := by
  unfold alternative
  refine Writes.get ?_
  split
  · next l hl => exact .pure he.grows (he.alternatives w x u l hl)
  refine (does_mapM (K := fun z f l => g.basis.Denotes f l fun σ =>
    z ∈ (g.model σ).maximalCompatibleParts w x) he (fun z f h l hfh hl => hl.mono hfh)
    fun z hz e' he' => ?_).bind fun parts e₁ h₁ hparts => ?_
  · exact does_maximalCompatiblePart he'.valid hw (hu.part hx)
      (State.isPartOf_common.1 (State.mem_parts.1 hz)).2
  refine (does_any h₁.valid hparts).bind fun l e₂ h₂ hl => ?_
  refine (does_frame h₂.valid).bind fun F e₃ h₃ hF => ?_
  subst hF
  have hlits : List.Forall₂ (fun P l => g.basis.Denotes e₃.draft.cnf l P)
      [fun σ => u ∈ (g.model σ).worlds, fun σ => ∃ z ∈ (u.common w).parts,
        z ∈ (g.model σ).maximalCompatibleParts w x] [g.frame.isWorld u, l] :=
    .cons (denotes_isWorld h₃.valid hu) (.cons (hl.mono h₃.le) .nil)
  refine (does_all (K := fun P => P) h₃.valid hlits).bind fun l e₄ h₄ hl => ?_
  have hl' : g.basis.Denotes e₄.draft.cnf l fun σ => u ∈ (g.model σ).alternatives w x := by
    refine hl.congr fun σ hσ => ?_
    simp only [List.forall_mem_cons, List.not_mem_nil, IsEmpty.forall_iff, implies_true, and_true,
      State.mem_parts, State.isPartOf_common]
    rw [Model.mem_alternatives]
    refine and_congr_right fun _ => ⟨fun h => ?_, fun h => ?_⟩
    · obtain ⟨z, ⟨hzu, -⟩, hz⟩ := h
      exact ⟨hx, z, hz, hzu⟩
    · obtain ⟨-, z, hz, hzu⟩ := h
      have hzw := (Model.mem_compatibleParts.1 (Model.mem_maximalCompatibleParts.1 hz).1).1
      exact ⟨z, ⟨hzu, hzw⟩, hz⟩
  exact (Writes.modify (P := fun e' _ => g.basis.Denotes e'.draft.cnf l _) (h₄.valid.keepAlternative hl')
    hl').bind fun _ e₅ h₅ hl => .pure h₅.valid.grows hl

end frame

section tables

variable {xs ys : Array Lit} {P Q : State → (Nat → Bool) → Prop}

/-- No assignment is under consideration if the states cannot be listed. -/
theorem denotes_of_large (hn : ¬ g.frame.space.n < 32) {l : Lit}
    (hl : l.var < e.draft.cnf.numVars) {P : (Nat → Bool) → Prop} : g.basis.Denotes e.draft.cnf l P :=
  ⟨hl, fun σ hσ => absurd ((g.realized σ hσ.1).n_lt g.known) hn⟩

theorem numVars_pos (he : g.Valid e) : 0 < e.draft.cnf.numVars :=
  Nat.lt_of_le_of_lt (Nat.zero_le _)
    (Nat.lt_of_lt_of_le (g.known.possible.var_lt g.has_null) he.fits.numVars_le)

/-- A table made of one literal for each state. -/
theorem shows_toArray (he : g.Valid e) {ls : List Lit}
    (h : List.Forall₂ (fun s l => g.basis.Denotes e.draft.cnf l (P s)) g.frame.space.states ls) :
    g.Shows e.draft.cnf ls.toArray P := by
  intro s hs
  by_cases hn : g.frame.space.n < 32
  · have hlen := h.length_eq
    have hstates : g.frame.space.states = (List.range g.frame.space.size).map State.mk := by
      rw [StateSpace.states, if_pos hn]
    have hi : s.bits < ls.length := by
      rw [← hlen, hstates, List.length_map, List.length_range]
      exact hs
    have hget := (List.forall₂_iff_get.1 h).2 s.bits (by rw [hlen]; exact hi) hi
    simpa [hstates, litAt, Array.getD_eq_getD_getElem?, hi] using hget
  · have hempty : g.frame.space.states = [] := by rw [StateSpace.states, if_neg hn]
    rw [hempty] at h
    cases h
    have hdefault : litAt [].toArray s = default := by simp [litAt]
    have hpos : (default : Lit).var < e.draft.cnf.numVars := numVars_pos he
    exact hdefault ▸ denotes_of_large hn hpos

/-- A table made of one literal for each state is filled. -/
theorem fills_toArray {ls : List Lit} {R : State → Lit → Prop}
    (h : List.Forall₂ R g.frame.space.states ls) : g.Fills ls.toArray := fun hn => by
  have hlen := h.length_eq
  rw [StateSpace.states, if_pos hn, List.length_map, List.length_range] at hlen
  exact hlen.symm

theorem does_fusions (he : g.Valid e) (hxs : g.Shows e.draft.cnf xs P) (hys : g.Shows e.draft.cnf ys Q)
    (union : Bool) : g.Does (fusions xs ys union) e fun f lits => g.Fills lits ∧ g.Shows f lits fun s σ =>
      if union then Meaning.Joined (P · σ) (Q · σ) s else Meaning.Fused (P · σ) (Q · σ) s := by
  unfold fusions
  refine (does_states he).bind fun states e₁ h₁ hstates => ?_
  subst hstates
  refine (does_mapM (K := fun s f l => g.basis.Denotes f l fun σ =>
      if union then Meaning.Joined (P · σ) (Q · σ) s else Meaning.Fused (P · σ) (Q · σ) s) h₁.valid
    (fun s f h l hfh hl => hl.mono hfh) fun s hs e₂ h₂ => ?_).bind fun lits e₃ h₃ hlits =>
      .pure h₃.valid.grows ⟨fills_toArray hlits, shows_toArray h₃.valid hlits⟩
  refine (does_checkDeadline h₂.valid).bind fun _ e₃ h₃ _ => ?_
  have hle := Cnf.le_trans h₁.le (Cnf.le_trans h₂.le h₃.le)
  refine (does_mapM (K := fun (p : State × State) f l => g.basis.Denotes f l fun σ => P p.1 σ ∧ Q p.2 σ)
    h₃.valid (fun p f h l hfh hl => hl.mono hfh) fun p hp e₄ h₄ => ?_).bind fun terms e₄ h₄ hterms => ?_
  · obtain ⟨y, z⟩ := p
    have hyz := State.mem_decompositions.1 hp
    have hy : g.Has y := (has_of_mem hs).part (hyz ▸ State.isPartOf_fusion_left y z)
    have hz : g.Has z := (has_of_mem hs).part (hyz ▸ State.isPartOf_fusion_right y z)
    have hle' := Cnf.le_trans hle h₄.le
    exact (does_allOf [P y, Q z] h₄.valid
      (.cons ((hxs y hy).mono hle') (.cons ((hys z hz).mono hle') .nil))).imp
      fun l e' _ hl => hl.congr fun σ _ => by simp
  have hfused : ∀ σ, (∃ p ∈ s.decompositions, P p.1 σ ∧ Q p.2 σ) ↔ Meaning.Fused (P · σ) (Q · σ) s := by
    intro σ
    constructor
    · rintro ⟨⟨y, z⟩, hp, hy, hz⟩
      exact ⟨y, hy, z, hz, State.mem_decompositions.1 hp⟩
    · rintro ⟨y, hy, z, hz, hyz⟩
      exact ⟨(y, z), State.mem_decompositions.2 hyz, hy, hz⟩
  cases union with
  | false => exact (does_any h₄.valid hterms).imp fun l e' _ hl => hl.congr fun σ _ => by simp [hfused]
  | true =>
    have hle' := Cnf.le_trans hle h₄.le
    have hlits : List.Forall₂ (fun P l => g.basis.Denotes e₄.draft.cnf l P)
        (s.decompositions.map (fun p σ => P p.1 σ ∧ Q p.2 σ) ++ [P s, Q s])
        (terms ++ [litAt xs s, litAt ys s]) :=
      List.rel_append (List.forall₂_map_left_iff.2 hterms) (.cons ((hxs s (has_of_mem hs)).mono hle')
        (.cons ((hys s (has_of_mem hs)).mono hle') .nil))
    refine (does_any (K := fun P => P) h₄.valid hlits).imp fun l e' _ hl => hl.congr fun σ _ => ?_
    rw [if_pos rfl, Meaning.Joined, ← hfused]
    simp only [List.mem_append, List.mem_map, List.mem_cons, List.not_mem_nil, or_false, or_and_right,
      exists_or, exists_eq_left, exists_exists_and_eq_and]
    exact or_comm

section ground

variable {R S : State → (Nat → Bool) → Prop} {c d : ContentLits}

theorem does_subset (he : g.Valid e) (hxs : g.Shows e.draft.cnf xs P) (hys : g.Shows e.draft.cnf ys Q) :
    g.Does (g.frame.space.states.mapM fun s => any [(litAt xs s).neg, litAt ys s]) e fun f ls =>
      List.Forall₂ (fun s l => g.basis.Denotes f l fun σ => P s σ → Q s σ) g.frame.space.states ls := by
  refine does_mapM (K := fun s f l => g.basis.Denotes f l fun σ => P s σ → Q s σ) he
    (fun s f h l hfh hl => hl.mono hfh) fun s hs e₁ h₁ => ?_
  have hs' := has_of_mem hs
  refine (does_anyOf [fun σ => ¬ P s σ, Q s] h₁.valid
    (.cons ((hxs s hs').mono h₁.le).neg (.cons ((hys s hs').mono h₁.le) .nil))).imp
    fun l e₂ _ hl => hl.congr fun σ _ => ?_
  simp [imp_iff_not_or]

theorem does_absorb (he : g.Valid e) (hxs : g.Shows e.draft.cnf xs P) (hys : g.Shows e.draft.cnf ys Q) :
    g.Does (g.frame.space.states.mapM fun x => do
      checkDeadline
      g.frame.space.states.mapM fun y => any [(litAt xs x).neg, (litAt ys y).neg, litAt ys (x.fusion y)])
      e fun f ls => List.Forall₂ (fun x => List.Forall₂ (fun y l => g.basis.Denotes f l fun σ =>
        P x σ → Q y σ → Q (x.fusion y) σ) g.frame.space.states) g.frame.space.states ls := by
  refine does_mapM (K := fun x f => List.Forall₂ (fun y l => g.basis.Denotes f l fun σ =>
      P x σ → Q y σ → Q (x.fusion y) σ) g.frame.space.states) he
    (fun s f h ls hfh hls => hls.imp fun _ _ hl => hl.mono hfh) fun x hx e₁ h₁ => ?_
  refine (does_checkDeadline h₁.valid).bind fun _ e₂ h₂ _ => ?_
  refine does_mapM (K := fun y f l => g.basis.Denotes f l fun σ => P x σ → Q y σ → Q (x.fusion y) σ)
    h₂.valid (fun s f h l hfh hl => hl.mono hfh) fun y hy e₃ h₃ => ?_
  have hle := Cnf.le_trans h₁.le (Cnf.le_trans h₂.le h₃.le)
  have hx' := has_of_mem hx
  have hy' := has_of_mem hy
  refine (does_anyOf [fun σ => ¬ P x σ, fun σ => ¬ Q y σ, Q (x.fusion y)] h₃.valid
    (.cons ((hxs x hx').mono hle).neg (.cons ((hys y hy').mono hle).neg
      (.cons ((hys _ (hx'.fusion hy')).mono hle) .nil)))).imp fun l e₄ _ hl => hl.congr fun σ _ => ?_
  simp [imp_iff_not_or]

theorem does_cover (he : g.Valid e) (hxs : g.Shows e.draft.cnf xs P) (hys : g.Shows e.draft.cnf ys Q) :
    g.Does (g.frame.space.states.mapM fun y => any ((litAt ys y).neg :: y.parts.map (litAt xs))) e
      fun f ls => List.Forall₂ (fun y l => g.basis.Denotes f l fun σ =>
        Q y σ → ∃ x, P x σ ∧ x.isPartOf y = true) g.frame.space.states ls := by
  refine does_mapM (K := fun y f l => g.basis.Denotes f l fun σ =>
      Q y σ → ∃ x, P x σ ∧ x.isPartOf y = true) he
    (fun s f h l hfh hl => hl.mono hfh) fun y hy e₁ h₁ => ?_
  have hy' := has_of_mem hy
  have hparts : List.Forall₂ (fun P l => g.basis.Denotes e₁.draft.cnf l P)
      (y.parts.map fun x => P x) (y.parts.map (litAt xs)) := by
    rw [List.forall₂_map_left_iff, List.forall₂_map_right_iff, List.forall₂_same]
    exact fun x hx => (hxs x (hy'.part (State.mem_parts.1 hx))).mono h₁.le
  refine (does_any (K := fun P => P) h₁.valid (.cons ((hys y hy').mono h₁.le).neg hparts)).imp
    fun l e₂ _ hl => hl.congr fun σ _ => ?_
  rw [imp_iff_not_or, List.exists_mem_cons_iff]
  simp only [List.mem_map, exists_exists_and_eq_and, State.mem_parts]
  exact or_congr_right (exists_congr fun x => and_comm)

/-- The conditions of ground, each asked of every state. -/
theorem does_grounds (he : g.Valid e)
    (hcv : g.Shows e.draft.cnf c.ver P) (hcf : g.Shows e.draft.cnf c.fal Q)
    (hdv : g.Shows e.draft.cnf d.ver R) (hdf : g.Shows e.draft.cnf d.fal S)
    (hP : ∀ s σ, g.basis.holds σ → P s σ → s ∈ g.frame.space.states)
    (hQ : ∀ s σ, g.basis.holds σ → Q s σ → s ∈ g.frame.space.states)
    (hS : ∀ s σ, g.basis.holds σ → S s σ → s ∈ g.frame.space.states) :
    g.Does (grounds c d) e fun f l => g.basis.Denotes f l fun σ =>
      Meaning.Grounds (P · σ) (Q · σ) (R · σ) (S · σ) := by
  unfold grounds
  refine (does_states he).bind fun states e₁ h₁ hstates => ?_
  subst hstates
  refine (does_subset h₁.valid (hcv.mono h₁.le) (hdv.mono h₁.le)).bind fun verifiers e₂ h₂ hverifiers => ?_
  have hle₂ := Cnf.le_trans h₁.le h₂.le
  refine (does_absorb h₂.valid (hcf.mono hle₂) (hdf.mono hle₂)).bind fun fused e₃ h₃ hfused => ?_
  have hle₃ := Cnf.le_trans hle₂ h₃.le
  refine (does_cover h₃.valid (hcf.mono hle₃) (hdf.mono hle₃)).bind fun covered e₄ h₄ hcovered => ?_
  have hlits : List.Forall₂ (fun P l => g.basis.Denotes e₄.draft.cnf l P)
      (g.frame.space.states.map (fun s σ => P s σ → R s σ) ++
        (g.frame.space.states.map fun x => g.frame.space.states.map fun y σ =>
          Q x σ → S y σ → S (x.fusion y) σ).flatten ++
        g.frame.space.states.map fun y σ => S y σ → ∃ x, Q x σ ∧ x.isPartOf y = true)
      (verifiers ++ fused.flatten ++ covered) := by
    refine List.rel_append (List.rel_append ?_ (List.rel_flatten ?_)) (List.forall₂_map_left_iff.2 hcovered)
    · exact List.forall₂_map_left_iff.2 (hverifiers.imp fun _ _ hl => hl.mono (Cnf.le_trans h₃.le h₄.le))
    · exact List.forall₂_map_left_iff.2 (hfused.imp fun _ _ hls =>
        List.forall₂_map_left_iff.2 (hls.imp fun _ _ hl => hl.mono h₄.le))
  refine (does_all (K := fun P => P) h₄.valid hlits).imp fun l e₅ _ hl => hl.congr fun σ hσ => ?_
  rw [List.forall_mem_append, List.forall_mem_append, List.forall_mem_map, List.forall_mem_map,
    List.forall_mem_flatten, List.forall_mem_map, and_assoc]
  simp only [List.forall_mem_map]
  refine and_congr ⟨fun h s hs => h s (hP s σ hσ.1 hs) hs, fun h s _ => h s⟩ (and_congr ?_ ?_)
  · exact ⟨fun h x hx y hy => h x (hQ x σ hσ.1 hx) y (hS y σ hσ.1 hy) hx hy,
      fun h x _ y _ hx hy => h x hx y hy⟩
  · exact ⟨fun h y hy => h y (hS y σ hσ.1 hy) hy, fun h y _ => h y⟩

theorem does_identical (he : g.Valid e)
    (hcv : g.Shows e.draft.cnf c.ver P) (hcf : g.Shows e.draft.cnf c.fal Q)
    (hdv : g.Shows e.draft.cnf d.ver R) (hdf : g.Shows e.draft.cnf d.fal S) :
    g.Does (identical c d) e fun f l => g.basis.Denotes f l fun σ =>
      ∀ s ∈ g.frame.space.states, (P s σ ↔ R s σ) ∧ (Q s σ ↔ S s σ) := by
  unfold identical
  refine (does_states he).bind fun states e₁ h₁ hstates => ?_
  subst hstates
  refine (does_mapM (K := fun s f => List.Forall₂ (fun P l => g.basis.Denotes f l P)
      [fun σ => P s σ ↔ R s σ, fun σ => Q s σ ↔ S s σ]) h₁.valid
    (fun s f h ls hfh hls => hls.imp fun _ _ hl => hl.mono hfh) fun s hs e₂ h₂ => ?_).bind
    fun conditions e₂ h₂ hconditions => ?_
  · have hle := Cnf.le_trans h₁.le h₂.le
    have hs' := has_of_mem hs
    refine (does_same h₂.valid ((hcv s hs').mono hle) ((hdv s hs').mono hle)).bind fun l e₃ h₃ hl => ?_
    have hle' := Cnf.le_trans hle h₃.le
    refine (does_same h₃.valid ((hcf s hs').mono hle') ((hdf s hs').mono hle')).bind fun m e₄ h₄ hm => ?_
    exact .pure h₄.valid.grows (.cons (hl.mono h₄.le) (.cons hm .nil))
  have hlits : List.Forall₂ (fun P l => g.basis.Denotes e₂.draft.cnf l P)
      (g.frame.space.states.map fun s => [fun σ => P s σ ↔ R s σ, fun σ => Q s σ ↔ S s σ]).flatten
      conditions.flatten := List.rel_flatten (List.forall₂_map_left_iff.2 hconditions)
  refine (does_all (K := fun P => P) h₂.valid hlits).imp fun l e₃ _ hl => hl.congr fun σ _ => ?_
  rw [List.forall_mem_flatten, List.forall_mem_map]
  refine forall₂_congr fun s _ => ?_
  rw [List.forall_mem_cons, List.forall_mem_singleton]

end ground

end tables

/-- The literals of a formula denote its truth and its content. -/
structure Encodes (g : Foundation) (enc : Encoding) (a : Formula) : Prop where
  truth : ∀ w, g.Has w → ∀ e, g.Valid e → g.Does (enc.truth w) e fun f l =>
    g.basis.Denotes f l fun σ => (g.meaning a σ).Holds w
  content : ∀ w, g.Has w → ∀ e, g.Valid e → g.Does (enc.content w) e fun f c =>
    g.Conveys f c (g.meaning a) w

section operators

variable {truth : State → EncodeM Lit} {content : State → EncodeM ContentLits}

theorem encodes_ofBoth
    (htruth : ∀ w, g.Has w → ∀ e, g.Valid e → g.Does (truth w) e fun f l =>
      g.basis.Denotes f l fun σ => (g.meaning a σ).Holds w)
    (hcontent : ∀ w, g.Has w → ∀ e, g.Valid e → g.Does (content w) e fun f c =>
      g.Conveys f c (g.meaning a) w) : g.Encodes (.ofBoth a truth content) a where
  truth w hw _ he := does_memoTruth he fun e' => htruth w hw e'
  content w hw _ he := does_memoContent he fun e' => hcontent w hw e'

theorem does_contentOfTruth {P : (Nat → Bool) → Prop}
    (htruth : g.Does (truth w) e fun f l => g.basis.Denotes f l P) :
    g.Does (Encoding.contentOfTruth truth w) e fun f c => (g.Fills c.ver ∧ g.Fills c.fal) ∧
      (g.Shows f c.ver fun s σ => s = .null ∧ P σ) ∧ g.Shows f c.fal fun s σ => s = .null ∧ ¬ P σ := by
  unfold Encoding.contentOfTruth
  refine htruth.bind fun l e₁ h₁ hl => (does_constantTable h₁.valid false).bind fun none e₂ h₂ hnone => ?_
  have hset : ∀ {k : Lit} {Q : (Nat → Bool) → Prop}, g.basis.Denotes e₂.draft.cnf k Q →
      g.Shows e₂.draft.cnf (none.setIfInBounds 0 k) fun s σ => s = .null ∧ Q σ := by
    intro k Q hk s hs
    by_cases h0 : s.bits = 0
    · have hnull : s = .null := congrArg State.mk h0
      have hlit : litAt (none.setIfInBounds 0 k) s = k := by
        have hpos : 0 < none.size := hnone.1 ▸ g.frame.space.size_pos
        simp [litAt, Array.getD_eq_getD_getElem?, h0, hpos]
      rw [hlit]
      exact hk.congr fun σ _ => (and_iff_right hnull).symm
    · have hnull : s ≠ .null := fun h => h0 (congrArg State.bits h)
      have hlit : litAt (none.setIfInBounds 0 k) s = litAt none s := by
        simp [litAt, Array.getD_eq_getD_getElem?, Ne.symm h0]
      rw [hlit]
      exact (hnone.2 s hs).congr fun σ _ => by simp [hnull]
  have hfills : ∀ k : Lit, g.Fills (none.setIfInBounds 0 k) := fun k _ => by
    rw [Array.size_setIfInBounds, hnone.1]
  exact .pure h₂.valid.grows ⟨⟨hfills l, hfills l.neg⟩, hset (hl.mono h₂.le), hset (hl.mono h₂.le).neg⟩

/-- A formula whose content is made of its truth. -/
theorem encodes_ofTruth {P : State → (Nat → Bool) → Prop}
    (hP : ∀ σ, g.basis.holds σ → ∃ t : State → Except Failure Bool, g.meaning a σ = .ofTruth t ∧
      ∀ w, Gives (t w) fun v => v = true ↔ P w σ)
    (htruth : ∀ w, g.Has w → ∀ e, g.Valid e → g.Does (truth w) e fun f l =>
      g.basis.Denotes f l (P w)) : g.Encodes (.ofTruth a truth) a := by
  have hholds : ∀ w, g.Has w → ∀ e, g.Valid e → g.Does (memoTruth a truth w) e fun f l =>
      g.basis.Denotes f l fun σ => (g.meaning a σ).Holds w := by
    intro w hw e he
    refine does_memoTruth he fun e' he' => (htruth w hw e' he').imp fun l e'' _ hl => ?_
    refine hl.congr fun σ hσ => ?_
    obtain ⟨t, ht, hgives⟩ := hP σ hσ.1
    rw [ht]
    exact (Meaning.holds_ofTruth hgives w).symm
  refine ⟨hholds, fun w hw e he => does_memoContent he fun e' he' => ?_⟩
  refine (does_contentOfTruth (hholds w hw e' he')).imp fun c e'' _ hc => ⟨?_, ?_, hc.1.1, hc.1.2⟩
  · refine hc.2.1.congr fun s σ hσ => ?_
    obtain ⟨t, ht, hgives⟩ := hP σ hσ
    rw [ht, Meaning.verifies_ofTruth hgives, Meaning.holds_ofTruth hgives]
  · refine hc.2.2.congr fun s σ hσ => ?_
    obtain ⟨t, ht, hgives⟩ := hP σ hσ
    rw [ht, Meaning.falsifies_ofTruth hgives, Meaning.holds_ofTruth hgives]

theorem denotes_content {p : Atom} {c : ContentLits} (hc : g.valuation.meaning? p = some c)
    (he : g.Valid e) : g.Conveys e.draft.cnf c (g.meaning (.atom p)) w := by
  have htab := (g.tabled_of_meaning? hc).mono he.fits.numVars_le
  have hcontent : ∀ σ, (g.meaning (.atom p) σ).content w = .ok (g.frame.content σ c) := by
    intro σ
    show Except.ok ((g.model σ).atomContent p) = _
    rw [model, Frame.atomContent_reading, hc, Option.map_some, Option.getD_some]
  have hmem : ∀ {lits : Array Lit} {s : State} {σ : Nat → Bool}, g.Has s → g.basis.holds σ →
      ((litAt lits s).holds σ = true ↔ s ∈ g.frame.select σ lits) := fun hs hσ =>
    (Frame.mem_select.trans (and_iff_right ((g.mem_states hσ).2 hs))).symm
  refine ⟨fun s hs => ⟨htab.ver.var_lt hs, fun σ hσ => ?_⟩, fun s hs => ⟨htab.fal.var_lt hs, fun σ hσ => ?_⟩,
    fun _ => htab.ver.size, fun _ => htab.fal.size⟩
  · exact (hmem hs hσ.1).trans (Meaning.verifies_iff (hcontent σ)).symm
  · exact (hmem hs hσ.1).trans (Meaning.falsifies_iff (hcontent σ)).symm

theorem does_atomContent {p : Atom} {c : ContentLits} (hc : g.valuation.meaning? p = some c)
    (he : g.Valid e) : g.Does (atomContent p) e fun _ d => d = c := by
  unfold atomContent
  refine Writes.get ?_
  rw [he.valuation, hc]
  exact .pure he.grows rfl

theorem encodes_atom {p : Atom} {c : ContentLits} (hc : g.valuation.meaning? p = some c) :
    g.Encodes (.atom p) (.atom p) := by
  refine encodes_ofBoth (fun w hw e he => ?_) fun w hw e he => ?_
  · refine (does_atomContent hc he).bind fun d e₁ h₁ hd => ?_
    subst hd
    refine (does_mapM (K := fun s f l => g.basis.Denotes f l fun σ => (g.meaning (.atom p) σ).Verifies w s)
      h₁.valid (fun s f h l hfh hl => hl.mono hfh) fun s hs e₂ h₂ => ?_).bind fun ls e₂ h₂ hls => ?_
    · have hs' := hw.part (State.mem_parts.1 hs)
      refine .of_run (a := litAt d.ver s) ?_ h₂.valid.grows ((denotes_content hc h₂.valid).ver s hs')
      unfold checkedAt
      rw [(g.tabled_of_meaning? hc).ver.read hs']
      rfl
    · refine (does_any h₂.valid hls).imp fun l e₃ _ hl => hl.congr fun σ _ => ?_
      have hholds : (g.meaning (.atom p) σ).Holds w ↔
          ∃ s ∈ ((g.model σ).atomContent p).ver.elems, s.isPartOf w = true := by
        show Except.ok _ = Except.ok true ↔ _
        rw [Except.ok.injEq, List.any_eq_true]
      have hver : ∀ s, (g.meaning (.atom p) σ).Verifies w s ↔ s ∈ ((g.model σ).atomContent p).ver :=
        fun s => Meaning.verifies_iff rfl
      simp only [hholds, hver, State.mem_parts, StateSet.mem_def]
      exact exists_congr fun s => and_comm
  · refine (does_atomContent hc he).imp fun d e₁ h₁ hd => ?_
    subst hd
    exact denotes_content hc h₁.valid

theorem encodes_constant {value : Bool}
    (ha : ∀ σ, g.basis.holds σ → ∀ w, ((g.meaning a σ).Holds w ↔ value = true) ∧
      ∀ s, g.Has s → ((g.meaning a σ).Verifies w s ↔ value = true) ∧
        ((g.meaning a σ).Falsifies w s ↔ (!value) = true)) : g.Encodes (.verum a value) a := by
  refine encodes_ofBoth (fun w _ e he => ?_) fun w _ e he => ?_
  · exact (does_constant he value).imp fun l e₁ _ hl => hl.congr fun σ hσ => (ha σ hσ.1 w).1.symm
  · refine (does_constantTable he value).bind fun ver e₁ h₁ hver =>
      (does_constantTable h₁.valid !value).bind fun fal e₂ h₂ hfal =>
        .pure h₂.valid.grows ⟨?_, ?_, fun _ => hver.1, fun _ => hfal.1⟩
    · exact fun s hs => ((hver.2 s hs).mono h₂.le).congr fun σ hσ => ((ha σ hσ.1 w).2 s hs).1.symm
    · exact fun s hs => (hfal.2 s hs).congr fun σ hσ => ((ha σ hσ.1 w).2 s hs).2.symm

variable {letters : List Atom} {A B : Encoding}

section

variable (hp : ∀ σ, g.basis.holds σ → (g.meaning a σ).Total) (ha : g.Encodes A a)
include hp ha

theorem encodes_neg : g.Encodes (.neg (.unary .neg a) A) (.unary .neg a) := by
  refine encodes_ofBoth (fun w hw e he => ?_) fun w hw e he => ?_
  · refine (ha.truth w hw e he).bind fun l e₁ h₁ hl => .pure h₁.valid.grows (hl.neg.congr fun σ hσ => ?_)
    exact (Meaning.holds_neg (hp σ hσ.1) w).symm
  · refine (ha.content w hw e he).bind fun c e₁ h₁ hc =>
      .pure h₁.valid.grows ⟨?_, ?_, hc.fal_fills, hc.ver_fills⟩
    · exact hc.fal.congr fun s σ hσ => (Meaning.verifies_neg (hp σ hσ) w s).symm
    · exact hc.ver.congr fun s σ hσ => (Meaning.falsifies_neg (hp σ hσ) w s).symm

theorem encodes_box : g.Encodes (.box (.unary .box a) A) (.unary .box a) := by
  refine encodes_ofTruth (P := fun _ σ => ∀ u ∈ (g.model σ).worlds, (g.meaning a σ).Holds u)
    (fun σ hσ => ⟨_, rfl, Meaning.truth_box (countable hσ) (hp σ hσ)⟩) fun w _ e he => ?_
  refine (does_frame he).bind fun F e₁ h₁ hF => ?_
  subst hF
  refine (does_mapM (K := fun u f l => g.basis.Denotes f l fun σ =>
      u ∈ (g.model σ).worlds → (g.meaning a σ).Holds u) h₁.valid (fun u f h l hfh hl => hl.mono hfh)
    fun u hu e₂ h₂ => ?_).bind fun ls e₂ h₂ hls => ?_
  · have hu' := has_of_mem hu
    refine (ha.truth u hu' e₂ h₂.valid).bind fun l e₃ h₃ hl => ?_
    refine (does_anyOf [fun σ => u ∉ (g.model σ).worlds,
      fun σ => (g.meaning a σ).Holds u] h₃.valid
      (.cons (denotes_isWorld h₃.valid hu').neg (.cons hl .nil))).imp fun k e₄ _ hk => hk.congr fun σ _ => ?_
    simp [imp_iff_not_or]
  · refine (does_all h₂.valid hls).imp fun l e₃ _ hl => hl.congr fun σ hσ => ?_
    exact ⟨fun h u hu => h u (Model.mem_worlds.1 hu).1 hu, fun h u _ => h u⟩

theorem encodes_diamond : g.Encodes (.diamond (.unary .diamond a) A) (.unary .diamond a) := by
  refine encodes_ofTruth (P := fun _ σ => ∃ u ∈ (g.model σ).worlds, (g.meaning a σ).Holds u)
    (fun σ hσ => ⟨_, rfl, Meaning.truth_diamond (countable hσ) (hp σ hσ)⟩) fun w _ e he => ?_
  refine (does_frame he).bind fun F e₁ h₁ hF => ?_
  subst hF
  refine (does_mapM (K := fun u f l => g.basis.Denotes f l fun σ =>
      u ∈ (g.model σ).worlds ∧ (g.meaning a σ).Holds u) h₁.valid (fun u f h l hfh hl => hl.mono hfh)
    fun u hu e₂ h₂ => ?_).bind fun ls e₂ h₂ hls => ?_
  · have hu' := has_of_mem hu
    refine (ha.truth u hu' e₂ h₂.valid).bind fun l e₃ h₃ hl => ?_
    refine (does_allOf [fun σ => u ∈ (g.model σ).worlds,
      fun σ => (g.meaning a σ).Holds u] h₃.valid
      (.cons (denotes_isWorld h₃.valid hu') (.cons hl .nil))).imp fun k e₄ _ hk => hk.congr fun σ _ => ?_
    simp
  · refine (does_any h₂.valid hls).imp fun l e₃ _ hl => hl.congr fun σ hσ => ?_
    exact ⟨fun h => by obtain ⟨u, _, hu⟩ := h; exact ⟨u, hu⟩,
      fun h => by obtain ⟨u, hu⟩ := h; exact ⟨u, (Model.mem_worlds.1 hu.1).1, hu⟩⟩

end

section binary

/-- The contents of both sides. -/
theorem does_contents (ha : g.Encodes A a) (hb : g.Encodes B b) (hw : g.Has w) (he : g.Valid e) {α : Type} {Q : Cnf → α → Prop}
    {k : ContentLits → ContentLits → EncodeM α}
    (hk : ∀ c d e', g.Valid e' → g.Conveys e'.draft.cnf c (g.meaning a) w →
      g.Conveys e'.draft.cnf d (g.meaning b) w → g.Does (k c d) e' Q) :
    g.Does (do k (← A.content w) (← B.content w)) e Q :=
  (ha.content w hw e he).bind fun c e₁ h₁ hc => (hb.content w hw e₁ h₁.valid).bind fun d e₂ h₂ hd =>
    hk c d e₂ h₂.valid (hc.mono h₂.le) hd

theorem does_someOutcome (ha : g.Encodes A a) (hb : g.Encodes B b) (hw : g.Has w) (he : g.Valid e) (value : Bool) :
    g.Does (Encoding.someOutcome A B value w) e fun f l => g.basis.Denotes f l fun σ =>
      ∃ x, (g.meaning a σ).Verifies w x ∧ ∃ u ∈ (g.model σ).alternatives w x,
        ((g.meaning b σ).Holds u ↔ value = true) := by
  unfold Encoding.someOutcome
  refine (ha.content w hw e he).bind fun c e₁ h₁ hc => ?_
  refine (does_constant h₁.valid false).bind fun impossible e₂ h₂ himpossible => ?_
  refine (does_states h₂.valid).bind fun states e₃ h₃ hstates => ?_
  subst hstates
  have hc₃ := hc.mono (Cnf.le_trans h₂.le h₃.le)
  refine (does_mapM (K := fun u f => List.Forall₂ (fun x l => g.basis.Denotes f l fun σ =>
      (g.meaning a σ).Verifies w x ∧ u ∈ (g.model σ).alternatives w x ∧
        ((g.meaning b σ).Holds u ↔ value = true))
      (u.parts.filter fun x => litAt c.ver x ≠ impossible)) h₃.valid
    (fun s f h ls hfh hls => hls.imp fun _ _ hl => hl.mono hfh) fun u hu e₄ h₄ => ?_).bind
    fun cases e₄ h₄ hcases => ?_
  · have hu' := has_of_mem hu
    refine (does_checkDeadline h₄.valid).bind fun _ e₅ h₅ _ => ?_
    refine (hb.truth u hu' e₅ h₅.valid).bind fun l e₆ h₆ hl => ?_
    have hflip : g.basis.Denotes e₆.draft.cnf (l.flip !value) fun σ =>
        (g.meaning b σ).Holds u ↔ value = true := by
      cases value with
      | true => exact hl.congr fun σ _ => by simp
      | false => exact hl.neg.congr fun σ _ => by simp
    refine does_mapM (K := fun x f l => g.basis.Denotes f l fun σ =>
        (g.meaning a σ).Verifies w x ∧ u ∈ (g.model σ).alternatives w x ∧
          ((g.meaning b σ).Holds u ↔ value = true)) h₆.valid
      (fun s f h l hfh hl => hl.mono hfh) fun x hx e₇ h₇ => ?_
    have hxu := State.mem_parts.1 (List.mem_filter.1 hx).1
    refine (does_alternative h₇.valid hw hu' hxu).bind fun m e₈ h₈ hm => ?_
    have hle := Cnf.le_trans h₄.le (Cnf.le_trans h₅.le (Cnf.le_trans h₆.le (Cnf.le_trans h₇.le h₈.le)))
    refine (does_allOf [fun σ => (g.meaning a σ).Verifies w x,
      fun σ => u ∈ (g.model σ).alternatives w x, fun σ => (g.meaning b σ).Holds u ↔ value = true] h₈.valid
      (.cons ((hc₃.ver x (hu'.part hxu)).mono hle) (.cons hm
        (.cons (hflip.mono (Cnf.le_trans h₇.le h₈.le)) .nil)))).imp fun k e₉ _ hk => hk.congr fun σ _ => ?_
    simp
  have hlits : List.Forall₂ (fun P l => g.basis.Denotes e₄.draft.cnf l P)
      (g.frame.space.states.map fun u => (u.parts.filter fun x => litAt c.ver x ≠ impossible).map
        fun x σ => (g.meaning a σ).Verifies w x ∧ u ∈ (g.model σ).alternatives w x ∧
          ((g.meaning b σ).Holds u ↔ value = true)).flatten cases.flatten :=
    List.rel_flatten (List.forall₂_map_left_iff.2 (hcases.imp fun _ _ hls =>
      List.forall₂_map_left_iff.2 hls))
  refine (does_any (K := fun P => P) h₄.valid hlits).imp fun l e₅ h₅ hl => hl.congr fun σ hσ => ?_
  simp only [List.mem_flatten, List.mem_map, exists_exists_and_eq_and]
  constructor
  · rintro ⟨_, ⟨u, _, x, _, rfl⟩, hx, hu, hvalue⟩
    exact ⟨x, hx, u, hu, hvalue⟩
  · rintro ⟨x, hx, u, hu, hvalue⟩
    obtain ⟨hworld, hxu, -⟩ := Model.mem_alternatives.1 hu
    have hmem := (Model.mem_worlds.1 hworld).1
    refine ⟨_, ⟨u, hmem, x, List.mem_filter.2 ⟨State.mem_parts.2 hxu, decide_eq_true fun heq => ?_⟩, rfl⟩,
      hx, hu, hvalue⟩
    -- a verifier whose literal is the false one would make it true
    have hle := Cnf.le_trans h₄.le h₅.le
    have htrue := ((hc₃.ver x ((has_of_mem hmem).part hxu)).2 σ (hσ.mono hle)).2 hx
    rw [heq] at htrue
    cases (himpossible.2 σ (hσ.mono (Cnf.le_trans h₃.le hle))).1 htrue

variable (hpa : ∀ σ, g.basis.holds σ → (g.meaning a σ).Proper (g.model σ))
  (hpb : ∀ σ, g.basis.holds σ → (g.meaning b σ).Proper (g.model σ))
  (ha : g.Encodes A a) (hb : g.Encodes B b)
include hpa hpb ha hb

theorem encodes_and : g.Encodes (.and (.binary .and a b) A B) (.binary .and a b) := by
  refine encodes_ofBoth (fun w hw e he => ?_) fun w hw e he => ?_
  · refine (ha.truth w hw e he).bind fun l e₁ h₁ hl => (hb.truth w hw e₁ h₁.valid).bind fun m e₂ h₂ hm => ?_
    refine (does_allOf [fun σ => (g.meaning a σ).Holds w,
      fun σ => (g.meaning b σ).Holds w] h₂.valid (.cons (hl.mono h₂.le) (.cons hm .nil))).imp
      fun k e₃ _ hk => hk.congr fun σ hσ => Iff.trans (by simp) (Meaning.holds_and (hpa σ hσ.1).toTotal
        (hpb σ hσ.1).toTotal w).symm
  · refine (ha.content w hw e he).bind fun c e₁ h₁ hc => (hb.content w hw e₁ h₁.valid).bind fun d e₂ h₂ hd => ?_
    have hc := hc.mono h₂.le
    refine (does_fusions h₂.valid hc.ver hd.ver false).bind fun ver e₃ h₃ hver => ?_
    refine (does_fusions h₃.valid (hc.fal.mono h₃.le) (hd.fal.mono h₃.le) true).bind fun fal e₄ h₄ hfal =>
      .pure h₄.valid.grows ⟨(hver.2.mono h₄.le).congr fun s σ hσ => ?_, hfal.2.congr fun s σ hσ => ?_,
        hver.1, hfal.1⟩
    · exact Iff.trans (by simp) (Meaning.verifies_and (hpa σ hσ).toTotal (hpb σ hσ).toTotal w s).symm
    · exact Iff.trans (by simp) (Meaning.falsifies_and (hpa σ hσ).toTotal (hpb σ hσ).toTotal w s).symm

theorem encodes_or : g.Encodes (.or (.binary .or a b) A B) (.binary .or a b) := by
  refine encodes_ofBoth (fun w hw e he => ?_) fun w hw e he => ?_
  · refine (ha.truth w hw e he).bind fun l e₁ h₁ hl => (hb.truth w hw e₁ h₁.valid).bind fun m e₂ h₂ hm => ?_
    refine (does_anyOf [fun σ => (g.meaning a σ).Holds w,
      fun σ => (g.meaning b σ).Holds w] h₂.valid (.cons (hl.mono h₂.le) (.cons hm .nil))).imp
      fun k e₃ _ hk => hk.congr fun σ hσ => Iff.trans (by simp) (Meaning.holds_or (hpa σ hσ.1).toTotal
        (hpb σ hσ.1).toTotal w).symm
  · refine (ha.content w hw e he).bind fun c e₁ h₁ hc => (hb.content w hw e₁ h₁.valid).bind fun d e₂ h₂ hd => ?_
    have hc := hc.mono h₂.le
    refine (does_fusions h₂.valid hc.ver hd.ver true).bind fun ver e₃ h₃ hver => ?_
    refine (does_fusions h₃.valid (hc.fal.mono h₃.le) (hd.fal.mono h₃.le) false).bind fun fal e₄ h₄ hfal =>
      .pure h₄.valid.grows ⟨(hver.2.mono h₄.le).congr fun s σ hσ => ?_, hfal.2.congr fun s σ hσ => ?_,
        hver.1, hfal.1⟩
    · exact Iff.trans (by simp) (Meaning.verifies_or (hpa σ hσ).toTotal (hpb σ hσ).toTotal w s).symm
    · exact Iff.trans (by simp) (Meaning.falsifies_or (hpa σ hσ).toTotal (hpb σ hσ).toTotal w s).symm

theorem encodes_ground : g.Encodes (.ground (.binary .ground a b) A B) (.binary .ground a b) :=
  encodes_ofTruth (fun σ hσ => ⟨_, rfl, Meaning.truth_ground (hpa σ hσ).toTotal (hpb σ hσ).toTotal⟩) fun w hw _ he =>
    does_contents ha hb hw he fun _ _ _ h₁ hc hd =>
      does_grounds h₁ hc.ver hc.fal hd.ver hd.fal (fun s σ hσ => (hpa σ hσ).verifier w s)
        (fun s σ hσ => (hpa σ hσ).falsifier w s) (fun s σ hσ => (hpb σ hσ).falsifier w s)

theorem encodes_essence : g.Encodes (.essence (.binary .essence a b) A B) (.binary .essence a b) :=
  encodes_ofTruth (fun σ hσ => ⟨_, rfl, Meaning.truth_essence (hpa σ hσ).toTotal (hpb σ hσ).toTotal⟩) fun w hw _ he =>
    does_contents ha hb hw he fun c d _ h₁ hc hd =>
      does_grounds (c := c.swapped) (d := d.swapped) h₁ hc.fal hc.ver hd.fal hd.ver
        (fun s σ hσ => (hpa σ hσ).falsifier w s) (fun s σ hσ => (hpa σ hσ).verifier w s)
        (fun s σ hσ => (hpb σ hσ).verifier w s)

theorem encodes_identity : g.Encodes (.identity (.binary .identity a b) A B) (.binary .identity a b) := by
  refine encodes_ofTruth
    (fun σ hσ => ⟨_, rfl, Meaning.truth_identity (hpa σ hσ).toTotal (hpb σ hσ).toTotal⟩) fun w hw e he =>
      does_contents ha hb hw he fun c d e₁ h₁ hc hd =>
        (does_identical h₁ hc.ver hc.fal hd.ver hd.fal).imp fun l e₂ _ hl => hl.congr fun σ hσ => ?_
  -- outside the space neither side has a verifier or a falsifier
  refine ⟨fun h s => ?_, fun h s _ => h s⟩
  by_cases hs : s ∈ g.frame.space.states
  · exact h s hs
  · have hpa' := hpa σ hσ.1
    have hpb' := hpb σ hσ.1
    exact ⟨⟨fun h => absurd (hpa'.verifier w s h) hs, fun h => absurd (hpb'.verifier w s h) hs⟩,
      ⟨fun h => absurd (hpa'.falsifier w s h) hs, fun h => absurd (hpb'.falsifier w s h) hs⟩⟩

theorem encodes_boxRight :
    g.Encodes (.boxRight (.binary .boxRight a b) A B) (.binary .boxRight a b) := by
  refine encodes_ofTruth
    (fun σ hσ => ⟨_, rfl, Meaning.truth_boxRight (countable hσ) (hpa σ hσ).toTotal (hpb σ hσ).toTotal⟩) fun w hw e he => ?_
  refine (does_someOutcome ha hb hw he false).bind fun l e₁ h₁ hl =>
    .pure h₁.valid.grows (hl.neg.congr fun σ _ => ?_)
  simp [meaning]

theorem encodes_diamondRight :
    g.Encodes (.diamondRight (.binary .diamondRight a b) A B) (.binary .diamondRight a b) := by
  refine encodes_ofTruth
    (fun σ hσ => ⟨_, rfl, Meaning.truth_diamondRight (countable hσ) (hpa σ hσ).toTotal (hpb σ hσ).toTotal⟩) fun w hw e he => ?_
  exact (does_someOutcome ha hb hw he true).imp fun l e₁ h₁ hl => hl.congr fun σ _ => by simp [meaning]

end binary

end operators

/-- The literals of every formula over the primitive operators denote its truth and its content. -/
theorem encodes_sentence {letters : List Atom}
    (hletters : ∀ p ∈ letters, ∃ c, g.valuation.meaning? p = some c) (ha : Sentence letters a) :
    g.Encodes (encode a) a := by
  have hproper : ∀ {b}, Sentence letters b → ∀ σ, g.basis.holds σ → (g.meaning b σ).Proper (g.model σ) :=
    fun hb σ hσ => proper hb hσ
  have htotal : ∀ {b}, Sentence letters b → ∀ σ, g.basis.holds σ → (g.meaning b σ).Total :=
    fun hb σ hσ => (proper hb hσ).toTotal
  induction ha with
  | @atom p hp =>
    obtain ⟨c, hc⟩ := hletters p hp
    exact encodes_atom hc
  | top =>
    refine encodes_constant fun σ hσ w => ⟨⟨fun _ => rfl, fun _ => rfl⟩, fun s hs => ?_⟩
    have hc : (g.meaning .top σ).content w = .ok ⟨.ofSpace (g.model σ).space, .empty⟩ :=
      Meaning.ofFault_counting (countable hσ) _
    have hmem : s ∈ (g.model σ).space.states := (g.mem_states hσ).2 hs
    rw [Meaning.verifies_iff hc, Meaning.falsifies_iff hc]
    simp [hmem, -StateSpace.mem_states]
  | bot =>
    refine encodes_constant fun σ hσ w => ⟨⟨fun h => ?_, fun h => ?_⟩, fun s hs => ?_⟩
    · cases h
    · cases h
    have hc : (g.meaning .bot σ).content w = .ok ⟨.empty, .ofSpace (g.model σ).space⟩ :=
      Meaning.ofFault_counting (countable hσ) _
    have hmem : s ∈ (g.model σ).space.states := (g.mem_states hσ).2 hs
    rw [Meaning.verifies_iff hc, Meaning.falsifies_iff hc]
    simp [hmem, -StateSpace.mem_states]
  | neg ha iha => exact encodes_neg (htotal ha) iha
  | box ha iha => exact encodes_box (htotal ha) iha
  | diamond ha iha => exact encodes_diamond (htotal ha) iha
  | and ha hb iha ihb => exact encodes_and (hproper ha) (hproper hb) iha ihb
  | or ha hb iha ihb => exact encodes_or (hproper ha) (hproper hb) iha ihb
  | boxRight ha hb iha ihb => exact encodes_boxRight (hproper ha) (hproper hb) iha ihb
  | diamondRight ha hb iha ihb => exact encodes_diamondRight (hproper ha) (hproper hb) iha ihb
  | ground ha hb iha ihb => exact encodes_ground (hproper ha) (hproper hb) iha ihb
  | essence ha hb iha ihb => exact encodes_essence (hproper ha) (hproper hb) iha ihb
  | identity ha hb iha ihb => exact encodes_identity (hproper ha) (hproper hb) iha ihb

end Countermodels.Truthmaker.Foundation
