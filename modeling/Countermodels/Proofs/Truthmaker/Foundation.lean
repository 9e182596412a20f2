import Countermodels.Proofs.Draft
import Countermodels.Proofs.Formula.Valuation
import Countermodels.Proofs.Truthmaker.Frame
import Countermodels.Truthmaker.Encoder

/-! The state of the encoder. It rests on a frame and on contents for the letters; every literal it has
written, and every one it keeps for later use, denotes what it was written for in the model that an
assignment describes. -/

namespace Countermodels.Truthmaker

/-- What formulas are written on: a frame and contents for letters, a condition under which the frame is as
it should be, and a deadline. -/
structure Foundation where
  basis : Basis
  deadline : Deadline
  frame : Frame
  valuation : Valuation ContentLits
  known : frame.Known basis.numVars
  tabled : ∀ p ∈ valuation, p.2.Tabled frame.space basis.numVars
  realized : ∀ σ, basis.holds σ → frame.Realized σ

namespace Foundation

/-- The state is one for which the tables have an entry. -/
def Has (g : Foundation) (s : State) : Prop := s.bits < g.frame.space.size

def model (g : Foundation) (σ : Nat → Bool) : Model := g.frame.reading g.valuation σ

def meaning (g : Foundation) (f : Formula) (σ : Nat → Bool) : Meaning := (g.model σ).meaning f

variable {g : Foundation} {s t w x z u : State} {f h : Cnf} {σ : Nat → Bool}

theorem has_of_mem (hs : s ∈ g.frame.space.states) : g.Has s := (StateSpace.mem_states.1 hs).2

theorem Has.fusion (hs : g.Has s) (ht : g.Has t) : g.Has (s.fusion t) := StateSpace.fusion_lt hs ht

theorem Has.part (hs : g.Has s) (ht : t.isPartOf s = true) : g.Has t := StateSpace.lt_of_isPartOf ht hs

theorem tabled_of_meaning? {a : Atom} {c : ContentLits} (h : g.valuation.meaning? a = some c) :
    c.Tabled g.frame.space g.basis.numVars := g.tabled (a, c) (Valuation.mem_of_meaning? h)

theorem has_null (g : Foundation) : g.Has .null := g.frame.space.size_pos

theorem n_lt (hσ : g.basis.holds σ) : (g.model σ).space.n < 32 := (g.realized σ hσ).n_lt g.known

theorem countable (hσ : g.basis.holds σ) : (g.model σ).space.n < 64 := Nat.lt_trans (g.n_lt hσ) (by decide)

theorem mem_states (hσ : g.basis.holds σ) : s ∈ g.frame.space.states ↔ g.Has s :=
  (g.realized σ hσ).mem_states_iff g.known

theorem proper {letters : List Atom} {a : Formula} (ha : Sentence letters a) (hσ : g.basis.holds σ) :
    (g.meaning a σ).Proper (g.model σ) :=
  Model.proper_of_sentence (n_lt hσ) (Frame.located_reading g.frame g.valuation σ) ha

/-- The literal of each state denotes a condition on the state. -/
def Shows (g : Foundation) (f : Cnf) (lits : Array Lit) (P : State → (Nat → Bool) → Prop) : Prop :=
  ∀ s, g.Has s → g.basis.Denotes f (litAt lits s) (P s)

theorem Shows.mono {lits : Array Lit} {P : State → (Nat → Bool) → Prop} (hl : g.Shows f lits P)
    (hfh : f ≤ h) : g.Shows h lits P := fun s hs => (hl s hs).mono hfh

theorem Shows.congr {lits : Array Lit} {P Q : State → (Nat → Bool) → Prop} (hl : g.Shows f lits P)
    (hPQ : ∀ s σ, g.basis.holds σ → (P s σ ↔ Q s σ)) : g.Shows f lits Q :=
  fun s hs => (hl s hs).congr fun σ hσ => hPQ s σ hσ.1

/-- A table has just one literal for each state, where the states can be listed. -/
def Fills (g : Foundation) (lits : Array Lit) : Prop :=
  g.frame.space.n < 32 → lits.size = g.frame.space.size

/-- The tables of a content show the verifiers and falsifiers of a meaning at a state. -/
structure Conveys (g : Foundation) (f : Cnf) (c : ContentLits) (A : (Nat → Bool) → Meaning)
    (w : State) : Prop where
  ver : g.Shows f c.ver fun s σ => (A σ).Verifies w s
  fal : g.Shows f c.fal fun s σ => (A σ).Falsifies w s
  ver_fills : g.Fills c.ver
  fal_fills : g.Fills c.fal

theorem Conveys.mono {c : ContentLits} {A : (Nat → Bool) → Meaning} (hc : g.Conveys f c A w)
    (hfh : f ≤ h) : g.Conveys h c A w := ⟨hc.ver.mono hfh, hc.fal.mono hfh, hc.ver_fills, hc.fal_fills⟩

/-- Where the truth of a formula is kept. -/
def truthKey (a : Formula) (w : State) : Formula × Option State :=
  (a, if a.isRigid then none else some w)

/-- Where the content of a formula is kept. -/
def contentKey (a : Formula) (w : State) : Formula × Option State :=
  (a, if a.isWorldDependent then some w else none)

/-- Formulas that are kept at one place have one truth value. -/
theorem holds_congr_of_truthKey {a b : Formula} (h : truthKey a w = truthKey b u) (σ : Nat → Bool) :
    (g.meaning a σ).Holds w ↔ (g.meaning b σ).Holds u := by
  obtain ⟨rfl, hkey⟩ := Prod.mk.inj h
  rw [Meaning.Holds, Meaning.Holds]
  cases hr : a.isRigid with
  | true => rw [meaning, Model.truth_rigid hr w u]
  | false =>
    rw [hr] at hkey
    cases hkey
    rfl

theorem content_congr_of_contentKey {a b : Formula} (h : contentKey a w = contentKey b u)
    (σ : Nat → Bool) : (g.meaning a σ).content w = (g.meaning b σ).content u := by
  obtain ⟨rfl, hkey⟩ := Prod.mk.inj h
  cases hd : a.isWorldDependent with
  | false => exact Model.content_fixed hd w u
  | true =>
    rw [hd] at hkey
    cases hkey
    rfl

/-- All that the encoder keeps is what it should be. -/
structure Valid (g : Foundation) (e : Encoder) : Prop where
  frame : e.frame = g.frame
  valuation : e.valuation = g.valuation
  fits : g.basis.Fits e.draft.cnf
  deadline : g.deadline.Same e.draft.deadline
  gates : e.gates.Valid g.basis e.draft.cnf
  parts : ∀ (z w x : State) (l : Lit), e.parts[(z, w, x)]? = some l →
    g.basis.Denotes e.draft.cnf l fun σ => z ∈ (g.model σ).maximalCompatibleParts w x
  alternatives : ∀ (w x u : State) (l : Lit), e.alternatives[(w, x, u)]? = some l →
    g.basis.Denotes e.draft.cnf l fun σ => u ∈ (g.model σ).alternatives w x
  truths : ∀ (a : Formula) (w : State) (l : Lit), e.truths[truthKey a w]? = some l →
    g.basis.Denotes e.draft.cnf l fun σ => (g.meaning a σ).Holds w
  contents : ∀ (a : Formula) (w : State) (c : ContentLits), e.contents[contentKey a w]? = some c →
    g.Conveys e.draft.cnf c (g.meaning a) w

/-- A later state of the encoder: nothing more is said of the variables that were there. -/
structure Grows (g : Foundation) (e e' : Encoder) : Prop where
  valid : g.Valid e'
  extend : g.basis.Extends e.draft.cnf e'.draft.cnf

instance : IsTrans Encoder g.Grows := ⟨fun _ _ _ h h' => ⟨h'.valid, h.extend.extend h'.extend⟩⟩

variable {e e' : Encoder}

theorem Valid.grows (he : g.Valid e) : g.Grows e e := ⟨he, .refl he.fits⟩

theorem Grows.le (h : g.Grows e e') : e.draft.cnf ≤ e'.draft.cnf := h.extend.le

/-- New clauses and gates leave what is kept as it should be. -/
theorem Valid.extend (he : g.Valid e) {gates : Gates} {cnf : Cnf} (hle : e.draft.cnf ≤ cnf)
    (hfits : g.basis.Fits cnf) (hgates : gates.Valid g.basis cnf) :
    g.Valid { e with gates, draft := { e.draft with cnf } } where
  frame := he.frame
  valuation := he.valuation
  fits := hfits
  deadline := he.deadline
  gates := hgates
  parts z w x l hl := (he.parts z w x l hl).mono hle
  alternatives w x u l hl := (he.alternatives w x u l hl).mono hle
  truths a w l hl := (he.truths a w l hl).mono hle
  contents a w c hc := (he.contents a w c hc).mono hle

/-- A computation of the encoder that succeeds unless the deadline comes, with a property of its result. -/
abbrev Does {α : Type} (g : Foundation) (m : EncodeM α) (e : Encoder) (P : Cnf → α → Prop) : Prop :=
  Writes g.deadline.Late g.Grows m e fun e' a => P e'.draft.cnf a

section steps

variable {α β : Type} {P : (Nat → Bool) → Prop}

theorem does_pure {a : α} {Q : Cnf → α → Prop} (he : g.Valid e) (h : Q e.draft.cnf a) :
    g.Does (Pure.pure a) e Q := .pure he.grows h

theorem does_frame (he : g.Valid e) : g.Does Encoder.frameM e fun _ F => F = g.frame :=
  ⟨he.grows, he.frame⟩

theorem does_states (he : g.Valid e) :
    g.Does Encoder.statesM e fun _ states => states = g.frame.space.states :=
  ⟨he.grows, congrArg (·.space.states) he.frame⟩

theorem does_constant (he : g.Valid e) (value : Bool) :
    g.Does (Encoder.constant value) e fun f l => g.basis.Denotes f l fun _ => value = true :=
  ⟨he.grows, he.gates.constant value⟩

theorem does_constantTable (he : g.Valid e) (value : Bool) :
    g.Does (Encoder.constantTable value) e fun f lits => lits.size = g.frame.space.size ∧
      g.Shows f lits fun _ _ => value = true := by
  refine .of_run (a := Array.replicate e.frame.space.size (e.gates.constant value)) rfl he.grows ⟨?_, ?_⟩
  · rw [Array.size_replicate, he.frame]
  · intro s hs
    have hlit : litAt (Array.replicate e.frame.space.size (e.gates.constant value)) s =
        e.gates.constant value := by
      have hlt : s.bits < e.frame.space.size := he.frame ▸ hs
      simp [litAt, Array.getD_eq_getD_getElem?, hlt]
    rw [hlit]
    exact he.gates.constant value

theorem does_checkDeadline (he : g.Valid e) : g.Does Encoder.checkDeadline e fun _ _ => True := by
  cases hpoll : e.draft.deadline.poll.1 with
  | false =>
    refine .of_run (a := ()) (t := { e with draft := { e.draft with deadline := e.draft.deadline.poll.2 } }) ?_
      ⟨{ he with deadline := he.deadline.poll }, .refl he.fits⟩ trivial
    simp [Encoder.checkDeadline, Encoder.lift, Draft.run_checkDeadline, hpoll]
  | true =>
    refine .of_error (t := { e with draft := { e.draft with deadline := e.draft.deadline.poll.2 } }) ?_
      (he.deadline.late hpoll)
    simp [Encoder.checkDeadline, Encoder.lift, Draft.run_checkDeadline, hpoll]

theorem does_gate {m : Gates → StateM Cnf (Lit × Gates)} (he : g.Valid e)
    (hm : Gates.Defines g.basis e.draft.cnf P (m e.gates e.draft.cnf)) :
    g.Does (Encoder.gate m) e fun f l => g.basis.Denotes f l P :=
  .of_run rfl ⟨he.extend hm.extend.le hm.extend.fits hm.valid, hm.extend⟩ hm.denotes

variable {ι : Type} {xs : List ι} {ls : List Lit} {K : ι → (Nat → Bool) → Prop}

/-- The conjunction of literals that denote something denotes its conjunction. -/
theorem does_all (he : g.Valid e)
    (h : List.Forall₂ (fun x l => g.basis.Denotes e.draft.cnf l (K x)) xs ls) :
    g.Does (Encoder.all ls) e fun f l => g.basis.Denotes f l fun σ => ∀ x ∈ xs, K x σ := by
  refine (does_gate he (Gates.and_defines he.gates he.fits (Basis.known_of_denotes h))).imp fun l e' hg hl => ?_
  exact hl.congr fun σ hσ => Basis.forall_holds_iff h (hσ.mono hg.le)

theorem does_any (he : g.Valid e)
    (h : List.Forall₂ (fun x l => g.basis.Denotes e.draft.cnf l (K x)) xs ls) :
    g.Does (Encoder.any ls) e fun f l => g.basis.Denotes f l fun σ => ∃ x ∈ xs, K x σ := by
  refine (does_gate he (Gates.or_defines he.gates he.fits (Basis.known_of_denotes h))).imp fun l e' hg hl => ?_
  exact hl.congr fun σ hσ => Basis.exists_holds_iff h (hσ.mono hg.le)

/-- The conjunction of literals that denote some conditions. -/
theorem does_allOf (Ps : List ((Nat → Bool) → Prop)) (he : g.Valid e)
    (h : List.Forall₂ (fun P l => g.basis.Denotes e.draft.cnf l P) Ps ls) :
    g.Does (Encoder.all ls) e fun f l => g.basis.Denotes f l fun σ => ∀ P ∈ Ps, P σ :=
  does_all (K := fun P => P) he h

theorem does_anyOf (Ps : List ((Nat → Bool) → Prop)) (he : g.Valid e)
    (h : List.Forall₂ (fun P l => g.basis.Denotes e.draft.cnf l P) Ps ls) :
    g.Does (Encoder.any ls) e fun f l => g.basis.Denotes f l fun σ => ∃ P ∈ Ps, P σ :=
  does_any (K := fun P => P) he h

theorem does_same (he : g.Valid e) {l m : Lit} {P Q : (Nat → Bool) → Prop}
    (hl : g.basis.Denotes e.draft.cnf l P) (hm : g.basis.Denotes e.draft.cnf m Q) :
    g.Does (Encoder.same l m) e fun f k => g.basis.Denotes f k fun σ => P σ ↔ Q σ := by
  refine (does_gate he (Gates.iff_defines he.gates he.fits hl.1 hm.1)).imp fun k e' hg hk => ?_
  refine hk.congr fun σ hσ => ?_
  rw [← hl.2 σ (hσ.mono hg.le), ← hm.2 σ (hσ.mono hg.le), Bool.eq_iff_iff]

/-- Literals for a list, one after the other. -/
theorem does_mapM {m : α → EncodeM β} {ys : List α} {K : α → Cnf → β → Prop} (he : g.Valid e)
    (hmono : ∀ y f h b, f ≤ h → K y f b → K y h b)
    (hm : ∀ y ∈ ys, ∀ e', g.Grows e e' → g.Does (m y) e' (K y)) :
    g.Does (ys.mapM m) e fun f bs => List.Forall₂ (fun y b => K y f b) ys bs :=
  .mapM (fun _ _ h => h.valid.grows) he.grows (fun y _ _ b h => hmono y _ _ b h.le) hm

end steps

end Foundation

end Countermodels.Truthmaker
