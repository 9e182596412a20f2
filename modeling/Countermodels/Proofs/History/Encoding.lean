import Countermodels.History.Encoder
import Countermodels.Proofs.Cnf.Gates
import Countermodels.Proofs.History.Admissible

/-! Formulas as literals over the slots of a frame: in every slot, in use or not, and at every time, the literal of a
formula denotes its truth on the history in the slot. One lemma for each step of the encoder, and the formula by
induction. -/

namespace Countermodels.History

open Encoder
open Truthmaker (Tabled litAt)

/-- What formulas are written on: a frame and literals for letters, a condition under which the frame is as it should
be, and a deadline. -/
structure Foundation where
  basis : Basis
  deadline : Deadline
  frame : Frame
  valuation : Valuation (Array Lit)
  known : frame.Known basis.numVars
  tabled : ∀ p ∈ valuation, Tabled frame.space basis.numVars p.2
  slots_pos : 0 < frame.numHistories
  m_pos : 1 ≤ frame.m
  m_le : frame.m ≤ Settings.maxM
  settled : ∀ σ, basis.holds σ → frame.Settled σ
  arranged : ∀ σ, basis.holds σ → frame.Arranged σ

namespace Foundation

variable {g : Foundation} {e e' : Encoder} {a : Formula} {h t : Nat} {σ τ : Nat → Bool}

def model (g : Foundation) (σ : Nat → Bool) : Model := g.frame.reading g.valuation σ

/-- The truth of a formula on the history in a slot. -/
def Truth (g : Foundation) (a : Formula) (h t : Nat) (σ : Nat → Bool) : Prop :=
  (g.model σ).Holds a (g.frame.slot σ h) t

theorem mem_histories_model {x : List State} : x ∈ (g.model σ).histories ↔ ∃ h, g.frame.Used σ h ∧ g.frame.slot σ h = x :=
  Frame.mem_shown

/-- All that the encoder keeps is what it should be. -/
structure Valid (g : Foundation) (e : Encoder) : Prop where
  frame : e.frame = g.frame
  valuation : e.valuation = g.valuation
  fits : g.basis.Fits e.draft.cnf
  deadline : g.deadline.Same e.draft.deadline
  gates : e.gates.Valid g.basis e.draft.cnf
  truths : ∀ (a : Formula) (h t : Nat) (l : Lit), e.truths[(a, h, t)]? = some l →
    g.basis.Denotes e.draft.cnf l (g.Truth a h t)
  modal : ∀ (a : Formula) (t : Nat) (l : Lit), e.modal[(a, t)]? = some l →
    ∀ h, g.basis.Denotes e.draft.cnf l (g.Truth a h t)

/-- A later state of the encoder: nothing more is said of the variables that were there. -/
structure Grows (g : Foundation) (e e' : Encoder) : Prop where
  valid : g.Valid e'
  extend : g.basis.Extends e.draft.cnf e'.draft.cnf

instance : IsTrans Encoder g.Grows := ⟨fun _ _ _ h h' => ⟨h'.valid, h.extend.extend h'.extend⟩⟩

theorem Valid.grows (he : g.Valid e) : g.Grows e e := ⟨he, .refl he.fits⟩

theorem Grows.le (h : g.Grows e e') : e.draft.cnf ≤ e'.draft.cnf := h.extend.le

/-- New clauses and gates leave what is kept as it should be. -/
theorem Valid.extend (he : g.Valid e) {gates : Gates} {cnf : Cnf} (hle : e.draft.cnf ≤ cnf) (hfits : g.basis.Fits cnf)
    (hgates : gates.Valid g.basis cnf) : g.Valid { e with gates, draft := { e.draft with cnf } } where
  frame := he.frame
  valuation := he.valuation
  fits := hfits
  deadline := he.deadline
  gates := hgates
  truths a h t l hl := (he.truths a h t l hl).mono hle
  modal a t l hl h := (he.modal a t l hl h).mono hle

/-- A computation of the encoder that succeeds unless the deadline comes, with a property of its result. -/
abbrev Does {α : Type} (g : Foundation) (m : EncodeM α) (e : Encoder) (P : Cnf → α → Prop) : Prop :=
  Writes g.deadline.Late g.Grows m e fun e' a => P e'.draft.cnf a

section steps

variable {P : (Nat → Bool) → Prop}

theorem does_frame (he : g.Valid e) : g.Does frameM e fun _ f => f = g.frame := ⟨he.grows, he.frame⟩

theorem does_constant (he : g.Valid e) (value : Bool) :
    g.Does (constant value) e fun f l => g.basis.Denotes f l fun _ => value = true :=
  ⟨he.grows, he.gates.constant value⟩

theorem does_checkDeadline (he : g.Valid e) : g.Does checkDeadline e fun _ _ => True := by
  cases hpoll : e.draft.deadline.poll.1 with
  | false =>
    refine .of_run (a := ()) (t := { e with draft := { e.draft with deadline := e.draft.deadline.poll.2 } }) ?_
      ⟨{ he with deadline := he.deadline.poll }, .refl he.fits⟩ trivial
    simp [checkDeadline, lift, Draft.run_checkDeadline, hpoll]
  | true =>
    refine .of_error (t := { e with draft := { e.draft with deadline := e.draft.deadline.poll.2 } }) ?_
      (he.deadline.late hpoll)
    simp [checkDeadline, lift, Draft.run_checkDeadline, hpoll]

theorem does_gate {m : Gates → StateM Cnf (Lit × Gates)} (he : g.Valid e)
    (hm : Gates.Defines g.basis e.draft.cnf P (m e.gates e.draft.cnf)) :
    g.Does (gate m) e fun f l => g.basis.Denotes f l P :=
  .of_run rfl ⟨he.extend hm.extend.le hm.extend.fits hm.valid, hm.extend⟩ hm.denotes

variable {ι : Type} {xs : List ι} {ls : List Lit} {K : ι → (Nat → Bool) → Prop}

/-- The conjunction of literals that denote something denotes its conjunction. -/
theorem does_all (he : g.Valid e) (h : List.Forall₂ (fun x l => g.basis.Denotes e.draft.cnf l (K x)) xs ls) :
    g.Does (all ls) e fun f l => g.basis.Denotes f l fun σ => ∀ x ∈ xs, K x σ := by
  apply (does_gate he (Gates.and_defines he.gates he.fits (Basis.known_of_denotes h))).imp
  intro l e' hg hl
  exact hl.congr fun σ hσ => Basis.forall_holds_iff h (hσ.mono hg.le)

theorem does_any (he : g.Valid e) (h : List.Forall₂ (fun x l => g.basis.Denotes e.draft.cnf l (K x)) xs ls) :
    g.Does (any ls) e fun f l => g.basis.Denotes f l fun σ => ∃ x ∈ xs, K x σ := by
  apply (does_gate he (Gates.or_defines he.gates he.fits (Basis.known_of_denotes h))).imp
  intro l e' hg hl
  exact hl.congr fun σ hσ => Basis.exists_holds_iff h (hσ.mono hg.le)

/-- Literals for a list, one after the other. -/
theorem does_mapM {α : Type} {m : α → EncodeM Lit} {ys : List α} {K : α → (Nat → Bool) → Prop} (he : g.Valid e)
    (hm : ∀ y ∈ ys, ∀ e', g.Valid e' → g.Does (m y) e' fun f l => g.basis.Denotes f l (K y)) :
    g.Does (ys.mapM m) e fun f ls => List.Forall₂ (fun y l => g.basis.Denotes f l (K y)) ys ls :=
  .mapM (fun _ _ h => h.valid.grows) he.grows (fun _ _ _ _ h hl => hl.mono h.le) fun y hy _ h => hm y hy _ h.valid

end steps

section kept

theorem Valid.keepTruth (he : g.Valid e) {l : Lit} (hl : g.basis.Denotes e.draft.cnf l (g.Truth a h t)) :
    g.Grows e { e with truths := e.truths.insert (a, h, t) l } := by
  refine ⟨{ he with truths := fun b i u k hk => ?_ }, .refl he.fits⟩
  rw [Std.HashMap.getElem?_insert] at hk
  split at hk
  · next heq =>
    cases eq_of_beq heq
    rw [← Option.some.inj hk]
    exact hl
  · exact he.truths b i u k hk

theorem Valid.keepModal (he : g.Valid e) {l : Lit} (hl : ∀ h, g.basis.Denotes e.draft.cnf l (g.Truth a h t)) :
    g.Grows e { e with modal := e.modal.insert (a, t) l } := by
  refine ⟨{ he with modal := fun b u k hk => ?_ }, .refl he.fits⟩
  rw [Std.HashMap.getElem?_insert] at hk
  split at hk
  · next heq =>
    cases eq_of_beq heq
    rw [← Option.some.inj hk]
    exact hl
  · exact he.modal b u k hk

/-- What is kept is what would be written. -/
theorem does_memoTruth {write : EncodeM Lit} (he : g.Valid e)
    (hwrite : ∀ e', g.Valid e' → g.Does write e' fun f l => g.basis.Denotes f l (g.Truth a h t)) :
    g.Does (memoTruth a h t write) e fun f l => g.basis.Denotes f l (g.Truth a h t) := by
  unfold memoTruth
  apply Writes.get
  split
  · next l hl => exact .pure he.grows (he.truths a h t l hl)
  · apply (does_checkDeadline he).bind
    intro _ e₁ h₁ _
    apply (hwrite e₁ h₁.valid).bind
    intro l e₂ h₂ hl
    apply (Writes.modify (P := fun e' _ => g.basis.Denotes e'.draft.cnf l _) (h₂.valid.keepTruth hl) hl).bind
    intro _ e₃ h₃ hl'
    exact .pure h₃.valid.grows hl'

theorem does_memoModal {write : EncodeM Lit} (he : g.Valid e)
    (hwrite : ∀ e', g.Valid e' → g.Does write e' fun f l => ∀ h, g.basis.Denotes f l (g.Truth a h t)) :
    g.Does (memoModal a t write) e fun f l => ∀ h, g.basis.Denotes f l (g.Truth a h t) := by
  unfold memoModal
  apply Writes.get
  split
  · next l hl => exact .pure he.grows (he.modal a t l hl)
  · apply (hwrite e he).bind
    intro l e₁ h₁ hl
    apply (Writes.modify (P := fun e' _ => ∀ h, g.basis.Denotes e'.draft.cnf l (g.Truth a h t)) (h₁.valid.keepModal hl) hl).bind
    intro _ e₂ h₂ hl'
    exact .pure h₂.valid.grows hl'

end kept

section letters

variable {β : Type}

theorem emit_bind {α : Type} (m : StateM Cnf α) (k : α → EncodeM β) (e : Encoder) :
    (emit m >>= k) e = k (m e.draft.cnf).1 { e with draft := { e.draft with cnf := (m e.draft.cnf).2 } } := rfl

/-- Clauses for a list, one after the other. -/
theorem forM_emit_bind {α : Type} (write : α → StateM Cnf Unit) (xs : List α) (k : Unit → EncodeM β) (e : Encoder) :
    ((xs.forM fun x => emit (write x)) >>= k) e =
      k () { e with draft := { e.draft with cnf := (xs.forM write e.draft.cnf).2 } } := by
  induction xs generalizing e with
  | nil => rfl
  | cons x xs ih => exact ih { e with draft := { e.draft with cnf := (write x e.draft.cnf).2 } }

theorem does_choiceAt (he : g.Valid e) (hh : h < g.frame.numHistories) (ht : t < g.frame.numTimes) :
    g.Does (choiceAt h t) e fun _ c => c = g.frame.choice h t := by
  obtain ⟨row, hrow, hchoice⟩ := g.known.choice_eq hh ht
  have hread : (Table.read g.frame.states h >>= (Table.read · t)) = .ok (g.frame.choice h t) := by
    rw [Table.read_of_some hrow]
    exact Table.read_of_some hchoice
  unfold choiceAt
  apply (does_frame he).bind
  rintro f e₁ h₁ rfl
  rw [hread]
  exact .pure h₁.valid.grows rfl

/-- The clauses by which a literal says what the state of a slot at a time says of a letter. -/
def letterClauses (c : Choice State) (x : Lit) (lits : Array Lit) : StateM Cnf Unit :=
  c.pairs.forM fun p => Emit.implyIff p.2 x (litAt lits p.1)

theorem imposes_letterClauses {n : Nat} {c : Choice State} {x : Lit} {lits : Array Lit} {space : StateSpace}
    (hc : ∀ l ∈ c.lits, l.var < n) (hdomain : c.domain = space.states) (hx : x.var < n) (hlits : Tabled space n lits) :
    Imposes n (letterClauses c x lits) fun σ => ∀ p ∈ c.pairs, p.2.holds σ = true →
      (x.holds σ = true ↔ (litAt lits p.1).holds σ = true) := by
  apply Imposes.forM
  intro p hp
  obtain ⟨hs, hl⟩ := List.of_mem_zip hp
  exact .implyIff (hc _ hl) hx (hlits.var_lt (StateSpace.mem_states.1 (hdomain ▸ hs)).2)

/-- A letter is true on the history in a slot just if the literal of its state is. -/
theorem truth_atom_iff {lits : Array Lit} {p : Atom} (hp : g.valuation.meaning? p = some lits) (hσ : g.basis.holds σ)
    (hh : h < g.frame.numHistories) (ht : t < g.frame.numTimes) :
    g.Truth (.atom p) h t σ ↔ (litAt lits (g.frame.stateOf σ h t)).holds σ = true := by
  have hmem := (g.settled σ hσ).stateOf_mem g.known hh ht
  have hmap : (g.model σ).valuation.meaning? p = (g.valuation.meaning? p).map (g.frame.select σ) := by
    simp only [model, Frame.reading, Valuation.meaning?, List.find?_map, Option.map_map]
    rfl
  rw [Truth, Model.Holds, hmap, hp, Frame.getElem?_slot ht, Option.map_some,
    ← Frame.mem_select_iff (StateSpace.mem_states.1 hmem).1 (StateSpace.mem_states.1 hmem).2]
  constructor
  · rintro ⟨states, s, hstates, hs, htrue⟩
    cases hstates
    cases hs
    exact htrue
  · intro htrue
    exact ⟨_, _, rfl, rfl, htrue⟩

theorem does_letterAt {lits : Array Lit} {p : Atom} (he : g.Valid e) (hp : g.valuation.meaning? p = some lits)
    (hh : h < g.frame.numHistories) (ht : t < g.frame.numTimes) :
    g.Does (letterAt p h t) e fun f l => g.basis.Denotes f l (g.Truth (.atom p) h t) := by
  unfold letterAt
  apply Writes.get
  rw [he.valuation, hp]
  apply (does_choiceAt he hh ht).bind
  rintro c e₁ h₁ rfl
  have hfits := h₁.valid.fits
  have hchoice := g.known.choice_known hh ht
  have htabled := g.tabled (p, lits) (Valuation.mem_of_meaning? hp)
  have hle : g.basis.numVars ≤ e₁.draft.cnf.fresh.2.numVars := Nat.le_succ_of_le hfits.numVars_le
  have hx : (Lit.positive e₁.draft.cnf.numVars).var < e₁.draft.cnf.fresh.2.numVars := by simp [Cnf.fresh]
  have himpose := (imposes_letterClauses (fun l hl => Nat.lt_of_lt_of_le (hchoice.2.2 l hl) hle) hchoice.1 hx
    (htabled.mono hle)).restricts g.basis _ hfits.fresh (Nat.le_refl _)
  have hgrow := Cnf.le_trans (Basis.le_fresh e₁.draft.cnf) himpose.le
  have hspec : ∀ υ, g.basis.holds υ → ∀ q ∈ (g.frame.choice h t).pairs, q.2.holds υ = true ↔ q.1 = g.frame.stateOf υ h t :=
    fun υ hυ => ((g.settled υ hυ).stateOf_spec g.known hh ht).2.2
  refine .of_run ((emit_bind ..).trans (forM_emit_bind ..)) ⟨h₁.valid.extend hgrow himpose.fits (h₁.valid.gates.mono hgrow),
    hgrow, himpose.fits, fun _ _ => trivial, fun υ hυ _ => ?_⟩ ⟨Nat.lt_of_lt_of_le hx himpose.le.1, fun υ hυ => ?_⟩
  · -- the new variable can be given the value that the state of the slot asks for
    have hagree := Agree.update e₁.draft.cnf.numVars υ ((litAt lits (g.frame.stateOf υ h t)).holds υ)
    generalize hτ : Function.update υ e₁.draft.cnf.numVars ((litAt lits (g.frame.stateOf υ h t)).holds υ) = τ at hagree
    have hold := hagree.mono hfits.numVars_le
    have hsame : g.basis.Sat e₁.draft.cnf τ := Basis.Sat.congr hfits hagree hυ
    have hsat : g.basis.Sat e₁.draft.cnf.fresh.2 τ := hsame
    have hstate : g.frame.stateOf υ h t = g.frame.stateOf τ h t := Frame.stateOf_congr g.known hold hh ht
    have hmem := (g.settled υ hυ.1).stateOf_mem g.known hh ht
    obtain ⟨ω, hτω, hω⟩ := himpose.complete τ hsat fun q hq htrue => by
      rw [(hspec τ hsat.1 q hq).1 htrue, ← hstate, Lit.holds_positive, ← hτ, Function.update_self, hτ]
      rw [hold.holds (htabled.var_lt (StateSpace.mem_states.1 hmem).2)]
    exact ⟨ω, hagree.trans (hτω.mono (Nat.le_succ _)), hω⟩
  · have hmem := (g.settled υ hυ.1).stateOf_mem g.known hh ht
    have hpair := g.known.isAt_mem hh ht hmem
    have hvalue := himpose.sound υ hυ _ hpair ((hspec υ hυ.1 _ hpair).2 rfl)
    exact hvalue.trans (truth_atom_iff hp hυ.1 hh ht).symm

end letters

section operators

variable {truth : Nat → EncodeM Lit} {K : Nat → (Nat → Bool) → Prop}

theorem denotes_isActive (he : g.Valid e) (hh : h < g.frame.numHistories) :
    g.basis.Denotes e.draft.cnf (g.frame.isActive h) fun σ => g.frame.Used σ h :=
  ⟨Nat.lt_of_lt_of_le (g.known.isActive_lt hh) he.fits.numVars_le, fun _ _ => (and_iff_right hh).symm⟩

/-- Truth in all slots in use. -/
theorem does_everywhere (he : g.Valid e) (htruth : ∀ h < g.frame.numHistories, ∀ e', g.Valid e' →
    g.Does (truth h) e' fun f l => g.basis.Denotes f l (K h)) :
    g.Does (everywhere truth) e fun f l => g.basis.Denotes f l fun σ => ∀ h, g.frame.Used σ h → K h σ := by
  unfold everywhere
  apply (does_frame he).bind
  rintro f e₁ h₁ rfl
  have hslot : ∀ h ∈ g.frame.histories, ∀ e', g.Valid e' → g.Does (do any [(g.frame.isActive h).neg, ← truth h]) e'
      fun f l => g.basis.Denotes f l fun σ => g.frame.Used σ h → K h σ := by
    intro h hh e' he'
    have hh := Frame.mem_histories.1 hh
    apply (htruth h hh e' he').bind
    intro l e₂ h₂ hl
    apply (does_any (K := fun P => P) h₂.valid (.cons (denotes_isActive h₂.valid hh).neg (.cons hl .nil))).imp
    intro l e₃ h₃ hl
    exact hl.congr fun σ _ => by simp [imp_iff_not_or]
  apply (does_mapM h₁.valid hslot).bind
  intro ls e₂ h₂ hls
  apply (does_all h₂.valid hls).imp
  intro l e₃ h₃ hl
  exact hl.congr fun σ _ => ⟨fun hall h hused => hall h (Frame.mem_histories.2 hused.1) hused, fun hall h _ => hall h⟩

/-- Truth in some slot in use. -/
theorem does_somewhere (he : g.Valid e) (htruth : ∀ h < g.frame.numHistories, ∀ e', g.Valid e' →
    g.Does (truth h) e' fun f l => g.basis.Denotes f l (K h)) :
    g.Does (somewhere truth) e fun f l => g.basis.Denotes f l fun σ => ∃ h, g.frame.Used σ h ∧ K h σ := by
  unfold somewhere
  apply (does_frame he).bind
  rintro f e₁ h₁ rfl
  have hslot : ∀ h ∈ g.frame.histories, ∀ e', g.Valid e' → g.Does (do all [g.frame.isActive h, ← truth h]) e'
      fun f l => g.basis.Denotes f l fun σ => g.frame.Used σ h ∧ K h σ := by
    intro h hh e' he'
    have hh := Frame.mem_histories.1 hh
    apply (htruth h hh e' he').bind
    intro l e₂ h₂ hl
    apply (does_all (K := fun P => P) h₂.valid (.cons (denotes_isActive h₂.valid hh) (.cons hl .nil))).imp
    intro l e₃ h₃ hl
    exact hl.congr fun σ _ => by simp
  apply (does_mapM h₁.valid hslot).bind
  intro ls e₂ h₂ hls
  apply (does_any h₂.valid hls).imp
  intro l e₃ h₃ hl
  exact hl.congr fun σ _ => ⟨fun hsome => by
    obtain ⟨h, -, hused, hK⟩ := hsome
    exact ⟨h, hused, hK⟩, fun hsome => by
    obtain ⟨h, hused, hK⟩ := hsome
    exact ⟨h, Frame.mem_histories.2 hused.1, hused, hK⟩⟩

theorem numTimes_lt (g : Foundation) : g.frame.numTimes < 1 <<< 60 := by
  have hle := g.m_le
  rw [Settings.maxM] at hle
  rw [Frame.numTimes]
  omega

theorem mem_times_drop {u k : Nat} : u ∈ g.frame.times.drop k ↔ k ≤ u ∧ u < g.frame.numTimes := by
  rw [Frame.times, List.range_eq_range', List.drop_range', List.mem_range'_1]
  omega

theorem does_later (he : g.Valid e) (ht : t < g.frame.numTimes) :
    g.Does (later t) e fun _ us => us = g.frame.times.drop (t + 1) := by
  have hlt := g.numTimes_lt
  unfold later
  rw [if_neg (by omega)]
  apply (does_frame he).bind
  rintro f e₁ h₁ rfl
  exact .pure h₁.valid.grows rfl

theorem does_earlier (he : g.Valid e) (ht : t < g.frame.numTimes) :
    g.Does (earlier t) e fun _ us => us = List.range t := by
  have hlt := g.numTimes_lt
  unfold earlier
  rw [if_neg (by omega)]
  exact .pure he.grows rfl

/-- Truth at all of some times. -/
theorem does_allAt {ask : EncodeM (List Nat)} {us : List Nat} (hask : g.Does ask e fun _ r => r = us)
    (htruth : ∀ u ∈ us, ∀ e', g.Valid e' → g.Does (truth u) e' fun f l => g.basis.Denotes f l (K u)) :
    g.Does (do all (← (← ask).mapM truth)) e fun f l => g.basis.Denotes f l fun σ => ∀ u ∈ us, K u σ := by
  apply hask.bind
  rintro _ e₁ h₁ rfl
  apply (does_mapM h₁.valid htruth).bind
  intro ls e₂ h₂ hls
  exact does_all h₂.valid hls

/-- Truth at one of some times. -/
theorem does_anyAt {ask : EncodeM (List Nat)} {us : List Nat} (hask : g.Does ask e fun _ r => r = us)
    (htruth : ∀ u ∈ us, ∀ e', g.Valid e' → g.Does (truth u) e' fun f l => g.basis.Denotes f l (K u)) :
    g.Does (do any (← (← ask).mapM truth)) e fun f l => g.basis.Denotes f l fun σ => ∃ u ∈ us, K u σ := by
  apply hask.bind
  rintro _ e₁ h₁ rfl
  apply (does_mapM h₁.valid htruth).bind
  intro ls e₂ h₂ hls
  exact does_any h₂.valid hls

/-- The literal of a formula in a slot at a time denotes its truth there. -/
theorem does_truth {letters : List Atom} (hletters : ∀ p ∈ letters, ∃ lits, g.valuation.meaning? p = some lits)
    (ha : Sentence letters a) (he : g.Valid e) (hh : h < g.frame.numHistories) (ht : t < g.frame.numTimes) :
    g.Does (Encoder.truth a h t) e fun f l => g.basis.Denotes f l (g.Truth a h t) := by
  induction ha generalizing e h t with
  | atom hp =>
    obtain ⟨lits, hlits⟩ := hletters _ hp
    rw [Encoder.truth]
    exact does_memoTruth he fun e₁ h₁ => does_letterAt h₁ hlits hh ht
  | top =>
    rw [Encoder.truth]
    apply does_memoTruth he
    intro e₁ h₁
    apply (does_constant h₁ true).imp
    intro l e₂ h₂ hl
    exact hl.congr fun σ _ => by simp [Truth, Model.Holds]
  | bot =>
    rw [Encoder.truth]
    apply does_memoTruth he
    intro e₁ h₁
    apply (does_constant h₁ false).imp
    intro l e₂ h₂ hl
    exact hl.congr fun σ _ => by simp [Truth, Model.Holds]
  | neg _ ih =>
    rw [Encoder.truth]
    apply does_memoTruth he
    intro e₁ h₁
    apply (ih h₁ hh ht).bind
    intro l e₂ h₂ hl
    exact .pure h₂.valid.grows hl.neg
  | box _ ih =>
    rw [Encoder.truth]
    apply does_memoTruth he
    intro e₁ h₁
    apply (does_memoModal h₁ _).imp fun l e₂ h₂ hl => hl h
    intro e₂ h₂
    apply (does_everywhere h₂ fun h' hh' e' he' => ih he' hh' ht).imp
    intro l e₃ h₃ hl h'
    apply hl.congr
    intro σ _
    simp only [Truth, Model.Holds, mem_histories_model, forall_exists_index, and_imp, forall_apply_eq_imp_iff₂]
  | diamond _ ih =>
    rw [Encoder.truth]
    apply does_memoTruth he
    intro e₁ h₁
    apply (does_memoModal h₁ _).imp fun l e₂ h₂ hl => hl h
    intro e₂ h₂
    apply (does_somewhere h₂ fun h' hh' e' he' => ih he' hh' ht).imp
    intro l e₃ h₃ hl h'
    apply hl.congr
    intro σ _
    simp only [Truth, Model.Holds, mem_histories_model, exists_exists_and_eq_and]
  | future _ ih =>
    rw [Encoder.truth]
    apply does_memoTruth he
    intro e₁ h₁
    apply (does_allAt (does_later h₁ ht) fun u hu e' he' => ih he' hh (mem_times_drop.1 hu).2).imp
    intro l e₂ h₂ hl
    apply hl.congr
    intro σ _
    simp only [mem_times_drop, Truth, Model.Holds, and_imp]
    rfl
  | someFuture _ ih =>
    rw [Encoder.truth]
    apply does_memoTruth he
    intro e₁ h₁
    apply (does_anyAt (does_later h₁ ht) fun u hu e' he' => ih he' hh (mem_times_drop.1 hu).2).imp
    intro l e₂ h₂ hl
    apply hl.congr
    intro σ _
    simp only [mem_times_drop, Truth, Model.Holds, and_assoc]
    rfl
  | past _ ih =>
    rw [Encoder.truth]
    apply does_memoTruth he
    intro e₁ h₁
    apply (does_allAt (does_earlier h₁ ht) fun u hu e' he' => ih he' hh ((List.mem_range.1 hu).trans ht)).imp
    intro l e₂ h₂ hl
    apply hl.congr
    intro σ _
    simp only [List.mem_range, Truth, Model.Holds]
  | somePast _ ih =>
    rw [Encoder.truth]
    apply does_memoTruth he
    intro e₁ h₁
    apply (does_anyAt (does_earlier h₁ ht) fun u hu e' he' => ih he' hh ((List.mem_range.1 hu).trans ht)).imp
    intro l e₂ h₂ hl
    apply hl.congr
    intro σ _
    simp only [List.mem_range, Truth, Model.Holds]
  | and _ _ iha ihb =>
    rw [Encoder.truth]
    apply does_memoTruth he
    intro e₁ h₁
    apply (iha h₁ hh ht).bind
    intro l e₂ h₂ hl
    apply (ihb h₂.valid hh ht).bind
    intro l' e₃ h₃ hl'
    apply (does_all (K := fun P => P) h₃.valid (.cons (hl.mono h₃.le) (.cons hl' .nil))).imp
    intro l e₄ h₄ hl
    exact hl.congr fun σ _ => by simp [Truth, Model.Holds]
  | or _ _ iha ihb =>
    rw [Encoder.truth]
    apply does_memoTruth he
    intro e₁ h₁
    apply (iha h₁ hh ht).bind
    intro l e₂ h₂ hl
    apply (ihb h₂.valid hh ht).bind
    intro l' e₃ h₃ hl'
    apply (does_any (K := fun P => P) h₃.valid (.cons (hl.mono h₃.le) (.cons hl' .nil))).imp
    intro l e₄ h₄ hl
    exact hl.congr fun σ _ => by simp [Truth, Model.Holds]

end operators

end Foundation

end Countermodels.History
