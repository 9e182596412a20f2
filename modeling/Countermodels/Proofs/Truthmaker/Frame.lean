import Countermodels.Proofs.Cnf.Choice
import Countermodels.Proofs.Truthmaker.Meaning
import Countermodels.Truthmaker.Frame

/-! What the clauses of a frame say of an assignment, and the model that an assignment describes. -/

namespace Countermodels.Truthmaker

/-- A literal for every state, all of them below a bound. -/
structure Tabled (space : StateSpace) (n : Nat) (lits : Array Lit) : Prop where
  size : lits.size = space.size
  known : ∀ l ∈ lits, l.var < n

namespace Tabled

variable {space : StateSpace} {n : Nat} {lits : Array Lit}

theorem mono (h : Tabled space n lits) {k : Nat} (hk : n ≤ k) : Tabled space k lits :=
  ⟨h.size, fun l hl => Nat.lt_of_lt_of_le (h.known l hl) hk⟩

theorem mem (h : Tabled space n lits) {s : State} (hs : s.bits < space.size) : litAt lits s ∈ lits := by
  have hlt : s.bits < lits.size := h.size ▸ hs
  rw [litAt, Array.getD_eq_getD_getElem?, Array.getElem?_eq_getElem hlt]
  exact Array.getElem_mem hlt

theorem var_lt (h : Tabled space n lits) {s : State} (hs : s.bits < space.size) :
    (litAt lits s).var < n := h.known _ (h.mem hs)

theorem read (h : Tabled space n lits) {s : State} (hs : s.bits < space.size) :
    Table.read lits s.bits = .ok (litAt lits s) := by
  have hlt : s.bits < lits.size := h.size ▸ hs
  rw [Table.read, dif_pos hlt, litAt, Array.getD_eq_getD_getElem?, Array.getElem?_eq_getElem hlt]
  rfl

theorem exists_state (h : Tabled space n lits) {l : Lit} (hl : l ∈ lits) :
    ∃ s : State, s.bits < space.size ∧ litAt lits s = l := by
  obtain ⟨i, hi, rfl⟩ := Array.getElem_of_mem hl
  refine ⟨⟨i⟩, h.size ▸ hi, ?_⟩
  rw [litAt, Array.getD_eq_getD_getElem?, Array.getElem?_eq_getElem hi]
  rfl

end Tabled

/-- The tables of a content. -/
structure ContentLits.Tabled (c : ContentLits) (space : StateSpace) (n : Nat) : Prop where
  ver : Truthmaker.Tabled space n c.ver
  fal : Truthmaker.Tabled space n c.fal

theorem ContentLits.Tabled.mono {c : ContentLits} {space : StateSpace} {n k : Nat}
    (h : c.Tabled space n) (hk : n ≤ k) : c.Tabled space k := ⟨h.ver.mono hk, h.fal.mono hk⟩

namespace Frame

variable {f : Frame} {n : Nat} {σ τ : Nat → Bool} {s : State}

/-- The tables of a frame, all of whose literals are below a bound. -/
structure Known (f : Frame) (n : Nat) : Prop where
  possible : Tabled f.space n f.possible
  world : Tabled f.space n f.world
  domain : f.eval.domain = f.space.states
  length : f.eval.lits.length = f.space.states.length
  eval : ∀ l ∈ f.eval.lits, l.var < n

theorem Known.regular (hf : f.Known n) : f.eval.Regular where
  length := by rw [hf.length, hf.domain]
  nodup := hf.domain ▸ f.space.nodup_states

theorem Known.isEval_mem (hf : f.Known n) (hs : s ∈ f.space.states) :
    (s, f.isEval s) ∈ f.eval.pairs := by
  obtain ⟨l, hl⟩ := hf.regular.exists_pair (hf.domain ▸ hs)
  rw [isEval, hf.regular.find?_eq hl]
  exact hl

theorem Known.isEval_lt (hf : f.Known n) (hs : s ∈ f.space.states) : (f.isEval s).var < n :=
  hf.eval _ (List.of_mem_zip (hf.isEval_mem hs)).2

theorem Known.isPossible_lt (hf : f.Known n) (hs : s.bits < f.space.size) : (f.isPossible s).var < n :=
  hf.possible.var_lt hs

theorem Known.isWorld_lt (hf : f.Known n) (hs : s.bits < f.space.size) : (f.isWorld s).var < n :=
  hf.world.var_lt hs

theorem Known.mono (hf : f.Known n) {k : Nat} (hk : n ≤ k) : f.Known k where
  possible := hf.possible.mono hk
  world := hf.world.mono hk
  domain := hf.domain
  length := hf.length
  eval l hl := Nat.lt_of_lt_of_le (hf.eval l hl) hk

/-- The demands on a frame. -/
structure Obeyed (f : Frame) (σ : Nat → Bool) : Prop where
  null : (f.isPossible .null).holds σ = true
  closed : ∀ s ∈ f.space.states, ∀ e ∈ f.space.atoms, e.isPartOf s = true →
    (f.isPossible s).holds σ = true → (f.isPossible (s.without e)).holds σ = true
  maximal : ∀ s ∈ f.space.states, (f.isWorld s).holds σ = true ↔
    (f.isPossible s).holds σ = true ∧
      ∀ e ∈ f.space.extensions s, (f.isPossible (s.fusion e)).holds σ = false
  exists_world : ∃ l ∈ f.world, l.holds σ = true
  eval_world : ∀ s ∈ f.space.states, (f.isEval s).holds σ = true → (f.isWorld s).holds σ = true

theorem without_lt {space : StateSpace} {t : State} (hs : s.bits < space.size) :
    (s.without t).bits < space.size :=
  StateSpace.lt_of_isPartOf (State.isPartOf_iff.2 fun i hi => by simp_all) hs

theorem atom_bits_lt {space : StateSpace} (hs : s ∈ space.atoms) : s.bits < space.size := by
  obtain ⟨i, hi, rfl⟩ := StateSpace.mem_atoms.1 hs
  exact StateSpace.atom_lt hi

theorem imposes_declare (hf : f.Known n) : Imposes n f.declare f.Obeyed := by
  have hlt : ∀ s ∈ f.space.states, s.bits < f.space.size := fun s hs => (StateSpace.mem_states.1 hs).2
  have hclosed : Imposes n f.closedUnderParts fun σ => ∀ s ∈ f.space.states,
      ∀ e ∈ f.space.atoms.filter (·.isPartOf s), (f.isPossible s).holds σ = true →
        (f.isPossible (s.without e)).holds σ = true :=
    .forM fun s hs => .forM fun e _ =>
      .imply (hf.possible.var_lt (hlt s hs)) (hf.possible.var_lt (without_lt (hlt s hs)))
  have hmaximal : Imposes n f.worldsAreMaximal fun σ => ∀ s ∈ f.space.states,
      ((f.isWorld s).holds σ = true ↔ ∀ l ∈ f.isPossible s :: (f.space.extensions s).map fun e =>
        (f.isPossible (s.fusion e)).neg, l.holds σ = true) := by
    refine .forM fun s hs => .iffAll (hf.world.var_lt (hlt s hs)) ?_
    refine List.forall_mem_cons.2 ⟨hf.possible.var_lt (hlt s hs), List.forall_mem_map.2 fun e he => ?_⟩
    rw [Lit.var_neg]
    exact hf.possible.var_lt (StateSpace.fusion_lt (hlt s hs) (atom_bits_lt (List.mem_filter.1 he).1))
  have heval : Imposes n f.evalIsWorld fun σ => ∀ s ∈ f.space.states,
      (f.isEval s).holds σ = true → (f.isWorld s).holds σ = true :=
    .forM fun s hs => .imply (hf.isEval_lt hs) (hf.world.var_lt (hlt s hs))
  have hworlds : Imposes n (Emit.clause f.world.toList) fun σ =>
      Lit.anyHolds f.world.toList σ = true := .clause (by simpa using hf.world.known)
  refine ((Imposes.unit (hf.possible.var_lt f.space.size_pos)).seq
    (hclosed.seq (hmaximal.seq (hworlds.seq heval)))).congr fun σ => ?_
  constructor
  · rintro ⟨h₁, h₂, h₃, h₄, h₅⟩
    refine ⟨h₁, fun s hs e he hes => h₂ s hs e (List.mem_filter.2 ⟨he, hes⟩), fun s hs => ?_, ?_, h₅⟩
    · rw [h₃ s hs]
      simp
    · simpa [Lit.anyHolds_iff] using h₄
  · intro h
    refine ⟨h.null, fun s hs e he => ?_, fun s hs => ?_, ?_, h.eval_world⟩
    · exact h.closed s hs e (List.mem_filter.1 he).1 (List.mem_filter.1 he).2
    · rw [h.maximal s hs]
      simp
    · simpa [Lit.anyHolds_iff] using h.exists_world

/-! The model that an assignment describes. -/

/-- The states whose literals are true. -/
def select (f : Frame) (σ : Nat → Bool) (lits : Array Lit) : StateSet :=
  (StateSet.ofSpace f.space).filter fun s => (litAt lits s).holds σ

/-- The world of evaluation. -/
def chosen (f : Frame) (σ : Nat → Bool) : State := (f.eval.value? σ).getD .null

def content (f : Frame) (σ : Nat → Bool) (c : ContentLits) : Content := ⟨f.select σ c.ver, f.select σ c.fal⟩

def reading (f : Frame) (v : Valuation ContentLits) (σ : Nat → Bool) : Model where
  space := f.space
  possible := f.select σ f.possible
  evalWorld := f.chosen σ
  valuation := v.map fun p => (p.1, f.content σ p.2)

@[simp] theorem mem_select {lits : Array Lit} :
    s ∈ f.select σ lits ↔ s ∈ f.space.states ∧ (litAt lits s).holds σ = true := by
  rw [select, StateSet.mem_filter, StateSet.mem_ofSpace]

/-- Everything an assignment must do for a frame. -/
structure Realized (f : Frame) (σ : Nat → Bool) : Prop extends f.Obeyed σ where
  chosen : f.eval.Chosen σ

namespace Realized

variable {v : Valuation ContentLits} (hσ : f.Realized σ) (hf : f.Known n)
include hσ hf

/-- The states can be listed: otherwise there is no world of evaluation to choose. -/
theorem n_lt : f.space.n < 32 := by
  obtain ⟨l, hl, -⟩ := hσ.chosen.some_true
  by_contra h
  have hnil : f.space.states = [] := by rw [StateSpace.states, if_neg h]
  have hlen := hf.length
  rw [hnil, List.length_nil, List.length_eq_zero_iff] at hlen
  rw [hlen] at hl
  cases hl

theorem mem_states_iff : s ∈ f.space.states ↔ s.bits < f.space.size := by
  rw [StateSpace.mem_states, and_iff_right (hσ.n_lt hf)]

/-- The world of evaluation is the state whose literal is true. -/
theorem chosen_spec : f.chosen σ ∈ f.space.states ∧ f.eval.eval (·.holds σ) = .ok (some (f.chosen σ)) ∧
    ∀ s ∈ f.space.states, (f.isEval s).holds σ = true ↔ s = f.chosen σ := by
  obtain ⟨w, hw, hvalue, heval, hiff⟩ := hσ.chosen.value_spec hf.regular
  have hchosen : f.chosen σ = w := by rw [Frame.chosen, hvalue, Option.getD_some]
  rw [hchosen, ← hf.domain]
  exact ⟨hw, heval, fun s hs => hiff (s, f.isEval s) (hf.isEval_mem (hf.domain ▸ hs))⟩

theorem hereditary : (f.reading v σ).Hereditary where
  mem_states s hs := (mem_select.1 hs).1
  part s hs t ht := by
    refine State.part_induction (P := (· ∈ f.select σ f.possible)) (fun u i hu hi => ?_) hs ht
    obtain ⟨hmem, hpos⟩ := mem_select.1 hu
    have hlt := (hσ.mem_states_iff hf).1 hmem
    refine mem_select.2 ⟨(hσ.mem_states_iff hf).2 (without_lt hlt), ?_⟩
    exact hσ.closed u hmem _ (StateSpace.mem_atoms.2 ⟨i, StateSpace.testBit_lt hlt hi, rfl⟩)
      (State.atom_isPartOf.2 hi) hpos

theorem mem_possible (hs : s.bits < f.space.size) :
    s ∈ (f.reading v σ).possible ↔ (f.isPossible s).holds σ = true :=
  mem_select.trans (and_iff_right ((hσ.mem_states_iff hf).2 hs))

theorem isWorld_iff (hs : s ∈ f.space.states) :
    (f.reading v σ).isWorld s = true ↔ (f.isWorld s).holds σ = true := by
  have hlt := (hσ.mem_states_iff hf).1 hs
  rw [Model.isWorld_iff_extensions (hσ.hereditary hf), hσ.maximal s hs, hσ.mem_possible hf hlt]
  refine and_congr_right fun _ => forall₂_congr fun e he => ?_
  have hfuse := StateSpace.fusion_lt hlt (atom_bits_lt (List.mem_filter.1 he).1)
  rw [hσ.mem_possible hf hfuse, Bool.not_eq_true]

theorem mem_worlds : s ∈ (f.reading v σ).worlds ↔ s ∈ f.space.states ∧ (f.isWorld s).holds σ = true :=
  Model.mem_worlds.trans (and_congr_right fun hs => hσ.isWorld_iff hf hs)

end Realized

theorem atomContent_reading (f : Frame) (v : Valuation ContentLits) (σ : Nat → Bool) (a : Atom) :
    (f.reading v σ).atomContent a = ((v.meaning? a).map (f.content σ)).getD .empty := by
  rw [Model.atomContent]
  congr 1
  simp only [reading, Valuation.meaning?, List.find?_map, Option.map_map]
  rfl

theorem located_reading (f : Frame) (v : Valuation ContentLits) (σ : Nat → Bool) :
    (f.reading v σ).Located := by
  intro a s hs
  rw [atomContent_reading] at hs
  cases h : v.meaning? a with
  | none => simp [h, Content.empty] at hs
  | some c =>
    simp only [h, Option.map_some, Option.getD_some, content, mem_select] at hs
    rcases hs with hs | hs <;> exact hs.1

end Frame

end Countermodels.Truthmaker
