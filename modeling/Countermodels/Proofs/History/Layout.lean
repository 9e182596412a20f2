import Countermodels.Proofs.History.Opening

/-! The layout of a bundle in the slots of a frame. The clauses of a frame are about literals; here they are said of
the histories in the slots, and these are found to be the bundles whose histories after the main one are listed with
increasing codes. -/

namespace Countermodels.History.Frame

variable {f : Frame} {n : Nat} {σ τ : Nat → Bool} {h h' t : Nat} {hs : List (List State)}

/-- A slot is in use. -/
def Used (f : Frame) (σ : Nat → Bool) (h : Nat) : Prop := h < f.numHistories ∧ (f.isActive h).holds σ = true

/-- The histories in the slots are closed under shifts and stand in the only way in which they can: the main one first,
then others with increasing codes, and then slots that stay at the null state. -/
structure Canonical (f : Frame) (σ : Nat → Bool) : Prop where
  main : f.Used σ 0
  first : ∀ h, f.Used σ (h + 1) → f.Used σ h
  idle : ∀ h < f.numHistories, ∀ t < f.numTimes, ¬ f.Used σ h → f.stateOf σ h t = .null
  differs : ∀ h, f.Used σ (h + 1) → f.slot σ (h + 1) ≠ f.slot σ 0
  increasing : ∀ h, f.Used σ (h + 2) → code f.space (f.slot σ (h + 1)) < code f.space (f.slot σ (h + 2))
  closed : ∀ h, f.Used σ h → ∀ forward, ∃ h', f.Used σ h' ∧ Shifted (f.slot σ h) (f.slot σ h') forward

/-- What the clauses of a frame say of the histories in its slots. -/
structure Arranged (f : Frame) (σ : Nat → Bool) : Prop extends f.Canonical σ where
  task : ∀ s ∈ f.space.states, ∀ s' ∈ f.space.states, (f.isTask s s').holds σ = true ↔
    ∃ h, f.Used σ h ∧ ∃ t, t + 1 < f.numTimes ∧ f.stateOf σ h t = s ∧ f.stateOf σ h (t + 1) = s'

section settled

variable (hf : f.Known n) (hσ : f.Settled σ)
include hf hσ

theorem Settled.stateOf_mem (hh : h < f.numHistories) (ht : t < f.numTimes) : f.stateOf σ h t ∈ f.space.states :=
  (hσ.stateOf_spec hf hh ht).1

theorem Settled.slot_states (hh : h < f.numHistories) : ∀ s ∈ f.slot σ h, s ∈ f.space.states := by
  intro s hs
  obtain ⟨t, ht, rfl⟩ := List.mem_map.1 hs
  exact hσ.stateOf_mem hf hh (List.mem_range.1 ht)

/-- The literals of a slot have the values of the code of its history. -/
theorem Settled.map_lits (hh : h < f.numHistories) : (f.lits h).map (·.holds σ) = code f.space (f.slot σ h) := by
  rw [lits, code, slot, List.map_flatMap, List.flatMap_map, List.flatMap, List.flatMap]
  apply congrArg List.flatten
  apply List.map_congr_left
  intro t ht
  exact hσ.shows_stateOf hf hh (List.mem_range.1 ht)

/-- A literal of one slot is true where the literal of the other is false just if the slots differ. -/
theorem Settled.differs_iff (hh : h < f.numHistories) (hh' : h' < f.numHistories) :
    (∃ p ∈ (f.lits h).zip (f.lits h'), p.1.holds σ = true ∧ p.2.holds σ = false) ↔ f.slot σ h ≠ f.slot σ h' := by
  have hcodes : ((f.lits h).zip (f.lits h')).map (fun p => (p.1.holds σ, p.2.holds σ)) =
      (code f.space (f.slot σ h)).zip (code f.space (f.slot σ h')) := by
    rw [← hσ.map_lits hf hh, ← hσ.map_lits hf hh', List.zip_map]
    rfl
  have hmem : (∃ p ∈ (f.lits h).zip (f.lits h'), p.1.holds σ = true ∧ p.2.holds σ = false) ↔
      (true, false) ∈ (code f.space (f.slot σ h)).zip (code f.space (f.slot σ h')) := by
    rw [← hcodes, List.mem_map]
    simp only [Prod.mk.injEq]
  rw [hmem]
  constructor
  · intro htrue heq
    rw [heq, ← List.map_id (code f.space (f.slot σ h')), List.zip_map', List.mem_map] at htrue
    obtain ⟨x, -, hx⟩ := htrue
    cases x <;> cases hx
  · exact mem_zip_code (by rw [length_slot, length_slot]) (hσ.slot_states hf hh)

/-- One slot is the other moved by one step just if its literals say so. -/
theorem Settled.moves_iff (hh : h < f.numHistories) (hh' : h' < f.numHistories) (forward : Bool) :
    f.Moves σ h h' forward ↔ Shifted (f.slot σ h) (f.slot σ h') forward := by
  have hstep : ∀ {t u : Nat}, t < f.numTimes → u < f.numTimes →
      ((∀ s ∈ f.space.states, (f.isAt h u s).holds σ = true → (f.isAt h' t s).holds σ = true) ↔
        (f.slot σ h')[t]? = (f.slot σ h)[u]?) := by
    intro t u ht hu
    rw [getElem?_slot ht, getElem?_slot hu, Option.some.injEq]
    constructor
    · intro hall
      have hmem := hσ.stateOf_mem hf hh hu
      exact (hσ.holds_isAt hf hh' ht hmem).1 (hall _ hmem ((hσ.holds_isAt hf hh hu hmem).2 rfl))
    · intro heq s hs hat
      rw [hσ.holds_isAt hf hh hu hs] at hat
      rw [hσ.holds_isAt hf hh' ht hs, heq, hat]
  rw [Moves, shifts, List.forall_mem_map]
  cases forward with
  | false =>
    simp only [Bool.false_eq_true, if_false, Shifted, length_slot, List.mem_range]
    constructor
    · intro hall t ht
      exact (hstep ht (by omega)).1 (hall t (by omega))
    · intro hall t ht
      exact (hstep (by omega) (by omega)).2 (hall t (by omega))
  | true =>
    simp only [if_true, Shifted, length_slot, List.mem_range]
    constructor
    · intro hall t ht
      exact (hstep (by omega) ht).1 (hall t (by omega))
    · intro hall t ht
      exact (hstep (by omega) (by omega)).2 (hall t (by omega))

theorem Settled.null_mem (hh : h < f.numHistories) (ht : t < f.numTimes) : State.null ∈ f.space.states :=
  StateSpace.mem_states.2 ⟨(StateSpace.mem_states.1 (hσ.stateOf_mem hf hh ht)).1, f.space.size_pos⟩

/-- The values of the literals of two slots are ordered as their codes are. -/
theorem Settled.ordered_iff (hh : h < f.numHistories) (hh' : h' < f.numHistories) :
    Ordered true ((f.lits h).map (·.holds σ)) ((f.lits h').map (·.holds σ)) ↔
      code f.space (f.slot σ h) < code f.space (f.slot σ h') := by
  rw [ordered_iff_lt (by rw [List.length_map, List.length_map, length_lits hf hh hh']), hσ.map_lits hf hh,
    hσ.map_lits hf hh']

theorem Settled.arranged (hpos : 0 < f.numHistories) (ho : f.Obeyed σ) : f.Arranged σ where
  main := ⟨hpos, ho.main⟩
  first h hused := ⟨Nat.lt_of_succ_lt hused.1, ho.first (h + 1) (mem_histories_drop.2 ⟨by omega, hused.1⟩) hused.2⟩
  idle h hh t ht hidle := by
    have hfalse : (f.isActive h).holds σ = false := by simpa [Used, hh] using hidle
    exact (hσ.holds_isAt hf hh ht (hσ.null_mem hf hh ht)).1
      (ho.idle h (mem_histories.2 hh) t (List.mem_range.2 ht) hfalse)
  differs h hused := (hσ.differs_iff hf hused.1 hpos).1
    (ho.differs (h + 1) (mem_histories_drop.2 ⟨by omega, hused.1⟩) hused.2)
  increasing h hused := (hσ.ordered_iff hf (Nat.lt_of_succ_lt hused.1) hused.1).1
    (ho.increasing (h + 2) (mem_histories_drop.2 ⟨by omega, hused.1⟩) hused.2)
  task s hs s' hs' := by
    constructor
    · intro htask
      obtain ⟨h, hh, t, ht, hactive, hat, hat'⟩ := ho.tasks s hs s' hs' htask
      have hh := mem_histories.1 hh
      have ht := List.mem_range.1 ht
      exact ⟨h, ⟨hh, hactive⟩, t, by omega, (hσ.holds_isAt hf hh (by omega) hs).1 hat,
        (hσ.holds_isAt hf hh (by omega) hs').1 hat'⟩
    · rintro ⟨h, hused, t, ht, rfl, rfl⟩
      exact ho.steps h (mem_histories.2 hused.1) t (List.mem_range.2 (by omega)) _ hs _ hs' hused.2
        ((hσ.holds_isAt hf hused.1 (by omega) hs).2 rfl) ((hσ.holds_isAt hf hused.1 ht hs').2 rfl)
  closed h hused forward := by
    by_cases htimes : 1 < f.numTimes
    · obtain ⟨h', hh', hactive, hmoves⟩ := ho.closed htimes h (mem_histories.2 hused.1) forward hused.2
      have hh' := mem_histories.1 hh'
      exact ⟨h', ⟨hh', hactive⟩, (hσ.moves_iff hf hused.1 hh' forward).1 hmoves⟩
    · -- with one time only, every history is any other moved by one step
      refine ⟨h, hused, ?_⟩
      cases forward
      · intro t ht
        rw [length_slot] at ht
        omega
      · intro t ht
        rw [length_slot] at ht
        omega

theorem Arranged.obeyed (ha : f.Arranged σ) : f.Obeyed σ where
  main := ha.main.2
  first h hh hactive := by
    obtain ⟨hpos, hh⟩ := mem_histories_drop.1 hh
    obtain ⟨k, rfl⟩ := Nat.exists_eq_add_of_le' hpos
    exact (ha.first k ⟨hh, hactive⟩).2
  idle h hh t ht hfalse := by
    have hh := mem_histories.1 hh
    have ht := List.mem_range.1 ht
    apply (hσ.holds_isAt hf hh ht (hσ.null_mem hf hh ht)).2
    apply ha.idle h hh t ht
    intro hused
    rw [hused.2] at hfalse
    cases hfalse
  differs h hh hactive := by
    obtain ⟨hpos, hh⟩ := mem_histories_drop.1 hh
    obtain ⟨k, rfl⟩ := Nat.exists_eq_add_of_le' hpos
    exact (hσ.differs_iff hf hh ha.main.1).2 (ha.differs k ⟨hh, hactive⟩)
  increasing h hh hactive := by
    obtain ⟨hpos, hh⟩ := mem_histories_drop.1 hh
    obtain ⟨k, rfl⟩ := Nat.exists_eq_add_of_le' hpos
    exact (hσ.ordered_iff hf (Nat.lt_of_succ_lt hh) hh).2 (ha.increasing k ⟨hh, hactive⟩)
  steps h hh t ht s hs s' hs' hactive hat hat' := by
    have hh := mem_histories.1 hh
    have ht := List.mem_range.1 ht
    exact (ha.task s hs s' hs').2 ⟨h, ⟨hh, hactive⟩, t, by omega, (hσ.holds_isAt hf hh (by omega) hs).1 hat,
      (hσ.holds_isAt hf hh (by omega) hs').1 hat'⟩
  tasks s hs s' hs' htask := by
    obtain ⟨h, hused, t, ht, rfl, rfl⟩ := (ha.task s hs s' hs').1 htask
    exact ⟨h, mem_histories.2 hused.1, t, List.mem_range.2 (by omega), hused.2,
      (hσ.holds_isAt hf hused.1 (by omega) hs).2 rfl, (hσ.holds_isAt hf hused.1 ht hs').2 rfl⟩
  closed _ h hh forward hactive := by
    have hh := mem_histories.1 hh
    obtain ⟨h', hused, hshift⟩ := ha.closed h ⟨hh, hactive⟩ forward
    exact ⟨h', mem_histories.2 hused.1, hused.2, (hσ.moves_iff hf hh hused.1 forward).2 hshift⟩

end settled

/-! The histories in the slots in use. -/

/-- What is kept from a range, if with each place also the place before it is kept. -/
theorem filter_range_eq {p : Nat → Bool} {n : Nat} (hp : ∀ i, i + 1 < n → p (i + 1) = true → p i = true) :
    (List.range n).filter p = List.range ((List.range n).filter p).length := by
  induction n with
  | zero => rfl
  | succ n ih =>
    have ih := ih fun i hi => hp i (by omega)
    rw [List.range_succ, List.filter_append]
    cases hn : p n with
    | false => simpa [hn] using ih
    | true =>
      have hall : ∀ k ≤ n, p (n - k) = true := by
        intro k
        induction k with
        | zero => exact fun _ => hn
        | succ k ihk =>
          intro hk
          apply hp _ (by omega)
          rw [show n - (k + 1) + 1 = n - k by omega]
          exact ihk (by omega)
      have hkept : (List.range n).filter p = List.range n := by
        apply List.filter_eq_self.2
        intro i hi
        have hi := List.mem_range.1 hi
        simpa [show n - (n - i) = i by omega] using hall (n - i) (by omega)
      rw [hkept]
      simp [hn, List.range_succ]

/-- The histories in the slots in use, slot by slot. -/
def shown (f : Frame) (σ : Nat → Bool) : List (List State) := (f.inUse σ).map (f.slot σ)

theorem mem_shown {x : List State} : x ∈ f.shown σ ↔ ∃ h, f.Used σ h ∧ f.slot σ h = x := by
  rw [shown, List.mem_map]
  simp only [mem_inUse, Used]

namespace Canonical

variable (ha : f.Canonical σ)
include ha

theorem inUse_eq : f.inUse σ = List.range (f.shown σ).length := by
  rw [shown, List.length_map]
  apply filter_range_eq
  intro i hi htrue
  exact (ha.first i ⟨hi, htrue⟩).2

/-- The slots in use come first. -/
theorem used_iff : f.Used σ h ↔ h < (f.shown σ).length := by
  rw [← List.mem_range, ← ha.inUse_eq, mem_inUse, Used]

/-- The history with a number is the one in the slot with that number. -/
theorem getElem?_shown (hused : f.Used σ h) : (f.shown σ)[h]? = some (f.slot σ h) := by
  have hlt := ha.used_iff.1 hused
  have hslots : f.shown σ = (List.range (f.shown σ).length).map (f.slot σ) := by
    rw [← ha.inUse_eq]
    rfl
  rw [hslots]
  simp [hlt]

theorem shown_pos : 0 < (f.shown σ).length := ha.used_iff.1 ha.main

/-- The codes of two histories after the main one. -/
theorem code_lt {i j : Nat} (hij : i < j) (hused : f.Used σ (j + 1)) :
    code f.space (f.slot σ (i + 1)) < code f.space (f.slot σ (j + 1)) := by
  induction j with
  | zero => omega
  | succ j ih =>
    have hstep := ha.increasing j hused
    rcases Nat.lt_succ_iff_lt_or_eq.1 hij with hlt | rfl
    · exact (ih hlt (ha.first _ hused)).trans hstep
    · exact hstep

theorem shown_eq : f.shown σ = f.slot σ 0 :: (List.range ((f.shown σ).length - 1)).map fun h => f.slot σ (h + 1) := by
  have hpos := ha.shown_pos
  have hslots : f.shown σ = (List.range (f.shown σ).length).map (f.slot σ) := by
    rw [← ha.inUse_eq]
    rfl
  rw [show (f.shown σ).length = (f.shown σ).length - 1 + 1 by omega, List.range_succ_eq_map, List.map_cons,
    List.map_map] at hslots
  exact hslots

theorem increasing_others : Increasing (code f.space) ((f.shown σ).drop 1) := by
  rw [ha.shown_eq, List.drop_one, List.tail_cons, Increasing, List.pairwise_map]
  apply List.pairwise_lt_range.imp_of_mem
  intro i j _ hj hij
  have hj := List.mem_range.1 hj
  exact ha.code_lt hij (ha.used_iff.2 (by omega))

theorem nodup_shown : (f.shown σ).Nodup := by
  have hothers := ha.increasing_others.nodup
  rw [ha.shown_eq] at hothers ⊢
  refine List.nodup_cons.2 ⟨fun hmem => ?_, hothers⟩
  obtain ⟨h, hh, heq⟩ := List.mem_map.1 hmem
  have hh := List.mem_range.1 hh
  exact ha.differs h (ha.used_iff.2 (by omega)) heq

/-- The histories in the slots are a bundle. -/
theorem bundle (hf : f.Known n) (hσ : f.Settled σ) : Bundle f.space f.numTimes f.numHistories (f.shown σ) where
  nodup := ha.nodup_shown
  few := by
    rw [shown, List.length_map]
    exact (List.length_filter_le _ _).trans (by simp [histories])
  length x hx := by
    obtain ⟨h, -, rfl⟩ := mem_shown.1 hx
    exact length_slot
  states x hx := by
    obtain ⟨h, hused, rfl⟩ := mem_shown.1 hx
    exact hσ.slot_states hf hused.1
  closed x hx forward := by
    obtain ⟨h, hused, rfl⟩ := mem_shown.1 hx
    obtain ⟨h', hused', hshift⟩ := ha.closed h hused forward
    exact ⟨_, mem_shown.2 ⟨h', hused', rfl⟩, hshift⟩

end Canonical

/-- The histories of a bundle, with the main one first and the codes of the others increasing. -/
structure Listing (space : StateSpace) (m : Nat) (hs : List (List State)) : Prop
    extends Bundle space (2 * m - 1) (bound space.n m) hs where
  nonempty : hs ≠ []
  increasing : Increasing (code space) (hs.drop 1)

/-- The state of the history with a number, at a time; the null state where there is none. -/
def placeIn (hs : List (List State)) (h t : Nat) : State := (hs[h]?.bind (·[t]?)).getD .null

/-- Some history steps from one state to another. -/
def StepIn (hs : List (List State)) (s s' : State) : Prop := ∃ x ∈ hs, ∃ t, x[t]? = some s ∧ x[t + 1]? = some s'

namespace Listing

variable {space : StateSpace} {m : Nat}

theorem null_mem (hl : Listing space m hs) (hm : 1 ≤ m) : State.null ∈ space.states := by
  obtain ⟨x, hx⟩ := List.exists_mem_of_ne_nil hs hl.nonempty
  have hlen := hl.length x hx
  obtain ⟨s, hs⟩ : ∃ s, s ∈ x := List.exists_mem_of_length_pos (by omega)
  exact StateSpace.mem_states.2 ⟨(StateSpace.mem_states.1 (hl.states x hx s hs)).1, space.size_pos⟩

theorem placeIn_mem (hl : Listing space m hs) (hm : 1 ≤ m) (h t : Nat) : placeIn hs h t ∈ space.states := by
  cases hx : hs[h]? with
  | none =>
    rw [placeIn, hx]
    exact hl.null_mem hm
  | some x =>
    cases ht : x[t]? with
    | none =>
      rw [placeIn, hx, Option.bind_some, ht]
      exact hl.null_mem hm
    | some s =>
      rw [placeIn, hx, Option.bind_some, ht]
      exact hl.states x (List.mem_of_getElem? hx) s (List.mem_of_getElem? ht)

end Listing

section listing

variable (hf : f.Known n) (hτ : f.Settled τ) (hbound : f.numHistories = bound f.space.n f.m)
  (hl : Listing f.space f.m hs) {task : Nat → Nat → Bool}
  (hshown : f.Shown τ (fun h => decide (h < hs.length)) (placeIn hs) task)
  (htask : ∀ i j, task i j = true ↔ StepIn hs ⟨i⟩ ⟨j⟩)
include hf hτ hshown

omit htask in
theorem Shown.stateOf_eq (hh : h < f.numHistories) (ht : t < f.numTimes) : f.stateOf τ h t = placeIn hs h t := by
  have hregular := hf.regular hh ht
  have hmem := hτ.stateOf_mem hf hh ht
  have hshows := hshown.place h hh t ht
  rw [← (hf.choice_known hh ht).1] at hshows
  exact (hregular.shows_iff.1 hshows _ (hf.isAt_mem hh ht hmem)).1 ((hτ.holds_isAt hf hh ht hmem).2 rfl)

include hbound hl

omit hf hτ in
theorem Shown.used_iff : f.Used τ h ↔ h < hs.length := by
  have hfew := hl.few
  rw [← hbound] at hfew
  constructor
  · intro hused
    have hvalue := hshown.active h hused.1
    rw [hused.2] at hvalue
    exact of_decide_eq_true hvalue.symm
  · intro hlt
    have hh : h < f.numHistories := by omega
    exact ⟨hh, (hshown.active h hh).trans (decide_eq_true hlt)⟩

theorem Shown.slot_eq {x : List State} (hx : hs[h]? = some x) : f.slot τ h = x := by
  have hlt : h < hs.length := (List.getElem?_eq_some_iff.1 hx).1
  have hused := (hshown.used_iff hbound hl).2 hlt
  have hlen : x.length = f.numTimes := hl.length x (List.mem_of_getElem? hx)
  apply List.ext_getElem?
  intro t
  by_cases ht : t < f.numTimes
  · rw [getElem?_slot ht, hshown.stateOf_eq hf hτ hused.1 ht, placeIn, hx, Option.bind_some,
      List.getElem?_eq_getElem (hlen.symm ▸ ht), Option.getD_some]
  · rw [List.getElem?_eq_none (by rw [length_slot]; omega), List.getElem?_eq_none (by omega)]

theorem Shown.exists_slot (hused : f.Used τ h) : hs[h]? = some (f.slot τ h) := by
  have hlt := (hshown.used_iff hbound hl).1 hused
  rw [List.getElem?_eq_getElem hlt, hshown.slot_eq hf hτ hbound hl (List.getElem?_eq_getElem hlt)]

theorem Shown.mem_iff {x : List State} : x ∈ hs ↔ ∃ h, f.Used τ h ∧ f.slot τ h = x := by
  constructor
  · intro hx
    obtain ⟨h, hh, rfl⟩ := List.getElem_of_mem hx
    exact ⟨h, (hshown.used_iff hbound hl).2 hh, hshown.slot_eq hf hτ hbound hl (List.getElem?_eq_getElem hh)⟩
  · rintro ⟨h, hused, rfl⟩
    exact List.mem_of_getElem? (hshown.exists_slot hf hτ hbound hl hused)

include htask in
/-- A bundle that is shown in the slots is arranged as the clauses of the frame demand. -/
theorem Shown.arranged : f.Arranged τ where
  main := (hshown.used_iff hbound hl).2 (List.length_pos_iff.2 hl.nonempty)
  first h hused := by
    rw [hshown.used_iff hbound hl] at hused ⊢
    omega
  idle h hh t ht hidle := by
    rw [hshown.used_iff hbound hl, not_lt] at hidle
    rw [hshown.stateOf_eq hf hτ hh ht, placeIn, List.getElem?_eq_none hidle]
    rfl
  differs h hused heq := by
    have hslot := hshown.exists_slot hf hτ hbound hl hused
    have hmain := hshown.exists_slot hf hτ hbound hl
      ((hshown.used_iff hbound hl).2 (List.length_pos_iff.2 hl.nonempty))
    have hlt := (hshown.used_iff hbound hl).1 hused
    rw [heq, ← hmain] at hslot
    exact absurd ((List.getElem?_inj hlt hl.nodup).1 hslot) (by omega)
  increasing h hused := by
    have hlt := (hshown.used_iff hbound hl).1 hused
    have hslot := hshown.exists_slot hf hτ hbound hl hused
    have hslot' := hshown.exists_slot hf hτ hbound hl ((hshown.used_iff hbound hl).2 (Nat.lt_of_succ_lt hlt))
    have hpair := List.pairwise_iff_getElem.1 hl.increasing h (h + 1) (by rw [List.length_drop]; omega)
      (by rw [List.length_drop]; omega) (Nat.lt_succ_self h)
    rw [List.getElem?_eq_getElem hlt, Option.some.injEq] at hslot
    rw [List.getElem?_eq_getElem (Nat.lt_of_succ_lt hlt), Option.some.injEq] at hslot'
    rw [← hslot, ← hslot']
    simpa only [List.getElem_drop, Nat.add_comm 1] using hpair
  task s hs s' hs' := by
    rw [hshown.task s.bits (StateSpace.mem_states.1 hs).2 s'.bits (StateSpace.mem_states.1 hs').2, htask]
    constructor
    · rintro ⟨x, hx, t, ht, ht'⟩
      obtain ⟨h, hused, rfl⟩ := (hshown.mem_iff hf hτ hbound hl).1 hx
      have hlt : t + 1 < f.numTimes := by simpa using (List.getElem?_eq_some_iff.1 ht').1
      rw [getElem?_slot (Nat.lt_of_succ_lt hlt), Option.some.injEq] at ht
      rw [getElem?_slot hlt, Option.some.injEq] at ht'
      exact ⟨h, hused, t, hlt, ht, ht'⟩
    · rintro ⟨h, hused, t, hlt, rfl, rfl⟩
      exact ⟨_, (hshown.mem_iff hf hτ hbound hl).2 ⟨h, hused, rfl⟩, t, getElem?_slot (Nat.lt_of_succ_lt hlt),
        getElem?_slot hlt⟩
  closed h hused forward := by
    obtain ⟨x, hx, hshift⟩ := hl.closed _ ((hshown.mem_iff hf hτ hbound hl).2 ⟨h, hused, rfl⟩) forward
    obtain ⟨h', hused', rfl⟩ := (hshown.mem_iff hf hτ hbound hl).1 hx
    exact ⟨h', hused', hshift⟩

include htask in
theorem Shown.shown_eq : f.shown τ = hs := by
  have ha := hshown.arranged hf hτ hbound hl htask
  apply List.ext_getElem?
  intro h
  by_cases hused : f.Used τ h
  · rw [ha.getElem?_shown hused, hshown.exists_slot hf hτ hbound hl hused]
  · rw [List.getElem?_eq_none (not_lt.1 (mt ha.used_iff.2 hused)),
      List.getElem?_eq_none (not_lt.1 (mt (hshown.used_iff hbound hl).2 hused))]

end listing

/-! A frame as it stands when all its clauses are written. -/

section opened

variable {b : Basis} {g : Cnf} {space : StateSpace} {m : Nat}

/-- What is true of a frame right after it was written. -/
structure Opened (b : Basis) (g : Cnf) (space : StateSpace) (m : Nat) (r : Frame × Cnf) : Prop where
  space_eq : r.1.space = space
  m_eq : r.1.m = m
  numHistories_eq : r.1.numHistories = bound space.n m
  known : r.1.Known r.2.numVars
  le : g ≤ r.2
  fits : b.Fits r.2
  settled : ∀ τ, b.Sat r.2 τ → r.1.Settled τ
  arranged : ∀ τ, b.Sat r.2 τ → r.1.Arranged τ
  complete : ∀ σ, b.Sat g σ → ∀ hs, Listing space m hs → ∃ τ, Agree g.numVars σ τ ∧ b.Sat r.2 τ ∧ r.1.shown τ = hs

theorem bound_pos (n m : Nat) : 0 < bound n m := by
  have hpos : 0 < 1 <<< n := StateSpace.size_pos ⟨n⟩
  rw [bound]
  omega

theorem stateOf_congr (hf : f.Known n) (hστ : Agree n σ τ) (hh : h < f.numHistories) (ht : t < f.numTimes) :
    f.stateOf σ h t = f.stateOf τ h t := by
  rw [stateOf, stateOf, Choice.value?, Choice.value?]
  congr 2
  apply List.find?_congr
  intro p hp
  exact hστ.holds ((hf.choice_known hh ht).2.2 _ (List.of_mem_zip hp).2)

theorem slot_congr (hf : f.Known n) (hστ : Agree n σ τ) (hh : h < f.numHistories) : f.slot σ h = f.slot τ h := by
  apply List.map_congr_left
  intro t ht
  exact stateOf_congr hf hστ hh (List.mem_range.1 ht)

/-- The histories in the slots depend only on the variables of the frame. -/
theorem shown_congr (hf : f.Known n) (hστ : Agree n σ τ) : f.shown σ = f.shown τ := by
  have hsame : f.inUse σ = f.inUse τ := by
    apply List.filter_congr
    intro h hh
    exact hστ.holds (hf.isActive_lt (mem_histories.1 hh))
  rw [shown, shown, hsame]
  apply List.map_congr_left
  intro h hh
  exact slot_congr hf hστ (mem_inUse.1 hh).1

theorem write_opened (hg : b.Fits g) (space : StateSpace) (hm : 1 ≤ m) : Opened b g space m (write space m g) := by
  rw [run_write]
  have hlaid := layout_laid hg space m
  generalize layout space m g = r at hlaid
  obtain ⟨f, cnf⟩ := r
  obtain ⟨hspace, hfm, hnum, hknown, hle, hfits, hsettled, hcomplete⟩ := hlaid
  dsimp only at hspace hfm hnum hknown hle hfits hsettled hcomplete ⊢
  subst hspace hfm
  have hpos : 0 < f.numHistories := hnum ▸ bound_pos _ _
  have himpose := (imposes_clauses hknown hpos).restricts b cnf hfits (Nat.le_refl _)
  refine ⟨rfl, rfl, hnum, hknown.mono himpose.le.1, Cnf.le_trans hle himpose.le, himpose.fits, fun τ hτ => ?_,
    fun τ hτ => ?_, fun σ hσ hs hl => ?_⟩
  · exact hsettled τ (hτ.mono himpose.le)
  · exact (hsettled τ (hτ.mono himpose.le)).arranged hknown hpos (himpose.sound τ hτ)
  · classical
    obtain ⟨τ, hστ, hτ, hshown⟩ := hcomplete σ hσ (fun h => decide (h < hs.length)) (placeIn hs)
      (fun i j => decide (StepIn hs ⟨i⟩ ⟨j⟩)) (hl.placeIn_mem hm)
    have htask : ∀ i j, decide (StepIn hs ⟨i⟩ ⟨j⟩) = true ↔ StepIn hs ⟨i⟩ ⟨j⟩ := fun i j => decide_eq_true_iff
    have hset := hsettled τ hτ
    have harranged := hshown.arranged hknown hset hnum hl htask
    obtain ⟨υ, hτυ, hυ⟩ := himpose.complete τ hτ (harranged.obeyed hknown hset)
    refine ⟨υ, hστ.trans (hτυ.mono hle.1), hυ, ?_⟩
    rw [← shown_congr hknown hτυ]
    exact hshown.shown_eq hknown hset hnum hl htask

end opened

end Countermodels.History.Frame
