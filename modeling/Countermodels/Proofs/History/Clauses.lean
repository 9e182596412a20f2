import Countermodels.Proofs.Draft
import Countermodels.Proofs.History.Frame

/-! What the clauses of a frame demand: which slots are in use, that they are listed in one way, that tasks are
steps, and that the slots in use are closed under shifts. -/

namespace Countermodels.History.Frame

variable {f : Frame} {n : Nat} {σ : Nat → Bool} {h h' : Nat}

/-- Moved by one step, the slot `h` agrees with the slot `h'`. -/
def Moves (f : Frame) (σ : Nat → Bool) (h h' : Nat) (forward : Bool) : Prop :=
  ∀ p ∈ f.shifts forward, ∀ s ∈ f.space.states, (f.isAt h p.2 s).holds σ = true → (f.isAt h' p.1 s).holds σ = true

/-- The demands on a frame. -/
structure Obeyed (f : Frame) (σ : Nat → Bool) : Prop where
  main : (f.isActive 0).holds σ = true
  first : ∀ h ∈ f.histories.drop 1, (f.isActive h).holds σ = true → (f.isActive (h - 1)).holds σ = true
  idle : ∀ h ∈ f.histories, ∀ t ∈ f.times, (f.isActive h).holds σ = false → (f.isAt h t .null).holds σ = true
  differs : ∀ h ∈ f.histories.drop 1, (f.isActive h).holds σ = true →
    ∃ p ∈ (f.lits h).zip (f.lits 0), p.1.holds σ = true ∧ p.2.holds σ = false
  increasing : ∀ h ∈ f.histories.drop 2, (f.isActive h).holds σ = true →
    Ordered true ((f.lits (h - 1)).map (·.holds σ)) ((f.lits h).map (·.holds σ))
  steps : ∀ h ∈ f.histories, ∀ t ∈ List.range (f.numTimes - 1), ∀ s ∈ f.space.states, ∀ s' ∈ f.space.states,
    (f.isActive h).holds σ = true → (f.isAt h t s).holds σ = true → (f.isAt h (t + 1) s').holds σ = true →
      (f.isTask s s').holds σ = true
  tasks : ∀ s ∈ f.space.states, ∀ s' ∈ f.space.states, (f.isTask s s').holds σ = true →
    ∃ h ∈ f.histories, ∃ t ∈ List.range (f.numTimes - 1), (f.isActive h).holds σ = true ∧
      (f.isAt h t s).holds σ = true ∧ (f.isAt h (t + 1) s').holds σ = true
  closed : 1 < f.numTimes → ∀ h ∈ f.histories, ∀ forward, (f.isActive h).holds σ = true →
    ∃ h' ∈ f.histories, (f.isActive h').holds σ = true ∧ f.Moves σ h h' forward

theorem mem_histories : h ∈ f.histories ↔ h < f.numHistories := List.mem_range

theorem mem_histories_drop {k : Nat} : h ∈ f.histories.drop k ↔ k ≤ h ∧ h < f.numHistories := by
  rw [histories, List.range_eq_range', List.drop_range', List.mem_range'_1]
  omega

section known

variable (hf : f.Known n)
include hf

theorem imposes_activeFirst (hpos : 0 < f.numHistories) :
    Imposes n f.activeFirst fun σ => (f.isActive 0).holds σ = true ∧
      (∀ h ∈ f.histories.drop 1, (f.isActive h).holds σ = true → (f.isActive (h - 1)).holds σ = true) ∧
      ∀ h ∈ f.histories, ∀ t ∈ f.times, (f.isActive h).neg.holds σ = true → (f.isAt h t .null).holds σ = true := by
  apply (Imposes.unit (hf.isActive_lt hpos)).seq
  apply Imposes.seq
  · apply Imposes.forM
    intro h hh
    have hh := mem_histories_drop.1 hh
    exact .imply (hf.isActive_lt hh.2) (hf.isActive_lt (by omega))
  · apply Imposes.forM
    intro h hh
    have hh := mem_histories.1 hh
    apply Imposes.forM
    intro t ht
    exact .imply (by simpa using hf.isActive_lt hh) (hf.isAt_null_lt hh (List.mem_range.1 ht))

end known

theorem differences_eq (xs ys : List Lit) : (differences xs ys : StateM Cnf (List Lit)) =
    (xs.zip ys).mapM fun p => do
      let d ← Emit.fresh
      Emit.implyAll d [p.1, p.2.neg]
      return d := by
  induction xs generalizing ys with
  | nil => cases ys <;> rfl
  | cons x xs ih =>
    cases ys with
    | nil => rfl
    | cons y ys =>
      rw [differences, List.zip_cons_cons, List.mapM_cons, ih]
      rfl

/-- A shift goes from one time to another. -/
theorem mem_shifts {forward : Bool} {p : Nat × Nat} (hp : p ∈ f.shifts forward) :
    p.1 < f.numTimes ∧ p.2 < f.numTimes := by
  obtain ⟨t, ht, rfl⟩ := List.mem_map.1 hp
  have ht := List.mem_range.1 ht
  cases forward
  · exact ⟨by simp; omega, by simp; omega⟩
  · exact ⟨by simp; omega, by simp; omega⟩

/-- What some values select: if the slot is in use, one of the slots, and only slots in use that are the slot moved by
one step. -/
def Selects (f : Frame) (σ : Nat → Bool) (h : Nat) (forward : Bool) (vs : List Bool) : Prop :=
  ((f.isActive h).holds σ = true → true ∈ vs) ∧ ∀ q ∈ vs.zip f.histories, q.1 = true →
    (f.isActive q.2).holds σ = true ∧ f.Moves σ h q.2 forward

theorem Selects.congr {τ : Nat → Bool} {forward : Bool} {vs : List Bool} (hσ : f.Selects σ h forward vs) (hf : f.Known n)
    (hh : h < f.numHistories) (hστ : Agree n σ τ) : f.Selects τ h forward vs := by
  refine ⟨fun hactive => hσ.1 ?_, fun q hq htrue => ?_⟩
  · rwa [hστ.holds (hf.isActive_lt hh)]
  · have hh' := mem_histories.1 (List.of_mem_zip hq).2
    obtain ⟨hactive, hmoves⟩ := hσ.2 q hq htrue
    refine ⟨by rwa [← hστ.holds (hf.isActive_lt hh')], fun p hp s hs => ?_⟩
    have htimes := mem_shifts hp
    rw [← hστ.holds (hf.isAt_lt hh htimes.2 hs), ← hστ.holds (hf.isAt_lt hh' htimes.1 hs)]
    exact hmoves p hp s hs

section known

variable (hf : f.Known n)
include hf

theorem length_lits (hh : h < f.numHistories) (hh' : h' < f.numHistories) :
    (f.lits h).length = (f.lits h').length := by
  rw [lits, lits, List.length_flatMap, List.length_flatMap]
  apply congrArg List.sum
  apply List.map_congr_left
  intro t ht
  have ht := List.mem_range.1 ht
  rw [(hf.choice_known hh ht).2.1, (hf.choice_known hh' ht).2.1]

theorem imposes_canonical : Imposes n f.canonical fun σ =>
    (∀ h ∈ f.histories.drop 1, (f.isActive h).holds σ = true →
      ∃ p ∈ (f.lits h).zip (f.lits 0), p.1.holds σ = true ∧ p.2.holds σ = false) ∧
    ∀ h ∈ f.histories.drop 2, (f.isActive h).holds σ = true →
      Ordered true ((f.lits (h - 1)).map (·.holds σ)) ((f.lits h).map (·.holds σ)) := by
  apply Imposes.seq
  · apply Imposes.forM
    intro h hh
    obtain ⟨hpos, hh⟩ := mem_histories_drop.1 hh
    rw [differences_eq]
    refine (Imposes.witnesses _ _ [(f.isActive h).neg] (fun p hp => ?_) (by simpa using hf.isActive_lt hh)).congr
      fun σ => ?_
    rotate_left
    · cases hactive : (f.isActive h).holds σ <;> simp [hactive]
    · have hx := hf.lits_lt hh _ (List.of_mem_zip hp).1
      have hy := hf.lits_lt (by omega) _ (List.of_mem_zip hp).2
      simp [hx, hy]
  · apply Imposes.forM
    intro h hh
    obtain ⟨hpos, hh⟩ := mem_histories_drop.1 hh
    have hlen : (f.lits (h - 1)).length = (f.lits h).length := length_lits hf (by omega) hh
    refine (Imposes.lexOrder (some (f.isActive h)) true hlen ?_ (hf.lits_lt (by omega)) (hf.lits_lt hh)).congr
      fun σ => ?_
    · simpa using hf.isActive_lt hh
    · simp [holdsOpt]

theorem imposes_stepsAreTasks (hh : h < f.numHistories) : Imposes n (f.stepsAreTasks h) fun σ =>
    ∀ t ∈ List.range (f.numTimes - 1), ∀ s ∈ f.space.states, ∀ s' ∈ f.space.states,
      (f.isActive h).holds σ = true → (f.isAt h t s).holds σ = true → (f.isAt h (t + 1) s').holds σ = true →
        (f.isTask s s').holds σ = true := by
  apply Imposes.forM
  intro t ht
  have ht := List.mem_range.1 ht
  apply Imposes.forM
  intro s hs
  apply Imposes.forM
  intro s' hs'
  have hlt := (StateSpace.mem_states.1 hs).2
  have hlt' := (StateSpace.mem_states.1 hs').2
  refine (Imposes.clause ?_).congr fun σ => ?_
  · simp [hf.isActive_lt hh, hf.isAt_lt hh (by omega : t < f.numTimes) hs,
      hf.isAt_lt hh (by omega : t + 1 < f.numTimes) hs', hf.isTask_lt hlt hlt']
  · cases hactive : (f.isActive h).holds σ <;> cases hs : (f.isAt h t s).holds σ <;>
      cases hs' : (f.isAt h (t + 1) s').holds σ <;> simp [Lit.anyHolds, hactive, hs, hs']

theorem imposes_taskIsStep {s s' : State} (hs : s ∈ f.space.states) (hs' : s' ∈ f.space.states) :
    Imposes n (f.taskIsStep s s') fun σ => (f.isTask s s').holds σ = true →
      ∃ h ∈ f.histories, ∃ t ∈ List.range (f.numTimes - 1), (f.isActive h).holds σ = true ∧
        (f.isAt h t s).holds σ = true ∧ (f.isAt h (t + 1) s').holds σ = true := by
  have hlt := (StateSpace.mem_states.1 hs).2
  have hlt' := (StateSpace.mem_states.1 hs').2
  refine (Imposes.witnesses _ _ [(f.isTask s s').neg] (fun p hp => ?_) (by simpa using hf.isTask_lt hlt hlt')).congr
    fun σ => ?_
  rotate_left
  · cases htask : (f.isTask s s').holds σ <;> simp [htask]
  · obtain ⟨h, hh, hp⟩ := List.mem_flatMap.1 hp
    obtain ⟨t, ht, rfl⟩ := List.mem_map.1 hp
    have hh := mem_histories.1 hh
    have ht := List.mem_range.1 ht
    simp [hf.isActive_lt hh, hf.isAt_lt hh (by omega : t < f.numTimes) hs,
      hf.isAt_lt hh (by omega : t + 1 < f.numTimes) hs']

theorem imposes_agrees {forward : Bool} {l : Lit} {k : Nat} (hk : n ≤ k) (hl : l.var < k) (hh : h < f.numHistories)
    (hh' : h' < f.numHistories) : Imposes k (f.agrees l h h' forward) fun σ =>
      l.holds σ = true → (f.isActive h').holds σ = true ∧ f.Moves σ h h' forward := by
  have hf := hf.mono hk
  have hmoves : Imposes k ((f.shifts forward).forM fun p => f.space.states.forM fun s =>
      Emit.implyImply l (f.isAt h p.2 s) (f.isAt h' p.1 s)) fun σ => ∀ p ∈ f.shifts forward, ∀ s ∈ f.space.states,
        l.holds σ = true → (f.isAt h p.2 s).holds σ = true → (f.isAt h' p.1 s).holds σ = true := by
    apply Imposes.forM
    intro p hp
    have htimes := mem_shifts hp
    apply Imposes.forM
    intro s hs
    exact .implyImply hl (hf.isAt_lt hh htimes.2 hs) (hf.isAt_lt hh' htimes.1 hs)
  refine ((Imposes.imply hl (hf.isActive_lt hh')).seq hmoves).congr fun σ => ?_
  constructor
  · rintro ⟨hactive, hall⟩ hσ
    exact ⟨hactive hσ, fun p hp s hs => hall p hp s hs hσ⟩
  · intro hall
    exact ⟨fun hσ => (hall hσ).1, fun p hp s hs hσ => (hall hσ).2 p hp s hs⟩

theorem imposes_shiftExists {forward : Bool} {ls : List Lit} {k : Nat} (hk : n ≤ k) (hls : ∀ l ∈ ls, l.var < k)
    (hh : h < f.numHistories) : Imposes k (f.shiftExists ls h forward) fun σ =>
      f.Selects σ h forward (ls.map (·.holds σ)) := by
  have hagree : Imposes k ((ls.zip f.histories).forM fun q => f.agrees q.1 h q.2 forward) fun σ =>
      ∀ q ∈ ls.zip f.histories, q.1.holds σ = true → (f.isActive q.2).holds σ = true ∧ f.Moves σ h q.2 forward := by
    apply Imposes.forM
    intro q hq
    obtain ⟨hl, hh'⟩ := List.of_mem_zip hq
    exact imposes_agrees hf hk (hls _ hl) hh (mem_histories.1 hh')
  refine ((Imposes.implyAny ((hf.mono hk).isActive_lt hh) hls).seq hagree).congr fun σ => ?_
  rw [Selects, List.zip_map_left, List.forall_mem_map]
  simp

end known

/-- Two literals for each pair of slots: for a shift backward and a shift forward. -/
def selectors (f : Frame) : StateM Cnf (List (List Lit × List Lit)) :=
  f.histories.mapM fun _ => do return (← Emit.freshList f.numHistories, ← Emit.freshList f.numHistories)

/-- The clauses on shifts. -/
def shiftClauses (f : Frame) : StateM Cnf Unit := do
  (f.histories.zip (← f.selectors)).forM fun p => do
    f.shiftExists p.2.1 p.1 false
    f.shiftExists p.2.2 p.1 true

theorem supplies_selectors (f : Frame) : Supplies f.selectors
    (((Display.lits f.numHistories).pair (.lits f.numHistories)).list f.histories.length) :=
  .mapM _ fun _ _ => .pair (.freshList _) (.freshList _)

theorem zip_map_self {α β : Type} (g : α → β) (xs : List α) : (xs.map g).zip xs = xs.map fun x => (g x, x) := by
  simpa using List.zip_map' (f := g) (g := id) (l := xs)

theorem zip_self_map {α β : Type} (g : α → β) (xs : List α) : xs.zip (xs.map g) = xs.map fun x => (x, g x) := by
  simpa using List.zip_map' (f := id) (g := g) (l := xs)

/-- There are values that select just if there is a slot to be selected. -/
theorem exists_selects_iff {forward : Bool} : (∃ vs, vs.length = f.numHistories ∧ f.Selects σ h forward vs) ↔
    ((f.isActive h).holds σ = true → ∃ h' ∈ f.histories, (f.isActive h').holds σ = true ∧ f.Moves σ h h' forward) := by
  constructor
  · rintro ⟨vs, hlen, htrue, honly⟩ hactive
    have hzip : (vs.zip f.histories).map Prod.fst = vs := List.map_fst_zip (by simp [hlen, histories])
    obtain ⟨q, hq, hqtrue⟩ := List.mem_map.1 (hzip.symm ▸ htrue hactive)
    exact ⟨q.2, (List.of_mem_zip hq).2, honly q hq hqtrue⟩
  · intro hexists
    classical
    refine ⟨f.histories.map fun h' => decide ((f.isActive h').holds σ = true ∧ f.Moves σ h h' forward),
      by simp [histories], fun hactive => ?_, fun q hq htrue => ?_⟩
    · obtain ⟨h', hh', hgood⟩ := hexists hactive
      exact List.mem_map.2 ⟨h', hh', decide_eq_true hgood⟩
    · rw [zip_map_self, List.mem_map] at hq
      obtain ⟨h', -, rfl⟩ := hq
      exact of_decide_eq_true htrue

/-- The values that the selectors have. -/
def values (σ : Nat → Bool) (ls : List (List Lit × List Lit)) : List (List Bool × List Bool) :=
  ls.map fun a => (a.1.map (·.holds σ), a.2.map (·.holds σ))

section values

variable {j k : Nat} {ls : List (List Lit × List Lit)}

theorem proper_values (hls : (((Display.lits k).pair (.lits k)).list j).Known n ls) :
    (((Display.lits k).pair (.lits k)).list j).Proper (values σ ls) := by
  refine ⟨(List.length_map _).trans hls.1, List.forall_mem_map.2 fun a ha => ?_⟩
  exact ⟨(List.length_map _).trans (hls.2 a ha).1.1, (List.length_map _).trans (hls.2 a ha).2.1⟩

theorem shows_values : (((Display.lits k).pair (.lits k)).list j).Shows σ ls (values σ ls) :=
  List.forall₂_map_right_iff.2 (List.forall₂_same.2 fun _ _ => ⟨rfl, rfl⟩)

theorem eq_values {vs : List (List Bool × List Bool)}
    (h : (((Display.lits k).pair (.lits k)).list j).Shows σ ls vs) : vs = values σ ls := by
  have hall : List.Forall₂ (fun a v => (a.1.map (·.holds σ), a.2.map (·.holds σ)) = v) ls vs :=
    h.imp fun _ _ h => Prod.ext h.1 h.2
  exact (List.forall₂_eq_eq_eq ▸ List.forall₂_map_left_iff.2 hall : values σ ls = vs).symm

theorem forall_zip_values {P : Nat × List Bool × List Bool → Prop} : (∀ p ∈ f.histories.zip (values σ ls), P p) ↔
    ∀ p ∈ f.histories.zip ls, P (p.1, p.2.1.map (·.holds σ), p.2.2.map (·.holds σ)) := by
  rw [values, List.zip_map_right, List.forall_mem_map]
  rfl

end values

theorem imposes_shiftClauses (hf : f.Known n) : Imposes n f.shiftClauses fun σ =>
    ∀ h ∈ f.histories, ∀ forward, (f.isActive h).holds σ = true →
      ∃ h' ∈ f.histories, (f.isActive h').holds σ = true ∧ f.Moves σ h h' forward := by
  refine (f.supplies_selectors.imposes (P := fun vs σ => ∀ p ∈ f.histories.zip vs,
    f.Selects σ p.1 false p.2.1 ∧ f.Selects σ p.1 true p.2.2) ?_ fun ls k hk hls => ?_).congr fun σ => ?_
  · intro vs σ τ hστ hσ p hp
    have hh := mem_histories.1 (List.of_mem_zip hp).1
    exact ⟨(hσ p hp).1.congr hf hh hστ, (hσ p hp).2.congr hf hh hστ⟩
  · have hall : Imposes k ((f.histories.zip ls).forM fun p => do
        f.shiftExists p.2.1 p.1 false
        f.shiftExists p.2.2 p.1 true) fun σ => ∀ p ∈ f.histories.zip ls,
          f.Selects σ p.1 false (p.2.1.map (·.holds σ)) ∧ f.Selects σ p.1 true (p.2.2.map (·.holds σ)) := by
      apply Imposes.forM
      intro p hp
      obtain ⟨hh, hmem⟩ := List.of_mem_zip hp
      obtain ⟨hearlier, hlater⟩ := hls.2 _ hmem
      exact (imposes_shiftExists hf hk hearlier.2 (mem_histories.1 hh)).seq
        (imposes_shiftExists hf hk hlater.2 (mem_histories.1 hh))
    exact hall.congr fun σ => ⟨fun h => ⟨_, proper_values hls, shows_values, forall_zip_values.2 h⟩, fun h => by
      obtain ⟨vs, -, hshows, h⟩ := h
      exact forall_zip_values.1 (eq_values hshows ▸ h)⟩
  · constructor
    · rintro ⟨vs, hvs, hall⟩ h hh
      have hzip : (f.histories.zip vs).map Prod.fst = f.histories := List.map_fst_zip (by simp [hvs.1])
      obtain ⟨p, hp, rfl⟩ := List.mem_map.1 (hzip.symm ▸ hh)
      have hlen := hvs.2 _ (List.of_mem_zip hp).2
      intro forward
      cases forward with
      | false => exact exists_selects_iff.1 ⟨_, hlen.1, (hall p hp).1⟩
      | true => exact exists_selects_iff.1 ⟨_, hlen.2, (hall p hp).2⟩
    · intro hall
      have hboth : ∀ h, ∃ w : List Bool × List Bool, h ∈ f.histories → (w.1.length = f.numHistories ∧
          w.2.length = f.numHistories) ∧ f.Selects σ h false w.1 ∧ f.Selects σ h true w.2 := by
        intro h
        by_cases hh : h ∈ f.histories
        · obtain ⟨v, hlen, hv⟩ := exists_selects_iff.2 (hall h hh false)
          obtain ⟨w, hlen', hw⟩ := exists_selects_iff.2 (hall h hh true)
          exact ⟨(v, w), fun _ => ⟨⟨hlen, hlen'⟩, hv, hw⟩⟩
        · exact ⟨([], []), fun h => absurd h hh⟩
      choose w hw using hboth
      refine ⟨f.histories.map w, ⟨List.length_map _, List.forall_mem_map.2 fun h hh => (hw h hh).1⟩, fun p hp => ?_⟩
      rw [zip_self_map, List.mem_map] at hp
      obtain ⟨h, hh, rfl⟩ := hp
      exact (hw h hh).2

/-- All clauses of a frame. -/
def clauses (f : Frame) : StateM Cnf Unit := do
  f.activeFirst
  f.canonical
  f.histories.forM f.stepsAreTasks
  f.space.states.forM fun s => f.space.states.forM fun s' => f.taskIsStep s s'
  if 1 < f.numTimes then f.shiftClauses

theorem imposes_clauses (hf : f.Known n) (hpos : 0 < f.numHistories) : Imposes n f.clauses f.Obeyed := by
  have hsteps : Imposes n (f.histories.forM f.stepsAreTasks) _ :=
    .forM fun h hh => imposes_stepsAreTasks hf (mem_histories.1 hh)
  have htasks : Imposes n (f.space.states.forM fun s => f.space.states.forM fun s' => f.taskIsStep s s') _ :=
    .forM fun s hs => .forM fun s' hs' => imposes_taskIsStep hf hs hs'
  have hall := (imposes_activeFirst hf hpos).seq ((imposes_canonical hf).seq (hsteps.seq (htasks.seq
    (.ite fun _ : 1 < f.numTimes => imposes_shiftClauses hf))))
  refine hall.congr fun σ => ⟨fun h => ?_, fun h => ?_⟩
  · obtain ⟨⟨hmain, hfirst, hidle⟩, ⟨hdiffers, hincreasing⟩, hsteps, htasks, hclosed⟩ := h
    refine ⟨hmain, hfirst, fun h hh t ht hσ => hidle h hh t ht ?_, hdiffers, hincreasing, hsteps, htasks, hclosed⟩
    rw [Lit.holds_neg, hσ, Bool.not_false]
  · refine ⟨⟨h.main, h.first, fun i hi t ht hσ => h.idle i hi t ht ?_⟩, ⟨h.differs, h.increasing⟩, h.steps, h.tasks, h.closed⟩
    rwa [Lit.holds_neg, Bool.not_eq_true'] at hσ

open Draft in
theorem keeps_closedUnderShifts (f : Frame) : Keeps f.closedUnderShifts f.shiftClauses := by
  have hselectors : Keeps (f.histories.mapM fun _ => do
      let earlier ← emit (Emit.freshList f.numHistories)
      let later ← emit (Emit.freshList f.numHistories)
      return (earlier, later)) f.selectors :=
    .mapM fun _ _ => (Keeps.emit _).bind fun _ => (Keeps.emit _).bind fun _ => .pure _
  refine hselectors.bind fun selected => .forM fun p _ => .check ?_
  exact (Keeps.emit _).bind fun _ => .emit _

open Draft in
theorem keeps_declare (f : Frame) : Keeps f.declare f.clauses := by
  refine (Keeps.emit _).bind fun _ => (Keeps.emit _).bind fun _ => .check ?_
  refine Keeps.bind (.forM fun h _ => .check (.emit _)) fun _ => ?_
  refine Keeps.bind (.forM fun s _ => .check (.forM fun s' _ => .emit _)) fun _ => ?_
  exact .ite (keeps_closedUnderShifts f)

end Countermodels.History.Frame
