import Countermodels.Proofs.History.Bundle
import Countermodels.Proofs.History.Clauses

/-! The clauses of a frame from their first variable on. The assignments that make them true describe bundles of
histories, listed in order, and every such bundle is described by one of them. -/

namespace Countermodels.History.Frame

variable {f : Frame} {b : Basis} {g : Cnf} {space : StateSpace} {m n : Nat} {σ τ : Nat → Bool}

/-- The tables of a frame. -/
def parts (f : Frame) : Array Lit × List (Array (Choice State)) × List (Array Lit) :=
  (f.active, f.states.toList, f.task.toList)

def ofParts (space : StateSpace) (m : Nat) (p : Array Lit × List (Array (Choice State)) × List (Array Lit)) : Frame where
  space
  m
  active := p.1
  states := p.2.1.toArray
  task := p.2.2.toArray

/-- What the literals of a frame show: which slots are in use, the states of the slots, and the tasks. -/
def display (space : StateSpace) (m : Nat) : Display Frame (List Bool × List (List State) × List (List Bool)) :=
  (((Display.lits (bound space.n m)).comap Array.toList).pair
    (((((Display.choice space.states).list (2 * m - 1)).comap Array.toList).list (bound space.n m)).pair
      (((Display.lits space.size).comap Array.toList).list space.size))).comap parts

/-- The variables of a frame, and the clauses by which every slot is in one state at each time. -/
def layout (space : StateSpace) (m : Nat) : StateM Cnf Frame := do
  let active ← Emit.freshArray (bound space.n m)
  let states ← repeatEmit (bound space.n m) (do return (← repeatEmit (2 * m - 1) (Choice.one space.states)).toArray)
  let task ← repeatEmit space.size (Emit.freshArray space.size)
  return ofParts space m (active, states, task)

theorem supplies_repeatEmit {α β : Type} {write : StateM Cnf α} {D : Display α β} (h : Supplies write D) (k : Nat) :
    Supplies (repeatEmit k write) (D.list k) := by
  have hmap := Supplies.mapM (List.range k) fun _ _ => h
  rwa [List.length_range] at hmap

theorem supplies_layout (space : StateSpace) (m : Nat) : Supplies (layout space m) (display space m) := by
  have hrow := (supplies_repeatEmit (Supplies.one space.nodup_states) (2 * m - 1)).map List.toArray Array.toList fun _ => rfl
  have hstates := supplies_repeatEmit hrow (bound space.n m)
  have htask := supplies_repeatEmit (Supplies.freshArray space.size) space.size
  exact ((Supplies.freshArray _).pair (hstates.pair htask)).map (ofParts space m) parts fun _ => rfl

/-- A frame as it is written when there is no deadline. -/
def write (space : StateSpace) (m : Nat) : StateM Cnf Frame := do
  let active ← Emit.freshArray (bound space.n m)
  let states ← repeatEmit (bound space.n m) (do return (← repeatEmit (2 * m - 1) (Choice.one space.states)).toArray)
  let task ← repeatEmit space.size (Emit.freshArray space.size)
  let f : Frame := { space, m, active, states := states.toArray, task := task.toArray }
  f.clauses
  return f

theorem run_write (space : StateSpace) (m : Nat) (g : Cnf) :
    write space m g = ((layout space m g).1, ((layout space m g).1.clauses (layout space m g).2).2) := rfl

open Draft in
theorem keeps_new (space : StateSpace) (m : Nat) : Keeps (new space m) (write space m) := by
  refine (Keeps.emit _).bind fun active => (Keeps.emit _).bind fun states => (Keeps.emit _).bind fun task => ?_
  exact (keeps_declare _).bind fun _ => .pure _

/-! The tables of a frame that has just been laid out. -/

theorem known_of_display (hf : (display f.space f.m).Known n f) : f.Known n := by
  obtain ⟨hactive, hstates, htask⟩ := hf
  have hsize : f.active.size = bound f.space.n f.m := hactive.1
  refine ⟨fun l hl => hactive.2 l (Array.mem_toList_iff.2 hl), ?_, fun row hrow => ?_, fun row hrow c hc => ?_, htask.1,
    fun row hrow => ?_⟩
  · exact Eq.trans hstates.1 hsize.symm
  · exact (hstates.2 row (Array.mem_toList_iff.2 hrow)).1
  · exact (hstates.2 row (Array.mem_toList_iff.2 hrow)).2 c (Array.mem_toList_iff.2 hc)
  · obtain ⟨hlen, hlt⟩ := htask.2 row (Array.mem_toList_iff.2 hrow)
    exact ⟨hlen, fun l hl => hlt l (Array.mem_toList_iff.2 hl)⟩

/-- The literals of a frame have the values that some functions give. -/
structure Shown (f : Frame) (τ : Nat → Bool) (active : Nat → Bool) (place : Nat → Nat → State)
    (task : Nat → Nat → Bool) : Prop where
  active : ∀ h < f.numHistories, (f.isActive h).holds τ = active h
  place : ∀ h < f.numHistories, ∀ t < f.numTimes, (Display.choice f.space.states).Shows τ (f.choice h t) (place h t)
  task : ∀ i < f.space.size, ∀ j < f.space.size, (f.isTask ⟨i⟩ ⟨j⟩).holds τ = task i j

theorem related_of_getElem? {α β : Type} {R : α → β → Prop} {xs : List α} {ys : List β} (h : List.Forall₂ R xs ys)
    {i : Nat} {x : α} {y : β} (hx : xs[i]? = some x) (hy : ys[i]? = some y) : R x y := by
  induction h generalizing i with
  | nil => simp at hx
  | cons hxy _ ih =>
    cases i with
    | zero =>
      rw [List.getElem?_cons_zero, Option.some.injEq] at hx hy
      subst hx hy
      exact hxy
    | succ i => exact ih (by simpa using hx) (by simpa using hy)

/-- The choices of a frame show the states that stand in a table. -/
theorem shows_place (hf : f.Known n) {states : List (List State)}
    (hstates : ((((Display.choice f.space.states).list f.numTimes).comap Array.toList).list f.numHistories).Shows τ
      f.states.toList states) {h t : Nat} {row : List State} {s : State} (hh : h < f.numHistories) (ht : t < f.numTimes)
    (hrow : states[h]? = some row) (hs : row[t]? = some s) :
    (Display.choice f.space.states).Shows τ (f.choice h t) s := by
  obtain ⟨choices, hchoices, hchoice⟩ := hf.choice_eq hh ht
  have hshows := related_of_getElem? hstates (by rwa [Array.getElem?_toList]) hrow
  exact related_of_getElem? hshows (by rwa [Array.getElem?_toList]) hs

/-- A literal of an array has the value at its place. -/
theorem holds_getD {lits : Array Lit} {values : List Bool} (h : lits.toList.map (·.holds τ) = values) {i : Nat}
    (hi : i < lits.size) {x : Bool} (hx : values[i]? = some x) : (lits.getD i default).holds τ = x := by
  rw [← h, List.getElem?_map, Array.getElem?_toList, Array.getElem?_eq_getElem hi] at hx
  rw [Array.getD_eq_getD_getElem?, Array.getElem?_eq_getElem hi]
  exact Option.some.inj hx

/-- The values of a frame as tables. -/
def tables (f : Frame) (active : Nat → Bool) (place : Nat → Nat → State) (task : Nat → Nat → Bool) :
    List Bool × List (List State) × List (List Bool) :=
  (f.histories.map active, f.histories.map fun h => f.times.map (place h),
    (List.range f.space.size).map fun i => (List.range f.space.size).map (task i))

theorem proper_tables (hbound : f.numHistories = bound f.space.n f.m) {active : Nat → Bool} {place : Nat → Nat → State}
    {task : Nat → Nat → Bool} (hplace : ∀ h t, place h t ∈ f.space.states) :
    (display f.space f.m).Proper (f.tables active place task) := by
  refine ⟨?_, ⟨?_, ?_⟩, ?_, ?_⟩
  · simp [tables, Display.comap, Display.lits, histories, hbound]
  · simp [tables, histories, hbound]
  · intro row hrow
    obtain ⟨h, -, rfl⟩ := List.mem_map.1 hrow
    refine ⟨by simp [times, numTimes], fun s hs => ?_⟩
    obtain ⟨t, -, rfl⟩ := List.mem_map.1 hs
    exact hplace h t
  · simp [tables]
  · intro row hrow
    obtain ⟨i, -, rfl⟩ := List.mem_map.1 hrow
    simp [Display.comap, Display.lits]

theorem shown_of_shows (hf : (display f.space f.m).Known n f) {active : Nat → Bool} {place : Nat → Nat → State}
    {task : Nat → Nat → Bool} (h : (display f.space f.m).Shows τ f (f.tables active place task)) :
    f.Shown τ active place task := by
  obtain ⟨hactive, hplace, htask⟩ := h
  have hknown := known_of_display hf
  have hbound : bound f.space.n f.m = f.numHistories := hf.1.1.symm
  refine ⟨fun h hh => ?_, fun h hh t ht => ?_, fun i hi j hj => ?_⟩
  · exact holds_getD hactive hh (by simp [tables, histories, hh])
  · have hrow : (f.tables active place task).2.1[h]? = some (f.times.map (place h)) := by
      simp [tables, histories, hh]
    exact shows_place hknown (hbound ▸ hplace) hh ht hrow (by simp [times, ht])
  · have hlt : i < f.task.size := hknown.task_size ▸ hi
    have hrow := hknown.task_row _ (Array.getElem_mem hlt)
    have hshows := related_of_getElem? htask (i := i) (x := f.task[i])
      (y := (List.range f.space.size).map (task i)) (by simp [parts, hlt]) (by simp [tables, hi])
    rw [isTask, show f.task.getD i #[] = f.task[i] by simp [Array.getD_eq_getD_getElem?, hlt]]
    exact holds_getD hshows (hrow.1 ▸ hj) (by simp [hj])

/-- What is true of a frame once its variables stand. -/
structure Laid (b : Basis) (g : Cnf) (space : StateSpace) (m : Nat) (r : Frame × Cnf) : Prop where
  space_eq : r.1.space = space
  m_eq : r.1.m = m
  numHistories_eq : r.1.numHistories = bound space.n m
  known : r.1.Known r.2.numVars
  le : g ≤ r.2
  fits : b.Fits r.2
  sound : ∀ τ, b.Sat r.2 τ → r.1.Settled τ
  complete : ∀ σ, b.Sat g σ → ∀ active place task, (∀ h t, place h t ∈ space.states) →
    ∃ τ, Agree g.numVars σ τ ∧ b.Sat r.2 τ ∧ r.1.Shown τ active place task

theorem layout_laid (hg : b.Fits g) (space : StateSpace) (m : Nat) : Laid b g space m (layout space m g) := by
  have hsupplied := supplies_layout space m b g hg
  have hspace : (layout space m g).1.space = space := rfl
  have hm : (layout space m g).1.m = m := rfl
  generalize layout space m g = r at hsupplied hspace hm
  obtain ⟨f, cnf⟩ := r
  dsimp only at hspace hm
  subst hspace hm
  have hknown : f.Known cnf.numVars := known_of_display hsupplied.known
  have hbound : f.numHistories = bound f.space.n f.m := hsupplied.known.1.1
  refine ⟨rfl, rfl, hbound, hknown, hsupplied.le, hsupplied.fits, fun τ hτ h hh t ht => ?_,
    fun σ hσ active place task hplace => ?_⟩
  · obtain ⟨v, hv, hshows⟩ := hsupplied.sound τ hτ
    obtain ⟨-, hstates, -⟩ := hv
    obtain ⟨row, hrow⟩ : ∃ row, v.2.1[h]? = some row := ⟨_, List.getElem?_eq_getElem (hstates.1.symm ▸ hbound ▸ hh)⟩
    have hproper := hstates.2 row (List.mem_of_getElem? hrow)
    obtain ⟨s, hs⟩ : ∃ s, row[t]? = some s := ⟨_, List.getElem?_eq_getElem (hproper.1.symm ▸ ht)⟩
    have hshow := shows_place hknown (hbound ▸ hshows.2.1) hh ht hrow hs
    have hdomain := (hknown.choice_known hh ht).1
    refine (hknown.regular hh ht).chosen_of_shows (a := s) ?_ ?_
    · rw [hdomain]
      exact hproper.2 s (List.mem_of_getElem? hs)
    · rwa [hdomain]
  · obtain ⟨τ, hστ, hτ, hshows⟩ := hsupplied.complete σ (f.tables active place task) hσ (proper_tables hbound hplace)
    exact ⟨τ, hστ, hτ, shown_of_shows hsupplied.known hshows⟩

end Countermodels.History.Frame
