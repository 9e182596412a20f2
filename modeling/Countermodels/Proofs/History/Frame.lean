import Countermodels.History.Frame
import Countermodels.Proofs.Cnf.Order
import Countermodels.Proofs.Cnf.Supplies
import Countermodels.Proofs.History.Meaning
import Countermodels.Proofs.State.Parts

/-! What the clauses of a frame say of an assignment, and the histories that an assignment describes. -/

namespace Countermodels.History.Frame

variable {f : Frame} {n : Nat} {σ τ : Nat → Bool} {s s' : State} {h t : Nat}

/-- The tables of a frame have an entry for every slot, time and state, and all literals are below a bound. -/
structure Known (f : Frame) (n : Nat) : Prop where
  active_lt : ∀ l ∈ f.active, l.var < n
  size : f.states.size = f.active.size
  row : ∀ row ∈ f.states, row.size = f.numTimes
  choice : ∀ row ∈ f.states, ∀ c ∈ row, (Display.choice f.space.states).Known n c
  task_size : f.task.size = f.space.size
  task_row : ∀ row ∈ f.task, row.size = f.space.size ∧ ∀ l ∈ row, l.var < n

namespace Known

theorem mono (hf : f.Known n) {k : Nat} (hk : n ≤ k) : f.Known k where
  active_lt l hl := Nat.lt_of_lt_of_le (hf.active_lt l hl) hk
  size := hf.size
  row := hf.row
  choice r hr c hc := (Display.choice _).mono (hf.choice r hr c hc) hk
  task_size := hf.task_size
  task_row r hr := ⟨(hf.task_row r hr).1, fun l hl => Nat.lt_of_lt_of_le ((hf.task_row r hr).2 l hl) hk⟩

theorem isActive_lt (hf : f.Known n) (hh : h < f.numHistories) : (f.isActive h).var < n := by
  have hlt : h < f.active.size := hh
  rw [isActive, Array.getD_eq_getD_getElem?, Array.getElem?_eq_getElem hlt]
  exact hf.active_lt _ (Array.getElem_mem hlt)

/-- The choice of a slot at a time, as it stands in its table. -/
theorem choice_eq (hf : f.Known n) (hh : h < f.numHistories) (ht : t < f.numTimes) :
    ∃ row, f.states[h]? = some row ∧ row[t]? = some (f.choice h t) := by
  have hlt : h < f.states.size := hf.size ▸ hh
  have hrow : t < f.states[h].size := hf.row _ (Array.getElem_mem hlt) ▸ ht
  refine ⟨f.states[h], Array.getElem?_eq_getElem hlt, ?_⟩
  simp [Frame.choice, Array.getD_eq_getD_getElem?, hlt, hrow]

theorem choice_known (hf : f.Known n) (hh : h < f.numHistories) (ht : t < f.numTimes) :
    (Display.choice f.space.states).Known n (f.choice h t) := by
  obtain ⟨row, hrow, hc⟩ := hf.choice_eq hh ht
  exact hf.choice row (Array.mem_of_getElem? hrow) _ (Array.mem_of_getElem? hc)

theorem regular (hf : f.Known n) (hh : h < f.numHistories) (ht : t < f.numTimes) : (f.choice h t).Regular := by
  obtain ⟨hdomain, hlen, -⟩ := hf.choice_known hh ht
  exact ⟨hdomain ▸ hlen, hdomain ▸ f.space.nodup_states⟩

theorem isAt_mem (hf : f.Known n) (hh : h < f.numHistories) (ht : t < f.numTimes) (hs : s ∈ f.space.states) :
    (s, f.isAt h t s) ∈ (f.choice h t).pairs := by
  have hreg := hf.regular hh ht
  obtain ⟨l, hl⟩ := hreg.exists_pair ((hf.choice_known hh ht).1.symm ▸ hs)
  rw [isAt, hreg.find?_eq hl]
  exact hl

theorem isAt_lt (hf : f.Known n) (hh : h < f.numHistories) (ht : t < f.numTimes) (hs : s ∈ f.space.states) :
    (f.isAt h t s).var < n :=
  (hf.choice_known hh ht).2.2 _ (List.of_mem_zip (hf.isAt_mem hh ht hs)).2

/-- The literal of the null state is known also where there are no states. -/
theorem isAt_null_lt (hf : f.Known n) (hh : h < f.numHistories) (ht : t < f.numTimes) : (f.isAt h t .null).var < n := by
  by_cases hnull : State.null ∈ f.space.states
  · exact hf.isAt_lt hh ht hnull
  · have hn : ¬ f.space.n < 32 := fun hn => hnull (StateSpace.mem_states.2 ⟨hn, f.space.size_pos⟩)
    have hstates : f.space.states = [] := by rw [StateSpace.states, if_neg hn]
    have hpairs : (f.choice h t).pairs = [] := by
      rw [Choice.pairs, (hf.choice_known hh ht).1, hstates, List.zip_nil_left]
    have hlit : f.isAt h t .null = default := by rw [isAt, Choice.find?, hpairs]; rfl
    rw [hlit]
    exact Nat.lt_of_le_of_lt (Nat.zero_le _) (hf.isActive_lt hh)

theorem isTask_lt (hf : f.Known n) (hs : s.bits < f.space.size) (hs' : s'.bits < f.space.size) :
    (f.isTask s s').var < n := by
  have hlt : s.bits < f.task.size := hf.task_size ▸ hs
  have hrow := hf.task_row _ (Array.getElem_mem hlt)
  have hlt' : s'.bits < f.task[s.bits].size := hrow.1 ▸ hs'
  have hentry : f.isTask s s' = f.task[s.bits][s'.bits] := by
    simp [isTask, Array.getD_eq_getD_getElem?, hlt, hlt']
  rw [hentry]
  exact hrow.2 _ (Array.getElem_mem hlt')

theorem lits_lt (hf : f.Known n) (hh : h < f.numHistories) : ∀ l ∈ f.lits h, l.var < n := by
  intro l hl
  obtain ⟨t, ht, hl⟩ := List.mem_flatMap.1 hl
  exact (hf.choice_known hh (List.mem_range.1 ht)).2.2 l hl

end Known

/-! The histories that an assignment describes. -/

/-- The state of a slot at a time. -/
def stateOf (f : Frame) (σ : Nat → Bool) (h t : Nat) : State := ((f.choice h t).value? σ).getD .null

/-- The states of a slot, time by time. -/
def slot (f : Frame) (σ : Nat → Bool) (h : Nat) : List State := f.times.map (f.stateOf σ h)

/-- The slots in use. -/
def inUse (f : Frame) (σ : Nat → Bool) : List Nat := f.histories.filter fun h => (f.isActive h).holds σ

/-- The states at which a letter is true. -/
def select (f : Frame) (σ : Nat → Bool) (lits : Array Lit) : StateSet :=
  (StateSet.ofSpace f.space).filter fun s => (lits.getD s.bits default).holds σ

def reading (f : Frame) (v : Valuation (Array Lit)) (σ : Nat → Bool) : Model where
  space := f.space
  m := f.m
  histories := (f.inUse σ).map (f.slot σ)
  valuation := v.map fun p => (p.1, f.select σ p.2)

@[simp] theorem mem_inUse : h ∈ f.inUse σ ↔ h < f.numHistories ∧ (f.isActive h).holds σ = true := by
  rw [inUse, List.mem_filter, histories, List.mem_range]

@[simp] theorem mem_select {lits : Array Lit} :
    s ∈ f.select σ lits ↔ s ∈ f.space.states ∧ (lits.getD s.bits default).holds σ = true := by
  rw [select, StateSet.mem_filter, StateSet.mem_ofSpace]

@[simp] theorem length_slot : (f.slot σ h).length = f.numTimes := by simp [slot, times]

theorem getElem?_slot (ht : t < f.numTimes) : (f.slot σ h)[t]? = some (f.stateOf σ h t) := by
  simp [slot, times, ht]

/-- Every slot is in one state at each time. -/
def Settled (f : Frame) (σ : Nat → Bool) : Prop :=
  ∀ h < f.numHistories, ∀ t < f.numTimes, (f.choice h t).Chosen σ

namespace Settled

theorem stateOf_spec (hσ : f.Settled σ) (hf : f.Known n) (hh : h < f.numHistories) (ht : t < f.numTimes) :
    f.stateOf σ h t ∈ f.space.states ∧ (f.choice h t).eval (·.holds σ) = .ok (some (f.stateOf σ h t)) ∧
      ∀ p ∈ (f.choice h t).pairs, p.2.holds σ = true ↔ p.1 = f.stateOf σ h t := by
  obtain ⟨s, hs, hvalue, heval, hiff⟩ := (hσ h hh t ht).value_spec (hf.regular hh ht)
  have hstate : f.stateOf σ h t = s := by rw [stateOf, hvalue, Option.getD_some]
  rw [hstate, ← (hf.choice_known hh ht).1]
  exact ⟨hs, heval, hiff⟩

theorem holds_isAt (hσ : f.Settled σ) (hf : f.Known n) (hh : h < f.numHistories) (ht : t < f.numTimes)
    (hs : s ∈ f.space.states) : (f.isAt h t s).holds σ = true ↔ f.stateOf σ h t = s := by
  rw [(hσ.stateOf_spec hf hh ht).2.2 _ (hf.isAt_mem hh ht hs)]
  exact eq_comm

/-- A slot shows its states, one literal for each state at each time. -/
theorem shows_stateOf (hσ : f.Settled σ) (hf : f.Known n) (hh : h < f.numHistories) (ht : t < f.numTimes) :
    (Display.choice f.space.states).Shows σ (f.choice h t) (f.stateOf σ h t) := by
  have hshows := (hf.regular hh ht).shows_iff.2 (hσ.stateOf_spec hf hh ht).2.2
  rwa [(hf.choice_known hh ht).1] at hshows

end Settled

end Countermodels.History.Frame
