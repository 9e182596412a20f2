import Countermodels.Batch.Pool
import Mathlib

/-! Workers that share a list of tasks. Whatever the schedule, the numbers that have been handed out so far are those up to
the counter, each to one worker; so when all workers have stopped, each task has been done once, and sorting by number gives
the results in the order of the tasks. A worker that gets its turn often enough stops. -/

namespace Countermodels.Pool

open scoped List

variable {α β : Type} {tasks : List α} {f : α → β} {p : Pool β} {w : Worker β} {i j : Nat}

namespace Worker

/-- The number that the worker took and has not finished with. -/
def held (w : Worker β) : List Nat :=
  match w.phase with
  | .busy i => [i]
  | _ => []

/-- The numbers that the worker has taken. -/
def taken (w : Worker β) : List Nat := w.done.map (·.1) ++ w.held

/-- What a step of a worker can be: it takes the next task or finds none, does the task that it took, or does nothing. -/
theorem step_cases (tasks : List α) (f : α → β) (next : Nat) (w : Worker β) (hheld : ∀ i ∈ w.held, i < tasks.length) :
    (w.phase = .ready ∧ next < tasks.length ∧ w.step tasks f next = (next + 1, { w with phase := .busy next })) ∨
    (w.phase = .ready ∧ tasks.length ≤ next ∧ w.step tasks f next = (next + 1, { w with phase := .stopped })) ∨
    (∃ i task, w.phase = .busy i ∧ tasks[i]? = some task ∧
      w.step tasks f next = (next, { phase := .ready, done := w.done ++ [(i, f task)] })) ∨
    (w.phase = .stopped ∧ w.step tasks f next = (next, w)) := by
  unfold step
  cases hphase : w.phase with
  | ready =>
    rcases Nat.lt_or_ge next tasks.length with hlt | hge
    · exact .inl ⟨rfl, hlt, by rw [if_pos hlt]⟩
    · exact .inr (.inl ⟨rfl, hge, by rw [if_neg (Nat.not_lt.2 hge)]⟩)
  | busy i =>
    have hi : i < tasks.length := hheld i (by simp [held, hphase])
    exact .inr (.inr (.inl ⟨i, tasks[i], rfl, List.getElem?_eq_getElem hi, by simp [hi]⟩))
  | stopped => exact .inr (.inr (.inr ⟨rfl, rfl⟩))

end Worker

/-- The numbers that have been taken. -/
def taken (p : Pool β) : List Nat := p.workers.flatMap Worker.taken

/-- The step of a worker leaves the others as they are. -/
theorem step_eq {before after : List (Worker β)} (h : p.workers = before ++ w :: after) :
    p.step tasks f before.length =
      ⟨(w.step tasks f p.next).1, before ++ (w.step tasks f p.next).2 :: after⟩ := by
  simp [step, h]

theorem step_of_none (h : p.workers[i]? = none) : p.step tasks f i = p := by rw [step, h]

theorem exists_split (h : p.workers[i]? = some w) :
    ∃ before after, p.workers = before ++ w :: after ∧ before.length = i := by
  obtain ⟨hi, rfl⟩ := List.getElem?_eq_some_iff.1 h
  exact ⟨p.workers.take i, p.workers.drop (i + 1), by simp, by simp [Nat.le_of_lt hi]⟩

/-- The numbers up to the counter have been handed out once each, what was done was done right, and a worker stops only when
there is nothing left. -/
structure Sound (tasks : List α) (f : α → β) (p : Pool β) : Prop where
  handedOut : p.taken.Perm (List.range (min p.next tasks.length))
  right : ∀ w ∈ p.workers, ∀ r ∈ w.done, tasks[r.1]?.map f = some r.2
  stopped : ∀ w ∈ p.workers, w.phase = .stopped → tasks.length ≤ p.next

namespace Sound

theorem start (tasks : List α) (f : α → β) (workers : Nat) : Sound tasks f (Pool.start workers) where
  handedOut := by simp [Pool.start, Pool.taken, Worker.taken, Worker.held, List.flatMap_replicate]
  right w hw r hr := by
    rw [List.eq_of_mem_replicate hw] at hr
    cases hr
  stopped w hw hstopped := by
    rw [List.eq_of_mem_replicate hw] at hstopped
    cases hstopped

theorem taken_lt (hp : Sound tasks f p) (hw : w ∈ p.workers) : ∀ i ∈ w.taken, i < tasks.length := by
  intro i hi
  have hmem : i ∈ p.taken := List.mem_flatMap.2 ⟨w, hw, hi⟩
  exact (Nat.lt_min.1 (List.mem_range.1 (hp.handedOut.mem_iff.1 hmem))).2

theorem held_lt (hp : Sound tasks f p) (hw : w ∈ p.workers) : ∀ i ∈ w.held, i < tasks.length := fun i hi =>
  hp.taken_lt hw i (List.mem_append_right _ hi)

/-- A worker may be replaced by one that has taken as many more numbers as the counter has passed. -/
theorem replace (hp : Sound tasks f p) {before after : List (Worker β)} (h : p.workers = before ++ w :: after) {next : Nat}
    {w' : Worker β} (extra : List Nat) (hnext : p.next ≤ next) (htaken : w'.taken = w.taken ++ extra)
    (hextra : List.range (min p.next tasks.length) ++ extra = List.range (min next tasks.length))
    (hright : ∀ r ∈ w'.done, tasks[r.1]?.map f = some r.2) (hstopped : w'.phase = .stopped → tasks.length ≤ next) :
    Sound tasks f ⟨next, before ++ w' :: after⟩ := by
  have hothers : ∀ v ∈ before ++ w' :: after, v = w' ∨ v ∈ p.workers := by
    intro v hv
    rw [h]
    simp only [List.mem_append, List.mem_cons] at hv ⊢
    tauto
  refine ⟨?_, fun v hv => ?_, fun v hv => ?_⟩
  · have hmoved : (before ++ w' :: after).flatMap Worker.taken ~ p.taken ++ extra := by
      rw [Pool.taken, h]
      simp only [List.flatMap_append, List.flatMap_cons, htaken, List.append_assoc]
      exact .append_left _ (.append_left _ List.perm_append_comm)
    exact hextra ▸ hmoved.trans (hp.handedOut.append_right extra)
  · rcases hothers v hv with rfl | hv
    · exact hright
    · exact hp.right v hv
  · rcases hothers v hv with rfl | hv
    · exact hstopped
    · exact fun hphase => (hp.stopped v hv hphase).trans hnext

theorem step (hp : Sound tasks f p) (i : Nat) : Sound tasks f (p.step tasks f i) := by
  cases hw : p.workers[i]? with
  | none => rwa [step_of_none hw]
  | some w =>
    obtain ⟨before, after, h, rfl⟩ := exists_split hw
    have hmem : w ∈ p.workers := List.mem_of_getElem? hw
    rw [step_eq h]
    rcases w.step_cases tasks f p.next (hp.held_lt hmem) with ⟨hphase, hlt, hstep⟩ | ⟨hphase, hge, hstep⟩ |
      ⟨k, task, hphase, htask, hstep⟩ | ⟨hphase, hstep⟩
    · rw [hstep]
      refine hp.replace h [p.next] (Nat.le_succ _) (by simp [Worker.taken, Worker.held, hphase]) ?_ (hp.right w hmem) (by simp)
      rw [Nat.min_eq_left (Nat.le_of_lt hlt), Nat.min_eq_left hlt, List.range_succ]
    · rw [hstep]
      refine hp.replace h [] (Nat.le_succ _) (by simp [Worker.taken, Worker.held, hphase]) ?_ (hp.right w hmem)
        fun _ => Nat.le_succ_of_le hge
      rw [Nat.min_eq_right hge, Nat.min_eq_right (Nat.le_succ_of_le hge), List.append_nil]
    · rw [hstep]
      refine hp.replace h [] (Nat.le_refl _) (by simp [Worker.taken, Worker.held, hphase]) (by simp) ?_ (by simp)
      simpa [or_imp, forall_and, htask] using hp.right w hmem
    · rw [hstep]
      exact hp.replace h [] (Nat.le_refl _) (by simp) (by simp) (hp.right w hmem) (hp.stopped w hmem)

theorem run (hp : Sound tasks f p) (schedule : List Nat) : Sound tasks f (p.run tasks f schedule) := by
  induction schedule generalizing p with
  | nil => exact hp
  | cons i schedule ih => exact ih (hp.step i)

/-- No number is taken twice, so no task is done twice. -/
theorem nodup_done (hp : Sound tasks f p) : ((p.workers.flatMap Worker.done).map (·.1)).Nodup := by
  have htaken : p.taken.Nodup := hp.handedOut.nodup_iff.2 List.nodup_range
  have hsub : (p.workers.flatMap Worker.done).map (·.1) <+ p.taken := by
    rw [List.map_flatMap]
    exact List.Sublist.flatMap_right _ fun w _ => List.sublist_append_left _ _
  exact htaken.sublist hsub

end Sound

/-! Progress. -/

namespace Worker

/-- Number of steps that the worker can still make if it is to do all tasks that it has not done. -/
def left (w : Worker β) (numTasks : Nat) : Nat :=
  match w.phase with
  | .ready => 2 * (numTasks - w.done.length) + 1
  | .busy _ => 2 * (numTasks - w.done.length)
  | .stopped => 0

/-- A worker with room for the task that it took makes one step of those that are left. -/
theorem left_step (w : Worker β) (next : Nat) (hheld : ∀ i ∈ w.held, i < tasks.length)
    (hroom : w.taken.length ≤ tasks.length) :
    (w.step tasks f next).2.left tasks.length ≤ w.left tasks.length - 1 := by
  rcases w.step_cases tasks f next hheld with ⟨hphase, -, hstep⟩ | ⟨hphase, -, hstep⟩ | ⟨i, task, hphase, -, hstep⟩ |
    ⟨hphase, hstep⟩
  · simp [hstep, left, hphase]
  · simp [hstep, left, hphase]
  · simp only [taken, held, hphase, List.length_append, List.length_map, List.length_singleton] at hroom
    simp only [hstep, left, hphase, List.length_append, List.length_singleton]
    omega
  · simp [hstep, left, hphase]

theorem stopped_of_left (hroom : w.taken.length ≤ tasks.length) (h : w.left tasks.length = 0) : w.phase = .stopped := by
  cases hphase : w.phase with
  | ready => simp [left, hphase] at h
  | busy i =>
    simp only [taken, held, left, hphase, List.length_append, List.length_map, List.length_singleton] at hroom h
    omega
  | stopped => rfl

end Worker

theorem Sound.length_taken_le (hp : Sound tasks f p) (hw : w ∈ p.workers) : w.taken.length ≤ tasks.length := by
  have hsub : w.taken <+ p.taken := List.sublist_flatten_of_mem (List.mem_map_of_mem hw)
  have hlength : p.taken.length = min p.next tasks.length := by rw [hp.handedOut.length_eq, List.length_range]
  exact hsub.length_le.trans (hlength ▸ Nat.min_le_right ..)

/-- Number of steps that are left to the worker with a given number. -/
def left (p : Pool β) (numTasks i : Nat) : Nat := (p.workers[i]?.map (·.left numTasks)).getD 0

theorem Sound.left_step (hp : Sound tasks f p) (i j : Nat) :
    (p.step tasks f i).left tasks.length j ≤ p.left tasks.length j - [i].count j := by
  cases hw : p.workers[i]? with
  | none =>
    rw [step_of_none hw]
    by_cases hij : i = j
    · simp [Pool.left, ← hij, hw]
    · simp [hij]
  | some w =>
    have hmem : w ∈ p.workers := List.mem_of_getElem? hw
    have hworkers : (p.step tasks f i).workers = p.workers.set i (w.step tasks f p.next).2 := by simp [Pool.step, hw]
    by_cases hij : i = j
    · subst hij
      obtain ⟨hi, rfl⟩ := List.getElem?_eq_some_iff.1 hw
      simpa [Pool.left, hworkers, hi] using Worker.left_step (f := f) _ p.next (hp.held_lt hmem) (hp.length_taken_le hmem)
    · simp [Pool.left, hworkers, hij]

theorem Sound.left_run (hp : Sound tasks f p) (schedule : List Nat) (j : Nat) :
    (p.run tasks f schedule).left tasks.length j ≤ p.left tasks.length j - schedule.count j := by
  induction schedule generalizing p with
  | nil => exact Nat.le_refl _
  | cons i schedule ih =>
    have hstep := hp.left_step i j
    have hrest : ((p.step tasks f i).run tasks f schedule).left tasks.length j ≤ _ := ih (hp.step i)
    have hcount : ([i] ++ schedule).count j = [i].count j + schedule.count j := List.count_append
    show ((p.step tasks f i).run tasks f schedule).left tasks.length j ≤ _ - ([i] ++ schedule).count j
    omega

theorem length_workers_run (schedule : List Nat) : (p.run tasks f schedule).workers.length = p.workers.length := by
  induction schedule generalizing p with
  | nil => rfl
  | cons i schedule ih =>
    refine (ih (p := p.step tasks f i)).trans ?_
    unfold step
    split <;> simp

/-- If every worker has a turn for each step that it can make, all of them stop. -/
theorem isFinished_run {workers : Nat} {schedule : List Nat}
    (hturns : ∀ i < workers, 2 * tasks.length + 1 ≤ schedule.count i) :
    ((start workers).run tasks f schedule).isFinished = true := by
  have hp : Sound tasks f (start workers : Pool β) := .start tasks f workers
  have hsound := hp.run schedule
  refine List.all_eq_true.2 fun w hw => decide_eq_true ?_
  obtain ⟨i, hi, rfl⟩ := List.getElem_of_mem hw
  have hlength : ((start workers).run tasks f schedule).workers.length = workers := by
    rw [length_workers_run, start, List.length_replicate]
  have hstart : (start workers : Pool β).left tasks.length i = 2 * tasks.length + 1 := by
    simp [Pool.left, start, hlength ▸ hi, Worker.left]
  have hleft := hp.left_run schedule i
  have hcount := hturns i (hlength ▸ hi)
  refine Worker.stopped_of_left (hsound.length_taken_le hw) ?_
  have hat : ((start workers).run tasks f schedule).left tasks.length i =
      (((start workers).run tasks f schedule).workers[i]).left tasks.length := by simp [Pool.left, hi]
  omega

/-- The schedule by turns is long enough. -/
theorem count_turns {workers i : Nat} (numTasks : Nat) (hi : i < workers) :
    (turns workers numTasks).count i = 2 * numTasks + 1 := by
  have honce : (List.range workers).count i = 1 := List.count_eq_one_of_mem List.nodup_range (List.mem_range.2 hi)
  simp [turns, List.count_flatMap, Function.comp_def, honce]

/-! Results. -/

theorem Sound.next_of_isFinished (hp : Sound tasks f p) (hfinished : p.isFinished = true)
    (hworkers : p.workers = [] → tasks = []) : tasks.length ≤ p.next := by
  cases h : p.workers with
  | nil => simp [hworkers h]
  | cons w rest =>
    have hw : w ∈ p.workers := h ▸ List.mem_cons_self
    exact hp.stopped w hw (of_decide_eq_true (List.all_eq_true.1 hfinished w hw))

/-- When all workers have stopped and nothing is left, each task has been done. -/
theorem Sound.done_perm (hp : Sound tasks f p) (hfinished : p.isFinished = true) (hnext : tasks.length ≤ p.next) :
    (p.workers.flatMap Worker.done).map (·.1) ~ List.range tasks.length := by
  have hheld : ∀ w ∈ p.workers, w.taken = w.done.map (·.1) := by
    intro w hw
    have hphase : w.phase = .stopped := of_decide_eq_true (List.all_eq_true.1 hfinished w hw)
    simp [Worker.taken, Worker.held, hphase]
  have htaken := hp.handedOut
  rwa [Pool.taken, List.flatMap_congr hheld, ← List.map_flatMap, Nat.min_eq_right hnext] at htaken

theorem Sound.results_eq (hp : Sound tasks f p) (hfinished : p.isFinished = true) (hnext : tasks.length ≤ p.next) :
    p.results = tasks.map f := by
  have hright : ∀ r ∈ p.workers.flatMap Worker.done, tasks[r.1]?.map f = some r.2 := by
    intro r hr
    obtain ⟨w, hw, hr⟩ := List.mem_flatMap.1 hr
    exact hp.right w hw r hr
  have hperm := hp.done_perm hfinished hnext
  rw [results]
  generalize p.workers.flatMap Worker.done = done at hright hperm
  have hsort := done.mergeSort_perm fun a b => a.1 ≤ b.1
  have hordered : (done.mergeSort fun a b => a.1 ≤ b.1).Pairwise fun a b => decide (a.1 ≤ b.1) = true :=
    List.pairwise_mergeSort (fun a b c hab hbc => by simp only [decide_eq_true_eq] at *; omega) (fun a b => by simp; omega) done
  generalize done.mergeSort (fun a b => a.1 ≤ b.1) = sorted at hsort hordered
  have hnumbers : sorted.map (·.1) = List.range tasks.length := by
    refine ((hsort.map _).trans hperm).eq_of_pairwise' ?_ List.pairwise_le_range
    exact List.pairwise_map.2 (hordered.imp of_decide_eq_true)
  refine List.map_injective_iff.2 (Option.some_injective β) ?_
  calc (sorted.map (·.2)).map some = sorted.map fun r => tasks[r.1]?.map f := by
        rw [List.map_map]
        exact List.map_congr_left fun r hr => (hright r (hsort.mem_iff.1 hr)).symm
    _ = (List.range tasks.length).map fun i => tasks[i]?.map f := by rw [← hnumbers, List.map_map]; rfl
    _ = (tasks.map f).map some := List.ext_getElem (by simp) fun i hi hi' => by simp at hi; simp [hi]

end Countermodels.Pool
