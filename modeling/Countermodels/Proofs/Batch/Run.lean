import Countermodels.Batch
import Countermodels.Proofs.Batch.Pool
import Countermodels.Proofs.Gives

/-! Batches run by several workers. The outcomes do not depend on the number of workers nor on the order of their steps:
they are those of the examples one after the other. -/

namespace Countermodels.Batch

open scoped List

variable (b : Batch) (clock : Nat → Nat) (interrupt : Bool)

/-- The workers after the steps of a schedule. -/
def pool (schedule : List Nat) : Pool (Except Fault Outcome) :=
  (Pool.start b.numWorkers).run b.examples (b.runOne clock interrupt) schedule

/-- The outcomes that are gathered after the steps of a schedule. -/
def runOn (schedule : List Nat) : Except Fault (List Outcome) :=
  if b.numWorkers ≤ 1 then b.examples.mapM (b.runOne clock interrupt)
  else (b.pool clock interrupt schedule).results.mapM id

theorem run_eq_runOn : b.run clock interrupt = b.runOn clock interrupt (Pool.turns b.numWorkers b.examples.length) := rfl

variable {b clock interrupt} {schedule : List Nat}

theorem sound_pool : Pool.Sound b.examples (b.runOne clock interrupt) (b.pool clock interrupt schedule) :=
  (Pool.Sound.start ..).run schedule

theorem next_pool (hfinished : (b.pool clock interrupt schedule).isFinished = true) :
    b.examples.length ≤ (b.pool clock interrupt schedule).next := by
  refine sound_pool.next_of_isFinished hfinished fun hnone => ?_
  have hlength : (b.pool clock interrupt schedule).workers.length = (Pool.start b.numWorkers).workers.length :=
    Pool.length_workers_run schedule
  rw [hnone] at hlength
  simp only [Pool.start, List.length_replicate, List.length_nil, numWorkers] at hlength
  exact List.length_eq_zero_iff.1 (by omega)

theorem results_pool (hfinished : (b.pool clock interrupt schedule).isFinished = true) :
    (b.pool clock interrupt schedule).results = b.examples.map (b.runOne clock interrupt) :=
  sound_pool.results_eq hfinished (next_pool hfinished)

theorem runOn_eq (hfinished : (b.pool clock interrupt schedule).isFinished = true) :
    b.runOn clock interrupt schedule = b.examples.mapM (b.runOne clock interrupt) := by
  unfold runOn
  split
  · rfl
  · rw [results_pool hfinished, List.mapM_map]
    rfl

theorem run_eq : b.run clock interrupt = b.examples.mapM (b.runOne clock interrupt) := by
  rw [run_eq_runOn]
  refine runOn_eq (Pool.isFinished_run fun i hi => ?_)
  exact Nat.le_of_eq (Pool.count_turns _ hi).symm

/-- With any number of workers, a batch has the outcomes of its examples one after the other. Under any schedule no example
is checked twice; every worker that gets its turns comes to an end; and when all have, every example has been checked, the
outcomes stand in the order of the examples, and none of them depends on another example. -/
theorem parallel_batches_equal_sequential (b : Batch) (clock : Nat → Nat) (interrupt : Bool) :
    (∀ jobs, { b with jobs }.run clock interrupt = b.examples.mapM (b.runOne clock interrupt)) ∧
      ∀ schedule,
        let p := b.pool clock interrupt schedule
        ((p.workers.flatMap Pool.Worker.done).map (·.1)).Nodup ∧
          ((∀ worker < b.numWorkers, 2 * b.examples.length + 1 ≤ schedule.count worker) → p.isFinished = true) ∧
          (p.isFinished = true →
            (p.workers.flatMap Pool.Worker.done).map (·.1) ~ List.range b.examples.length ∧
              p.results = b.examples.map (b.runOne clock interrupt) ∧
              b.runOn clock interrupt schedule = { b with jobs := 1 }.run clock interrupt ∧
              (∀ outcome, (∀ e ∈ b.examples, b.runOne clock interrupt e = .ok (outcome e)) →
                b.runOn clock interrupt schedule = .ok (b.examples.map outcome)) ∧
              ∀ i e schedule', ({ b with examples := b.examples.set i e }.pool clock interrupt schedule').isFinished = true →
                ∀ j ≠ i, ({ b with examples := b.examples.set i e }.pool clock interrupt schedule').results[j]? =
                  p.results[j]?) := by
  refine ⟨fun jobs => run_eq, fun schedule => ⟨sound_pool.nodup_done, Pool.isFinished_run, fun hfinished => ?_⟩⟩
  refine ⟨sound_pool.done_perm hfinished (next_pool hfinished), results_pool hfinished, ?_, fun outcome h => ?_, ?_⟩
  · exact (runOn_eq hfinished).trans (run_eq (b := { b with jobs := 1 })).symm
  · rw [runOn_eq hfinished, mapM_eq_ok h]
  · intro i e schedule' hfinished' j hj
    rw [results_pool hfinished, results_pool hfinished', List.getElem?_map, List.getElem?_map]
    exact congrArg _ (List.getElem?_set_ne (Ne.symm hj))

/-- Three examples, of which one cannot be read, for two workers. -/
def shared : Batch where
  theory := "bimodal"
  examples := [("a", { premises := ["A"] }), ("b", { premises := ["(A"] }), ("c", { conclusions := ["A"] })]
  jobs := 2

/-- The first worker takes the first example and falls asleep over it, while the second checks the others. -/
theorem parallel_batches_equal_sequential_shared :
    let p := shared.pool (fun _ => 0) false [0, 1, 1, 1, 1, 1, 0, 0]
    p.isFinished = true ∧ p.workers.map (·.done.map (·.1)) = [[0], [1, 2]] ∧
      p.results = shared.examples.map (shared.runOne (fun _ => 0) false) := by
  intro p
  have hfinished : p.isFinished = true := by decide +kernel
  obtain ⟨-, hschedule⟩ := parallel_batches_equal_sequential shared (fun _ => 0) false
  exact ⟨hfinished, by decide +kernel, ((hschedule _).2.2 hfinished).2.1⟩

end Countermodels.Batch
