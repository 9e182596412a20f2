/-! Workers that share a list of tasks. A counter says which task is next; a worker takes that number and
raises the counter in one step, and does the task in another. Steps of different workers interleave in
any order. -/

namespace Countermodels.Pool

/-- What a worker does next. -/
inductive Phase where
  /-- Take the number of a task. -/
  | ready
  /-- Do the task it took. -/
  | busy (task : Nat)
  /-- Nothing: there was no task left. -/
  | stopped
  deriving DecidableEq, Repr

structure Worker (β : Type) where
  phase : Phase := .ready
  /-- Numbers and results of the tasks it did, in the order of doing. -/
  done : List (Nat × β) := []

end Countermodels.Pool

namespace Countermodels

structure Pool (β : Type) where
  next : Nat := 0
  workers : List (Pool.Worker β)

end Countermodels

namespace Countermodels.Pool

variable {α β : Type}

def start (workers : Nat) : Pool β := { workers := List.replicate workers {} }

/-- A step of a worker, given the counter. -/
def Worker.step (tasks : List α) (f : α → β) (next : Nat) (w : Worker β) : Nat × Worker β :=
  match w.phase with
  | .ready => (next + 1, { w with phase := if next < tasks.length then .busy next else .stopped })
  | .busy i =>
    match tasks[i]? with
    | some task => (next, { phase := .ready, done := w.done ++ [(i, f task)] })
    | none => (next, { w with phase := .stopped })
  | .stopped => (next, w)

/-- The step of the worker with a given number. -/
def step (tasks : List α) (f : α → β) (p : Pool β) (i : Nat) : Pool β :=
  match p.workers[i]? with
  | some w =>
    let (next, w) := w.step tasks f p.next
    { next, workers := p.workers.set i w }
  | none => p

/-- The steps of a schedule, which names a worker for each. -/
def run (tasks : List α) (f : α → β) (schedule : List Nat) (p : Pool β) : Pool β :=
  schedule.foldl (step tasks f) p

def isFinished (p : Pool β) : Bool := p.workers.all (·.phase = .stopped)

/-- The results of all workers in the order of the tasks. -/
def results (p : Pool β) : List β :=
  ((p.workers.flatMap Worker.done).mergeSort fun a b => a.1 ≤ b.1).map (·.2)

/-- A schedule that gives every worker its turn until there is nothing left to do: in two rounds each
worker finishes a task, and in a last one it stops. -/
def turns (workers tasks : Nat) : List Nat :=
  (List.range (2 * tasks + 1)).flatMap fun _ => List.range workers

end Countermodels.Pool
