import Countermodels.CheckError
import Countermodels.Sat.Budget

/-! The time that a check may take. One deadline bounds the writing of the clauses and every search. -/

namespace Countermodels

structure Deadline where
  maxTime : Duration
  budget : Budget

namespace Deadline

/-- A deadline that never comes. -/
def never : Deadline := ⟨⟨(1 <<< 64) * Duration.perSecond - 1⟩, .unlimited⟩

/-- A deadline after some time. The clock gives the nanoseconds that have passed since the start, at
each question; an interrupt brings the deadline at once. -/
def start (clock : Nat → Nat) (maxTime : Duration) (interrupt : Bool) : Deadline :=
  ⟨maxTime, { answers := fun i => interrupt || maxTime.nanoseconds ≤ clock i }⟩

/-- Ask whether the deadline has come. -/
def poll (d : Deadline) : Bool × Deadline :=
  let (expired, budget) := d.budget.poll
  (expired, { d with budget })

def error (d : Deadline) : Failure := .refused (.timeout d.maxTime)

end Deadline

end Countermodels
