import Countermodels.Cnf.Gates
import Countermodels.Deadline

/-! Clauses being written under a deadline. -/

namespace Countermodels

structure Draft where
  cnf : Cnf := {}
  deadline : Deadline

/-- What is written stays written when a step fails. -/
abbrev DraftM := EStateM Failure Draft

namespace Draft

variable {α : Type}

def emit (m : StateM Cnf α) : DraftM α := fun d =>
  let (a, cnf) := m d.cnf
  .ok a { d with cnf }

/-- Give up if the deadline has come. -/
def checkDeadline : DraftM Unit := fun d =>
  let (expired, deadline) := d.deadline.poll
  let d := { d with deadline }
  if expired then .error deadline.error d else .ok () d

end Draft

end Countermodels
