/-! A budget is asked from time to time whether it is used up. What it answers depends on clocks and
flags outside, so it is given by the answers to the questions, in the order in which they are asked. -/

namespace Countermodels

structure Budget where
  answers : Nat → Bool
  /-- Number of questions asked so far. -/
  polls : Nat := 0

namespace Budget

def unlimited : Budget := { answers := fun _ => false }

def exhausted : Budget := { answers := fun _ => true }

/-- Ask whether the budget is used up. -/
def poll (b : Budget) : Bool × Budget := (b.answers b.polls, { b with polls := b.polls + 1 })

end Budget

end Countermodels
