/-! Parameters of the search. -/

namespace Countermodels.Sat

/-- How far a learnt clause is shrunk after the first unique implication point is found. -/
inductive Minimization where
  | none
  /-- Drop a literal whose reason is covered by the rest of the clause. -/
  | direct
  /-- Drop a literal that follows from the rest of the clause through a chain of reasons. -/
  | deep
  deriving DecidableEq, Repr

structure Options where
  /-- Restart after the Luby sequence rather than a geometric one. -/
  luby : Bool := true
  /-- Conflicts before the first restart. -/
  restartFirst : Nat := 100
  restartGrowth : Float := 2.0
  /-- Learnt clauses kept, as a fraction of the given clauses. -/
  learntFactor : Float := 1.0 / 3.0
  learntGrowth : Float := 1.1
  adjustFirst : Float := 100.0
  adjustGrowth : Float := 1.5
  varDecay : Float := 0.95
  clauseDecay : Float := 0.999
  /-- The value tried first for a variable that never had one. -/
  firstPhase : Bool := false
  minimization : Minimization := .deep
  deriving Repr

end Countermodels.Sat
