/-! Broken promises. A total program still has steps that are only meaningful when an earlier step
kept its promise: a table must hold the index it is asked for, a literal put on the trail must be
free. Such a step answers with the promise that was broken instead of inventing a value. -/

namespace Countermodels

/-- The promises a computation can find broken. -/
inductive Fault where
  /-- A table has no entry at the index. -/
  | index
  /-- A literal that already has a value was put on the trail. -/
  | assigned
  /-- A watched literal does not stand in a watched place of its clause. -/
  | watch
  /-- A clause of fewer than two literals was to be watched. -/
  | short
  /-- A literal that must have been propagated has no reason. -/
  | reason
  /-- Conflict analysis ran off the start of the trail. -/
  | trail
  /-- Conflict analysis closed more paths than it had opened. -/
  | path
  /-- A step of the root level was taken above it. -/
  | level
  /-- A search was started on refuted clauses. -/
  | refuted
  /-- A machine number left its range. -/
  | overflow
  /-- A loop ran past its bound. -/
  | bound
  /-- A sentence letter is not an uppercase letter. -/
  | letter
  /-- A definition asks for an argument its operator does not have. -/
  | hole
  /-- A number of seconds is too large for a duration. -/
  | duration
  /-- A value does not belong to the domain of a choice. -/
  | domain
  /-- A choice has two values at once. -/
  | choice
  /-- A literal has no value in the last model. -/
  | value
  /-- Two lists that must be compared position by position differ in length. -/
  | length
  /-- A comparison that must be an order contradicts itself. -/
  | order
  deriving DecidableEq, Repr

end Countermodels
