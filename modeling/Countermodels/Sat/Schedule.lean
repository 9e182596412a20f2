import Countermodels.Number.Power
import Countermodels.Sat.Luby
import Countermodels.Sat.Options

/-! When to restart, and how many learnt clauses to keep. -/

namespace Countermodels.Sat

/-- The entry of a Luby sequence with the given base. -/
def Luby.entry (base : Float) (index : Nat) : Except Fault Float := do
  return Number.power base (← exponent index)

/-- Number of conflicts allowed before the next restart. The restarts so far enter as a word of 32
bits, with a sign in the geometric sequence. -/
def Options.allowance (options : Options) (restarts : Nat) : Except Fault Nat := do
  let scale ←
    if options.luby then Luby.entry options.restartGrowth (restarts % Luby.wordLimit)
    else .ok (Number.power options.restartGrowth (Int.bmod restarts Luby.wordLimit))
  return Number.toWord (scale * Number.ofWord options.restartFirst)

/-- A cap on the learnt clauses. It grows each time a countdown of conflicts runs out, and the
countdown grows with it. -/
structure LearntLimit where
  cap : Float := 0.0
  interval : Float := 0.0
  countdown : Nat := 0
  deriving Repr, Inhabited

namespace LearntLimit

/-- The least cap of a search. -/
def floor : Float := 1000.0

/-- The limit at the start of a search over a number of given clauses. -/
def start (options : Options) (clauses : Nat) : LearntLimit :=
  let share := Number.ofWord clauses * options.learntFactor
  { cap := if share > floor then share else floor
    interval := options.adjustFirst
    countdown := Number.toWord options.adjustFirst }

/-- Count a conflict; says whether the cap was raised. -/
def onConflict (limit : LearntLimit) (options : Options) : Bool × LearntLimit :=
  if 1 < limit.countdown then (false, { limit with countdown := limit.countdown - 1 })
  else
    let interval := limit.interval * options.adjustGrowth
    (true, { cap := limit.cap * options.learntGrowth, interval, countdown := Number.toWord interval })

/-- Count conflicts; says at which of them, from 1, the cap was raised. -/
def onConflicts (options : Options) (count : Nat) (limit : LearntLimit) : List Nat × LearntLimit :=
  let (raised, limit) := (List.range count).foldl (fun (raised, limit) i =>
    let (now, limit) := onConflict limit options
    (if now then (i + 1) :: raised else raised, limit)) ([], limit)
  (raised.reverse, limit)

/-- Learnt clauses allowed while a number of literals is assigned. -/
def allowed (limit : LearntLimit) (assigned : Nat) : Except Fault Nat :=
  let total := Number.toWord limit.cap + assigned
  if total < 1 <<< 64 then .ok total else .error .overflow

end LearntLimit

end Countermodels.Sat
