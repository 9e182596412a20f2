import Countermodels.Cli

/-! The program: it reads the file of a run, takes the time of each check and prints the result. -/

namespace Countermodels.Program

/-- Time as a check sees it that may put a number of questions to its deadline: it stands still until
they are used up, and then every deadline has come. -/
def questionClock (questions i : Nat) : Nat :=
  if i < questions then 0 else Deadline.never.maxTime.nanoseconds

/-- The time that was allowed to a check whose deadline came. -/
def stoppedAfter? : Except Fault Outcome → Option Duration
  | .ok { result := .error (.timeout maxTime), .. } => some maxTime
  | .ok { result := .ok { stop := some (.timeout maxTime), .. }, .. } => some maxTime
  | _ => none

/-- The time that was allowed to something that failed when its deadline came. -/
def refusedAfter? {α : Type} : Except Failure α → Option Duration
  | .error (.refused (.timeout maxTime)) => some maxTime
  | _ => none

/-- Number of questions that the check of an example puts to its deadline before it searches. -/
def questionsBefore (b : Batch) (clock : Nat → Nat) (e : Example) : Except Failure Nat := do
  let theory ← Failure.ofRefusal (Theory.get b.theory)
  let p ← e.compile b.symbols
  let premises ← p.premises.mapM theory.prepare
  let conclusions ← p.conclusions.mapM theory.prepare
  let encoding ← Encoding.build theory p.settings p.letters (.start clock p.settings.maxTime false)
  match Check.writeGoal { p with premises, conclusions } encoding with
  | .error failure _ => throw failure
  | .ok _ encoding => return encoding.draft.deadline.budget.polls

/-- Seconds with three decimals. -/
def secondsText (nanoseconds : Nat) : String :=
  let ms := (nanoseconds + 500000) / 1000000
  let digits := toString (1000 + ms % 1000)
  toString (ms / 1000) ++ "." ++ (digits.drop 1).toString

/-- Evaluate something that puts questions to a deadline, and take the time. It is no action, so it
cannot look at the clock. It gets a number of questions instead, and as long as they are used up before
the time that was allowed has passed, it is evaluated again with half as many more. -/
def paced {α : Type} (value : Nat → α) (stoppedAfter? : α → Option Duration) (runs questions : Nat) :
    IO (α × Nat) := do
  let start ← IO.monoNanosNow
  let result ← IO.lazyPure fun _ => value questions
  let elapsed := (← IO.monoNanosNow) - start
  match runs, stoppedAfter? result with
  | runs + 1, some allowed =>
    if elapsed < allowed.nanoseconds then
      paced value stoppedAfter? runs (questions + questions / 2 + 1)
    else return (result, elapsed)
  | _, _ => return (result, elapsed)

/-- Number of times that something may be evaluated. -/
def mostRuns : Nat := 128

/-- Run an example and take the time. Much more time passes between two questions of a search than
between two others, so those that come before the search are counted first. -/
def timed (b : Batch) (named : String × Example) : IO (Except Fault Outcome × String) := do
  let count := fun questions => questionsBefore b (questionClock questions) named.2
  let (counted, _) ← paced count refusedAfter? mostRuns 0
  let before := counted.toOption.getD 0
  let run := fun questions => b.runOne (questionClock (before + questions)) false named
  let (outcome, elapsed) ← paced run stoppedAfter? mostRuns 0
  return (outcome, secondsText elapsed)

/-- Run the examples of a batch, at most as many at a time as it has workers. -/
def runTimed (b : Batch) : Nat → List (String × Example) → IO (List (Except Fault Outcome × String))
  | 0, _ => return []
  | fuel + 1, examples => do
    if examples.isEmpty then return []
    let tasks ← (examples.take b.numWorkers).mapM fun e => IO.asTask (timed b e)
    let done ← tasks.mapM fun task => IO.ofExcept task.get
    return done ++ (← runTimed b fuel (examples.drop b.numWorkers))

/-- Print the outcomes of a batch. -/
def report (b : Batch) (printModels : Bool) (done : List (Except Fault Outcome × String)) :
    IO UInt32 := do
  let printed : Except Fault (List Outcome × List String) := do
    let outcomes ← done.mapM (·.1)
    let lines ← (outcomes.zip done).mapM fun (o, _, elapsed) => Cli.outcomeLines b printModels o elapsed
    return (outcomes, lines.flatten)
  match printed with
  | .error _ => return Cli.faultCode.toUInt32
  | .ok (outcomes, lines) =>
    for line in lines do IO.println line
    let failed := (Summary.ofOutcomes outcomes).failed
    if failed ≠ 0 then IO.eprintln s!"Error: {failed} example(s) did not meet their expectation"
    return (Cli.exitCode outcomes).toUInt32

def fail (message : String) : IO UInt32 := do
  IO.eprintln ("Error: " ++ message)
  return 1

/-- Run the examples of a file. -/
def run (options : Cli.RunOptions) : IO UInt32 := do
  match ← (IO.FS.readFile options.file).toBaseIO with
  | .error _ => fail ("Could not read '" ++ options.file ++ "'")
  | .ok text =>
    match Cli.planRun options text with
    | .error message => fail message
    | .ok batch =>
      report batch options.printModels (← runTimed batch batch.examples.length batch.examples)

end Countermodels.Program

open Countermodels in
def main (args : List String) : IO UInt32 := do
  match Cli.command? args with
  | some (.run options) => Program.run options
  | some _ =>
    for line in (Cli.respond args (fun _ => none) (fun _ => 0) "").lines do IO.println line
    return 0
  | none =>
    for line in Cli.usage do IO.eprintln line
    return Cli.misuseCode.toUInt32
