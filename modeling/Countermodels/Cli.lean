import Countermodels.Batch
import Countermodels.Example.Reader

/-! The command line: which command a list of arguments stands for, what a run prints, and how it
ends. -/

namespace Countermodels.Cli

/-- A named option. -/
inductive Flag where
  | verbose
  | help
  | version
  | theory
  | only
  | jobs
  | printModels
  | rename
  deriving DecidableEq, Repr

namespace Flag

def long : Flag → String
  | verbose => "verbose"
  | help => "help"
  | version => "version"
  | theory => "theory"
  | only => "only"
  | jobs => "jobs"
  | printModels => "print-models"
  | rename => "translate"

def short? : Flag → Option Char
  | verbose => some 'v'
  | help => some 'h'
  | version => some 'V'
  | theory => some 't'
  | jobs => some 'j'
  | _ => none

def takesValue : Flag → Bool
  | theory | only | jobs | rename => true
  | _ => false

/-- Whether an option may be given several times. -/
def repeats : Flag → Bool
  | verbose | only | rename => true
  | _ => false

end Flag

structure RunOptions where
  file : String
  theory : Option String := none
  only : List String := []
  jobs : Nat := 1
  printModels : Bool := false
  renamings : List String := []
  deriving DecidableEq, Repr

inductive Command where
  | run (options : RunOptions)
  | theories
  | help
  | version
  deriving DecidableEq, Repr

/-- Why no command is read any further. -/
inductive Halt where
  | misuse
  | help
  | version
  deriving DecidableEq, Repr

/-- Arguments read so far. -/
structure Given where
  /-- Options with the values that follow them, the last one first. -/
  options : List (Flag × Option String) := []
  /-- Other arguments, the last one first. -/
  operands : List String := []
  /-- An option that waits for its value. -/
  pending : Option Flag := none

namespace Given

/-- Read an option with the value that follows it. -/
def add (g : Given) (flag : Flag) (value : Option String) : Except Halt Given :=
  match flag with
  | .help => .error .help
  | .version => .error .version
  | _ => .ok { g with options := (flag, value) :: g.options }

/-- Where a value was expected and none follows, the option stands without it. -/
def release (g : Given) : Given :=
  { g with pending := none, options := (g.pending.map (·, none)).toList ++ g.options }

/-- Read the text after `--`. -/
def readLong (scope : List Flag) (text : List Char) (g : Given) : Except Halt Given :=
  let g := g.release
  let name := String.ofList (text.takeWhile (· ≠ '='))
  match scope.find? (·.long = name), text.dropWhile (· ≠ '=') with
  | none, _ => .error .misuse
  | some flag, _ :: value =>
    if flag.takesValue then g.add flag (some (String.ofList value)) else .error .misuse
  | some flag, [] => if flag.takesValue then .ok { g with pending := some flag } else g.add flag none

/-- Read the letters after `-`. What follows the letter of an option with a value is the value. -/
def readLetters (scope : List Flag) : List Char → Given → Except Halt Given
  | [], g => .ok g
  | c :: cs, g =>
    match scope.find? (·.short? = some c) with
    | none => .error .misuse
    | some flag =>
      if flag.takesValue then
        match cs with
        | [] => .ok { g with pending := some flag }
        | '=' :: value => g.add flag (some (String.ofList value))
        | value => g.add flag (some (String.ofList value))
      else do readLetters scope cs (← g.add flag none)

/-- Read an argument that is no option. -/
def readOperand (most : Nat) (arg : String) (g : Given) : Except Halt Given :=
  if g.operands.length < most then .ok { g with operands := arg :: g.operands } else .error .misuse

/-- Read arguments, of which at most `most` are no options. After `--` there are no options. -/
def read (scope : List Flag) (most : Nat) : List String → Given → Except Halt Given
  | [], g => .ok g.release
  | arg :: args, g => do
    match arg.toList with
    | ['-', '-'] => args.foldlM (fun g a => g.readOperand most a) g.release
    | '-' :: '-' :: text => read scope most args (← g.readLong scope text)
    | '-' :: c :: cs => read scope most args (← g.release.readLetters scope (c :: cs))
    | _ =>
      match g.pending with
      | some flag => read scope most args (← { g with pending := none }.add flag (some arg))
      | none => read scope most args (← g.readOperand most arg)

/-- Number of times that an option was given. -/
def count (g : Given) (flag : Flag) : Nat := g.options.countP (·.1 = flag)

/-- The values of an option in the order in which they were given. -/
def values (g : Given) (flag : Flag) : List String :=
  (g.options.reverse.filter (·.1 = flag)).filterMap (·.2)

/-- Whether every option that takes a value has one somewhere, and only those are repeated that may
be. -/
def isComplete (g : Given) : Bool :=
  g.options.all fun (flag, _) =>
    (flag.repeats || g.count flag ≤ 1) && (!flag.takesValue || g.values flag ≠ [])

end Given

/-- A whole number of 64 bits, with an optional plus sign. -/
def readCount? (text : String) : Option Nat :=
  let digits := match text.toList with
    | '+' :: cs => cs
    | cs => cs
  if digits ≠ [] ∧ digits.all Char.isDigit then
    let n := digits.foldl (fun n c => 10 * n + (c.toNat - '0'.toNat)) 0
    if n < 1 <<< 64 then some n else none
  else none

def runScope : List Flag := [.verbose, .help, .theory, .only, .jobs, .printModels, .rename]

def readRun (args : List String) : Except Halt Command := do
  let g ← ({} : Given).read runScope 1 args
  let some file := g.operands.head? | throw .misuse
  let some jobs := readCount? ((g.values .jobs).headD "1") | throw .misuse
  if !g.isComplete then throw .misuse
  return .run {
    file
    theory := (g.values .theory).head?
    only := g.values .only
    jobs
    printModels := 0 < g.count .printModels
    renamings := g.values .rename }

def readTheories (args : List String) : Except Halt Command := do
  let _ ← ({} : Given).read [.verbose, .help] 0 args
  return .theories

/-- What `help` is asked about. -/
def readHelp : List String → Except Halt Command
  | [] => .ok .help
  | [topic] => if topic ∈ ["run", "theories", "help"] then .ok .help else .error .misuse
  | _ => .error .misuse

/-- Read options up to the name of a command, and the command. -/
def readCommand : List String → Except Halt Command
  | [] => .error .misuse
  | arg :: args => do
    if arg = "run" then readRun args
    else if arg = "theories" then readTheories args
    else if arg = "help" then readHelp args
    else
      let _ ← ({} : Given).read [.verbose, .help, .version] 0 [arg]
      if arg = "--" then throw .misuse
      readCommand args

/-- The command that arguments stand for, unless they are misused. -/
def command? (args : List String) : Option Command :=
  match readCommand args with
  | .ok command => some command
  | .error .help => some .help
  | .error .version => some .version
  | .error .misuse => none

def versionLine : String := "modal-nexus-cli 0.1.0"

def usage : List String := [
  versionLine,
  "",
  "USAGE:",
  "    modal-nexus-cli [OPTIONS] run [RUN OPTIONS] <FILE>",
  "    modal-nexus-cli [OPTIONS] theories",
  "",
  "OPTIONS:",
  "    -h, --help                   Print help information",
  "    -v, --verbose                More log output",
  "    -V, --version                Print version information",
  "",
  "RUN OPTIONS:",
  "    -j, --jobs <JOBS>            Number of examples checked in parallel",
  "        --only <NAME>            Only run the named example (repeatable)",
  "        --print-models           Print the extracted models",
  "    -t, --theory <THEORY>        Theory, before the one named in the file",
  "        --translate <FROM=TO>    New name of an operator symbol (repeatable)"]

/-- The lines of a text that ends its last line. -/
def linesOf (text : String) : List String :=
  let lines := text.splitOn "\n"
  if lines.getLast? = some "" then lines.dropLast else lines

/-- The lines that a text takes up on a screen. A carriage return at the end of a line is not seen. -/
def screenLines (text : String) : List String :=
  (text.splitOn "\n").map fun line =>
    if line.toList.getLast? = some '\r' then String.ofList line.toList.dropLast else line

/-- What remains of a message of the log on the screen when the line that bears the time is left out. -/
def logRest (message : String) : List String := (message.splitOn "\n").drop 1

/-- The message at the start of a batch. -/
def startMessage (b : Batch) (file : String) : String :=
  s!"Running {b.examples.length} example(s) from \x27" ++ file ++ "\x27 with theory " ++ b.theory

/-- The details of a report that are printed with its models. -/
def reportLines (e : Example) (r : Report) : Except Fault (List String) := do
  let models ← r.models.zipIdx.mapM fun (model, i) => do
    return ("  Model " ++ toString (i + 1) ++ ":") ::
      (linesOf (← model.text)).map fun line => "    " ++ line
  let stop := r.stop.toList.map fun e => "  (" ++ e.message ++ ")"
  return ["  premises:    " ++ ", ".intercalate e.premises,
    "  conclusions: " ++ ", ".intercalate e.conclusions] ++ models.flatten ++ stop ++
    ["  solver: " ++ r.stats.text]

/-- What is printed of an outcome. -/
def outcomeLines (b : Batch) (printModels : Bool) (o : Outcome) (elapsed : String) :
    Except Fault (List String) := do
  let details ← match o.result, Json.lookup o.name b.examples with
    | .ok report, some e => if printModels then reportLines e report else pure []
    | _, _ => pure []
  return o.text elapsed :: details

/-- Exit code, and printed lines without those of the log that bear the time. -/
structure Response where
  code : Nat
  lines : List String := []
  deriving DecidableEq, Repr

/-- Exit code of a batch: no expectation may be disappointed. -/
def exitCode (outcomes : List Outcome) : Nat :=
  if (Summary.ofOutcomes outcomes).failed = 0 then 0 else 1

def misuseCode : Nat := 2

def faultCode : Nat := 101

/-- The batch of a run, given the text of its file. -/
def planRun (options : RunOptions) (text : String) : Except String Batch := do
  match ExampleFile.parse text with
  | .error _ => throw ("Could not parse '" ++ options.file ++ "'")
  | .ok file =>
    match Batch.plan file options.theory options.only options.renamings options.jobs with
    | .error e => throw e.message
    | .ok batch => return batch

/-- What remains on the screen of the log of a batch that has reached some outcomes. -/
def logLines (b : Batch) (file elapsed : String) (outcomes : List Outcome) : List String :=
  (startMessage b file :: outcomes.map (Outcome.text · elapsed)).flatMap logRest

/-- Run a batch. After a fault only the log is left. -/
def respondRun (b : Batch) (options : RunOptions) (clock : Nat → Nat) (elapsed : String) : Response :=
  let printed := do
    let outcomes ← b.run clock false
    let lines ← outcomes.mapM fun o => outcomeLines b options.printModels o elapsed
    return { code := exitCode outcomes
             lines := logLines b options.file elapsed outcomes ++ lines.flatten : Response }
  match printed with
  | .ok response => response
  | .error _ =>
    { code := faultCode, lines := logLines b options.file elapsed (b.reached clock false) }

/-- Run a command whose files are read by `files`; every check takes the time `elapsed`. -/
def respond (args : List String) (files : String → Option String) (clock : Nat → Nat)
    (elapsed : String) : Response :=
  match command? args with
  | none => { code := misuseCode }
  | some .help => { code := 0, lines := usage }
  | some .version => { code := 0, lines := [versionLine] }
  | some .theories => { code := 0, lines := Theory.registry.map (·.1) }
  | some (.run options) =>
    match (files options.file).map (planRun options) with
    | some (.ok batch) => respondRun batch options clock elapsed
    | _ => { code := 1 }

end Countermodels.Cli
