import Countermodels.Problem
import Countermodels.Sat.Enumerate

/-! Checking an argument: is there a countermodel within the bounds of the settings, and which others are
there? The goal stands under a literal of its own, so that a frame without models can be told from an
argument without countermodels. -/

namespace Countermodels

inductive Verdict where
  /-- The premises are true and a conclusion is false somewhere. -/
  | countermodel
  /-- There is no countermodel within the bounds. -/
  | noCountermodel
  deriving DecidableEq, Repr

def Verdict.text : Verdict → String
  | countermodel => "countermodel"
  | noCountermodel => "no countermodel"

structure Report where
  verdict : Verdict
  /-- Distinct models in the order in which they were found. -/
  models : List Countermodel := []
  /-- Why fewer models were found than asked for. -/
  stop : Option CheckError := none
  numVars : Nat
  numClauses : Nat
  /-- Work of all searches. -/
  stats : Stats

def Report.hasCountermodel (r : Report) : Bool := r.verdict = .countermodel

namespace Check

/-- Write the goal of a problem. The result implies that all premises are true and, if there are
conclusions, that one of them is false. -/
def writeGoal (p : Problem) : EStateM Failure Encoding Lit := do
  let premises ← p.premises.mapM Encoding.truthAtEval
  let conclusions ← p.conclusions.mapM Encoding.truthAtEval
  Encoding.lift do
    Draft.checkDeadline
    let goal ← Draft.emit Emit.fresh
    Draft.emit (Emit.implyAll goal premises)
    if conclusions ≠ [] then Draft.emit (Emit.implyAny goal (conclusions.map Lit.neg))
    return goal

/-- Models found one after the other, with the enumeration and the session after them. -/
structure Found where
  /-- The models, the last one first. -/
  models : List Countermodel
  enumeration : Enumeration
  session : Session

/-- Look for models until there are as many as asked for; at most `fuel` searches are made. A model
with the shape of an earlier one is passed over. -/
def search (e : Encoding) (p : Problem) : Nat → Found → Except Failure Found
  | 0, _ => .error (.fault .bound)
  | fuel + 1, found => do
    if p.settings.iterate ≤ found.models.length then return found
    let (more, enumeration, session) ← Failure.ofFault (found.enumeration.next found.session)
    if !more then return { found with enumeration, session }
    let model ← e.extract session
    if found.models.any (model.sameShape ·) then
      search e p fuel { found with enumeration, session }
    else
      model.verify p.premises p.conclusions
      search e p fuel { models := model :: found.models, enumeration, session }

/-- Each search excludes what the one before said of the essential literals, so there are no more
searches than ways to value them, and one that fails. -/
def searchBound (essential : List Lit) : Nat := 1 <<< essential.length + 2

/-- Find further models after the first one, which the session holds. The session keeps its budget, of which the search
for the first model has spent some. -/
def iterate (e : Encoding) (p : Problem) (goal : Lit) (first : Countermodel) (deadline : Deadline)
    (s : Session) : Except Failure (List Countermodel × Option CheckError × Session) := do
  let requested := p.settings.iterate
  if requested ≤ 1 then return ([first], none, s)
  let essential := e.essential
  let enumeration := ({ essential, assumptions := [goal] } : Enumeration).resume s
  let found ← search e p (searchBound essential) { models := [first], enumeration, session := s }
  let models := found.models.reverse
  let stop :=
    if models.length < requested then
      some (if found.enumeration.stoppedBy = some .unknown then .timeout deadline.maxTime
        else .iterationExhausted requested models.length)
    else none
  return (models, stop, found.session)

/-- Search an encoding for models that meet the goal, and if there are none, for models. -/
def answer (p : Problem) (encoding : Encoding) (goal : Lit) : Except Failure Report := do
  let deadline := encoding.draft.deadline
  let cnf := encoding.draft.cnf
  let s := ((({} : Session).load cnf).limit deadline.budget).assume goal
  let report := fun (verdict : Verdict) models stop (s : Session) => do
    let stats ← Failure.ofFault s.stats
    return { verdict, models, stop, numVars := cnf.numVars, numClauses := cnf.clauses.size, stats : Report }
  match ← Failure.ofFault s.solve with
  | (.sat, s) =>
    let model ← encoding.extract s
    model.verify p.premises p.conclusions
    let (models, stop, s) ← iterate encoding p goal model deadline s
    report .countermodel models stop s
  | (.unsat, s) =>
    match ← Failure.ofFault s.solve with
    | (.sat, s) => report .noCountermodel [] none s
    | (.unsat, _) => throw (.refused (.infeasibleFrame (.noFrame p.settings.n)))
    | (.unknown, _) => throw deadline.error
  | (.unknown, _) => throw deadline.error

/-- Check a problem over the primitive operators of a theory. -/
def prepared (theory : Theory) (p : Problem) (clock : Nat → Nat) (interrupt : Bool) :
    Except Failure Report := do
  if p.settings.n = 0 then throw (.refused (.infeasibleFrame .noAtomicStates))
  let encoding ← Encoding.build theory p.settings p.letters (.start clock p.settings.maxTime interrupt)
  match writeGoal p encoding with
  | .error failure _ => throw failure
  | .ok goal encoding => answer p encoding goal

end Check

/-- Check a problem in a theory: its formulas are written out in primitive operators first. -/
def check (theory : Theory) (p : Problem) (clock : Nat → Nat) (interrupt : Bool) :
    Except Failure Report := do
  let premises ← p.premises.mapM theory.prepare
  let conclusions ← p.conclusions.mapM theory.prepare
  Check.prepared theory { p with premises, conclusions } clock interrupt

end Countermodels
