import Countermodels.Formula.Parse
import Countermodels.Formula.Symbols
import Countermodels.Problem

/-! Examples: arguments as they are written, with their settings. -/

namespace Countermodels

structure Example where
  premises : List String := []
  conclusions : List String := []
  settings : List (String × Json) := []

namespace Example

/-- Read formulas, after renaming their operator words. -/
def readFormulas (symbols : Option SymbolMap) (sources : List String) : Except Failure (List Formula) :=
  sources.mapM fun source =>
    let source := match symbols with
      | some m => m.apply source
      | none => source
    match Formula.parse source with
    | .ok f => .ok f
    | .error cause => .error (.refused (.parse source cause))

/-- The argument and the settings of an example: premises first, then conclusions, then settings. -/
def compile (e : Example) (symbols : Option SymbolMap) : Except Failure Problem := do
  let premises ← readFormulas symbols e.premises
  let conclusions ← readFormulas symbols e.conclusions
  return { premises, conclusions, settings := ← Settings.ofFields e.settings }

/-- Whether a countermodel is expected, if the settings say so. -/
def expectation (e : Example) : Option Bool := (Json.lookup "expectation" e.settings).bind Json.bool?

def toJson (e : Example) : Json :=
  .object [("conclusions", .array (e.conclusions.map Json.string)),
    ("premises", .array (e.premises.map Json.string)), ("settings", .object e.settings)]

end Example

/-- Named examples in the order of their names, and the theory they are for. -/
structure ExampleFile where
  theory : Option String := none
  examples : List (String × Example)

namespace ExampleFile

def toJson (f : ExampleFile) : Json :=
  .object [("examples", .object (f.examples.map fun (name, e) => (name, e.toJson))),
    ("theory", (f.theory.map Json.string).getD .null)]

/-- The first of some names that no example has. -/
def missing? (f : ExampleFile) (names : List String) : Option String :=
  names.find? fun name => (Json.lookup name f.examples).isNone

/-- The examples with some names, or all of them if none is given. -/
def select (f : ExampleFile) (names : List String) : List (String × Example) :=
  if names.isEmpty then f.examples else f.examples.filter (·.1 ∈ names)

end ExampleFile

end Countermodels
