import Countermodels.Formula.Basic

/-! Meanings of sentence letters. -/

namespace Countermodels

/-- A meaning for each of some sentence letters, in alphabetical order. -/
abbrev Valuation (α : Type) := List (Atom × α)

namespace Valuation

variable {α : Type}

def meaning? (v : Valuation α) (a : Atom) : Option α := (List.find? (fun p => p.1 = a) v).map (·.2)

/-- Give a letter a meaning; an earlier one is forgotten. -/
def set (a : Atom) (x : α) : Valuation α → Valuation α
  | [] => [(a, x)]
  | (b, y) :: rest =>
    if a.name < b.name then (a, x) :: (b, y) :: rest
    else if a = b then (a, x) :: rest
    else (b, y) :: set a x rest

def ofList (pairs : List (Atom × α)) : Valuation α := pairs.foldl (fun v p => v.set p.1 p.2) []

def meanings (v : Valuation α) : List α := v.map (·.2)

end Valuation

end Countermodels
