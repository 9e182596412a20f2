/-! Renaming of operator words in the text of a formula. A word is a backslash with the longest run of
ASCII letters after it; every word that has a new name gets it once, and all other text stays. -/

namespace Countermodels

/-- New names of operator words. -/
structure SymbolMap where
  entries : List (String × String) := []
  deriving DecidableEq, Repr

namespace SymbolMap

def isEmpty (m : SymbolMap) : Bool := m.entries.isEmpty

/-- Rename a word; an earlier name of the same word is forgotten. -/
def insert (m : SymbolMap) (word name : String) : SymbolMap :=
  ⟨(word, name) :: m.entries.filter (·.1 ≠ word)⟩

def ofPairs (pairs : List (String × String)) : SymbolMap :=
  pairs.foldl (fun m p => m.insert p.1 p.2) {}

/-- The new name of a word, or the word itself. -/
def rename (m : SymbolMap) (word : List Char) : List Char :=
  match m.entries.find? (·.1 = String.ofList word) with
  | some (_, name) => name.toList
  | none => word

/-- Rename the words of a text. -/
def applyChars (m : SymbolMap) : List Char → List Char
  | [] => []
  | c :: cs =>
    if c = '\\' then
      m.rename ('\\' :: cs.takeWhile Char.isAlpha) ++ m.applyChars (cs.dropWhile Char.isAlpha)
    else c :: m.applyChars cs
termination_by cs => cs.length
decreasing_by
  · have := (List.dropWhile_suffix (l := cs) Char.isAlpha).length_le
    simp only [List.length_cons]
    omega
  · simp

def apply (m : SymbolMap) (source : String) : String := String.ofList (m.applyChars source.toList)

end SymbolMap

end Countermodels
