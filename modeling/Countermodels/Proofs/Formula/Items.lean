import Countermodels.Formula.Scan
import Countermodels.Proofs.Text.Runs

/-! What a source consists of before any grammar: operator words, words, and single characters. A text falls into such
items in one way, each as long as it can be, and the first pass over a source reads it item by item. -/

namespace Countermodels.Formula

open Text

/-- What a source consists of, before any grammar. -/
inductive Item where
  /-- A backslash with letters. -/
  | operator (letters : List Char)
  /-- Letters, numerals and underscores. -/
  | word (chars : List Char)
  /-- Any other character. -/
  | sign (c : Char)
  deriving DecidableEq

namespace Item

def chars : Item → List Char
  | operator letters => '\\' :: letters
  | word chars => chars
  | sign c => [c]

/-- The item is formed after its kind, and is as long as it can be before the rest of the text. -/
def Fits : Item → List Char → Prop
  | operator letters, t => (∀ c ∈ letters, isLetter c = true) ∧ EndsRun isLetter t
  | word chars, t => chars ≠ [] ∧ (∀ c ∈ chars, isWordPart c = true) ∧ EndsRun isWordPart t
  | sign c, _ => c ≠ '\\' ∧ isWordPart c = false

/-- The item belongs to the notation: an operator, a capital letter, a parenthesis or a blank. -/
def Good : Item → Prop
  | operator letters => ∃ op : Operator, op.symbol = String.ofList ('\\' :: letters)
  | word chars => ∃ c, c.isUpper = true ∧ chars = [c]
  | sign c => c = '(' ∨ c = ')' ∨ isBlank c = true

end Item

def textOf (items : List Item) : List Char := items.flatMap Item.chars

/-- The byte at which the next item begins. -/
def offsetAfter (items : List Item) : Nat := (String.ofList (textOf items)).utf8ByteSize

/-- Every item fits before those that follow it. -/
def AllFit : List Item → Prop
  | [] => True
  | item :: items => item.Fits (textOf items) ∧ AllFit items

/-- The source falls into the items. -/
structure Itemized (source : String) (items : List Item) : Prop where
  text_eq : textOf items = source.toList
  allFit : AllFit items

section Items

variable {item : Item} {items items' : List Item} {t : List Char} {c : Char}

@[simp] theorem textOf_cons : textOf (item :: items) = item.chars ++ textOf items := rfl

@[simp] theorem textOf_append : textOf (items ++ items') = textOf items ++ textOf items' := List.flatMap_append

/-- No range of blanks meets a range of word characters. -/
theorem ranges_apart : ∀ b ∈ blankRanges, ∀ w ∈ wordRanges, w.2 < b.1 ∨ b.2 < w.1 := by decide +kernel

theorem isBlank_eq_false (h : isWordPart c = true) : isBlank c = false := by
  rw [isWordPart, Bool.or_eq_true] at h
  rcases h with hword | hunder
  · obtain ⟨w, hw, hin⟩ := List.any_eq_true.1 hword
    simp only [isBlank, inRanges, List.any_eq_false, Bool.and_eq_true, decide_eq_true_eq] at hin ⊢
    intro b hb
    have := ranges_apart b hb w hw
    omega
  · obtain rfl : c = '_' := by simpa using hunder
    decide

/-- The characters that make up words are none of those that stand for themselves. -/
theorem separate_of_isWordPart (h : isWordPart c = true) : c ≠ '\\' ∧ c ≠ '(' ∧ c ≠ ')' := by
  have hsigns : isWordPart '\\' = false ∧ isWordPart '(' = false ∧ isWordPart ')' = false := by decide +kernel
  have hne : ∀ x, isWordPart x = false → c ≠ x := by
    rintro x hx rfl
    rw [hx] at h
    cases h
  exact ⟨hne _ hsigns.1, hne _ hsigns.2.1, hne _ hsigns.2.2⟩

/-- The item with which a text begins, and the rest of the text. -/
def firstItem (c : Char) (s : List Char) : Item × List Char :=
  if c = '\\' then (.operator (s.takeWhile isLetter), s.dropWhile isLetter)
  else if isWordPart c then (.word (c :: s.takeWhile isWordPart), s.dropWhile isWordPart)
  else (.sign c, s)

theorem firstItem_fits (c : Char) (s : List Char) : (firstItem c s).1.Fits (firstItem c s).2 ∧
    (firstItem c s).1.chars ++ (firstItem c s).2 = c :: s := by
  rw [firstItem]
  split
  · next hc => exact ⟨⟨fun _ => List.mem_takeWhile_imp, endsRun_dropWhile ..⟩, by simp [Item.chars, hc]⟩
  · next hc =>
    split
    · next hword =>
      refine ⟨⟨by simp, List.forall_mem_cons.2 ⟨hword, fun _ => List.mem_takeWhile_imp⟩, endsRun_dropWhile ..⟩, ?_⟩
      simp [Item.chars]
    · next hword => exact ⟨⟨hc, by simpa using hword⟩, rfl⟩

theorem length_firstItem_le (c : Char) (s : List Char) : (firstItem c s).2.length ≤ s.length := by
  rw [firstItem]
  split
  · exact length_dropWhile_le isLetter s
  · split
    · exact length_dropWhile_le isWordPart s
    · exact le_rfl

/-- A text begins with no other item. -/
theorem Item.Fits.eq_firstItem (h : item.Fits t) : ∃ c s, item.chars ++ t = c :: s ∧ firstItem c s = (item, t) := by
  cases item with
  | operator letters =>
    obtain ⟨hletters, hends⟩ := h
    refine ⟨'\\', letters ++ t, rfl, ?_⟩
    rw [firstItem, if_pos rfl, hends.takeWhile_append hletters, hends.dropWhile_append hletters]
  | word chars =>
    obtain ⟨hne, hchars, hends⟩ := h
    obtain ⟨c, cs, rfl⟩ := List.exists_cons_of_ne_nil hne
    rw [List.forall_mem_cons] at hchars
    refine ⟨c, cs ++ t, rfl, ?_⟩
    rw [firstItem, if_neg (separate_of_isWordPart hchars.1).1, if_pos hchars.1, hends.takeWhile_append hchars.2,
      hends.dropWhile_append hchars.2]
  | sign c =>
    obtain ⟨hc, hword⟩ := h
    refine ⟨c, t, rfl, ?_⟩
    rw [firstItem, if_neg hc, if_neg (by simp [hword])]

theorem AllFit.unique (h : AllFit items) (h' : AllFit items') (heq : textOf items = textOf items') : items = items' := by
  induction items generalizing items' with
  | nil =>
    cases items' with
    | nil => rfl
    | cons item' items' =>
      obtain ⟨c, s, hs, -⟩ := h'.1.eq_firstItem
      rw [textOf_cons, hs] at heq
      cases heq
  | cons item items ih =>
    obtain ⟨c, s, hs, hfirst⟩ := h.1.eq_firstItem
    rw [textOf_cons, hs] at heq
    cases items' with
    | nil => cases heq
    | cons item' items' =>
      obtain ⟨c', s', hs', hfirst'⟩ := h'.1.eq_firstItem
      rw [textOf_cons, hs'] at heq
      cases heq
      obtain ⟨rfl, htext⟩ := Prod.mk.inj (hfirst.symm.trans hfirst')
      rw [ih h.2 h'.2 htext]

theorem exists_items (s : List Char) : ∃ items, AllFit items ∧ textOf items = s := by
  induction hlen : s.length using Nat.strong_induction_on generalizing s with
  | _ k ih =>
    cases s with
    | nil => exact ⟨[], trivial, rfl⟩
    | cons c s =>
      obtain ⟨hfits, htext⟩ := firstItem_fits c s
      have hshort : (firstItem c s).2.length < k := hlen ▸ Nat.lt_succ_of_le (length_firstItem_le c s)
      obtain ⟨items, hitems, hrest⟩ := ih _ hshort _ rfl
      exact ⟨(firstItem c s).1 :: items, ⟨hrest ▸ hfits, hitems⟩, by rw [textOf_cons, hrest, htext]⟩

theorem byteLength_eq (cs : List Char) : byteLength cs = (String.ofList cs).utf8ByteSize := by
  induction cs with
  | nil => rfl
  | cons c cs ih =>
    rw [String.ofList_cons, String.utf8ByteSize_append, String.utf8ByteSize_singleton, ← ih]
    rfl

theorem offsetAfter_append_singleton (items : List Item) (item : Item) :
    offsetAfter (items ++ [item]) = offsetAfter items + byteLength item.chars := by
  rw [offsetAfter, textOf_append, String.ofList_append, String.utf8ByteSize_append, byteLength_eq]
  simp [textOf, offsetAfter]

/-- Items begin and end between two characters of the source. -/
theorem Itemized.isValid {source : String} (h : Itemized source items) {before : List Item} (hb : before <+: items) :
    String.Pos.Raw.IsValid source ⟨offsetAfter before⟩ := by
  obtain ⟨after, rfl⟩ := hb
  refine String.Pos.Raw.isValid_iff_exists_append.2 ⟨String.ofList (textOf before), String.ofList (textOf after), ?_, rfl⟩
  rw [← String.ofList_append, ← textOf_append, h.text_eq, String.ofList_toList]

end Items

/-! ### The first pass, item by item -/

section Reading

variable {item : Item} {t : List Char}

/-- Operator words are known. -/
theorem ofSymbol?_isSome (op : Operator) : (Operator.ofSymbol? op.symbol).isSome = true := by
  rcases op with _ | _ | op | op
  · decide +kernel
  · decide +kernel
  · cases op <;> decide +kernel
  · cases op <;> decide +kernel

theorem ofSymbol?_isSome_iff {letters : List Char} :
    (Operator.ofSymbol? (String.ofList ('\\' :: letters))).isSome = true ↔ (Item.operator letters).Good := by
  constructor
  · intro h
    obtain ⟨op, hop⟩ := Option.isSome_iff_exists.1 h
    exact ⟨op, by simpa using List.find?_some hop⟩
  · rintro ⟨op, hop⟩
    rw [← hop]
    exact ofSymbol?_isSome op

theorem scanFrom_operator {letters : List Char} (h : (Item.operator letters).Fits t) (offset : Nat) (opened : List Nat) :
    scanFrom offset opened ('\\' :: (letters ++ t)) =
      if (Operator.ofSymbol? (String.ofList ('\\' :: letters))).isSome then
        scanFrom (offset + byteLength ('\\' :: letters)) opened t
      else .error (.unknownOperator (String.ofList ('\\' :: letters)) offset) := by
  rw [scanFrom.eq_def]
  dsimp only
  rw [if_pos rfl, h.2.takeWhile_append h.1, h.2.dropWhile_append h.1]

theorem scanFrom_word {c : Char} {cs : List Char} (h : (Item.word (c :: cs)).Fits t) (offset : Nat) (opened : List Nat) :
    scanFrom offset opened (c :: (cs ++ t)) =
      if (c :: cs).length = 1 && c.isUpper then scanFrom (offset + byteLength (c :: cs)) opened t
      else .error (.badAtom (String.ofList (c :: cs)) offset) := by
  obtain ⟨-, hchars, hends⟩ := h
  rw [List.forall_mem_cons] at hchars
  obtain ⟨hslash, hleft, hright⟩ := separate_of_isWordPart hchars.1
  rw [scanFrom.eq_def]
  dsimp only
  rw [if_neg hslash, if_neg hleft, if_neg hright, if_neg (by simp [isBlank_eq_false hchars.1]), if_pos hchars.1,
    hends.takeWhile_append hchars.2, hends.dropWhile_append hchars.2]

theorem scanFrom_sign {c : Char} (h : (Item.sign c).Fits t) (hopen : c ≠ '(') (hclose : c ≠ ')') (offset : Nat)
    (opened : List Nat) : scanFrom offset opened (c :: t) =
      if isBlank c then scanFrom (offset + byteLength [c]) opened t else .error (.unexpected (.character c) offset) := by
  rw [scanFrom.eq_def]
  dsimp only
  rw [if_neg h.1, if_neg hopen, if_neg hclose]
  cases hblank : isBlank c with
  | true => rw [if_pos rfl, if_pos rfl]; rfl
  | false => simp [h.2]

theorem scanFrom_opening (offset : Nat) (opened : List Nat) (t : List Char) :
    scanFrom offset opened ('(' :: t) = scanFrom (offset + 1) (offset :: opened) t := by
  rw [scanFrom.eq_def]
  dsimp only
  rw [if_neg (by decide), if_pos rfl]

theorem scanFrom_closing (offset position : Nat) (opened : List Nat) (t : List Char) :
    scanFrom offset (position :: opened) (')' :: t) = scanFrom (offset + 1) opened t := by
  rw [scanFrom.eq_def]
  dsimp only
  rw [if_neg (by decide), if_neg (by decide), if_pos rfl]

theorem scanFrom_closing_nil (offset : Nat) (t : List Char) :
    scanFrom offset [] (')' :: t) = .error (.unbalanced offset) := by
  rw [scanFrom.eq_def]
  dsimp only
  rw [if_neg (by decide), if_neg (by decide), if_pos rfl]

/-- Items of the notation are passed over, parentheses apart. -/
theorem scanFrom_good (hfits : item.Fits t) (hgood : item.Good) (hopen : item ≠ .sign '(') (hclose : item ≠ .sign ')')
    (offset : Nat) (opened : List Nat) :
    scanFrom offset opened (item.chars ++ t) = scanFrom (offset + byteLength item.chars) opened t := by
  cases item with
  | operator letters => exact (scanFrom_operator hfits offset opened).trans (if_pos (ofSymbol?_isSome_iff.2 hgood))
  | word chars =>
    obtain ⟨c, hupper, rfl⟩ := hgood
    exact (scanFrom_word hfits offset opened).trans (if_pos (by simp [hupper]))
  | sign c =>
    have hne : c ≠ '(' ∧ c ≠ ')' := ⟨fun h => hopen (h ▸ rfl), fun h => hclose (h ▸ rfl)⟩
    have hblank : isBlank c = true := (hgood.resolve_left hne.1).resolve_left hne.2
    exact (scanFrom_sign hfits hne.1 hne.2 offset opened).trans (if_pos hblank)

end Reading

end Countermodels.Formula
