import Countermodels.Formula.Symbols
import Countermodels.Proofs.Text.Runs

/-! Renaming of operator words. A text falls in one way into words, each as long as it can be, and the text between
them. Renaming acts on the words alone and on each of them once; and because a new name that is a word again ends where
the old one did, two such renamings in a row are one. -/

namespace Countermodels

open Text

namespace SymbolMap

/-! ### Names -/

/-- The new name that a word was given, if any. -/
def name? (m : SymbolMap) (word : String) : Option String := (m.entries.find? (·.1 = word)).map (·.2)

/-- What a word is called: its new name, or else the word itself. -/
def called (m : SymbolMap) (word : String) : String := (m.name? word).getD word

theorem rename_eq (m : SymbolMap) (word : List Char) : m.rename word = (m.called (String.ofList word)).toList := by
  rw [rename, called, name?]
  cases m.entries.find? (·.1 = String.ofList word) <;> simp

theorem name?_insert (m : SymbolMap) (word name other : String) :
    (m.insert word name).name? other = if other = word then some name else m.name? other := by
  rw [name?, insert, List.find?_cons]
  by_cases h : other = word
  · simp [h]
  · have hkeep : ∀ p : String × String, (!decide (p.1 = word) && decide (p.1 = other)) = decide (p.1 = other) := by
      intro p
      by_cases hp : p.1 = other <;> simp [hp, h]
    simp [h, Ne.symm h, name?, List.find?_filter, hkeep]

/-- Of several names for one word the last stays. -/
theorem name?_ofPairs (pairs : List (String × String)) (word : String) :
    (ofPairs pairs).name? word = (pairs.reverse.find? (·.1 = word)).map (·.2) := by
  induction pairs using List.reverseRecOn with
  | nil => rfl
  | append_singleton pairs p ih =>
    have hlast : ofPairs (pairs ++ [p]) = (ofPairs pairs).insert p.1 p.2 := by simp [ofPairs]
    rw [hlast, name?_insert, ih, List.reverse_append, List.reverse_singleton, List.singleton_append, List.find?_cons]
    by_cases h : word = p.1
    · simp [h]
    · simp [h, Ne.symm h]

/-- The names of one map, renamed by a second, and the names of the second for all other words. -/
def andThen (m n : SymbolMap) : SymbolMap :=
  ofPairs (n.entries.reverse ++ m.entries.reverse.map fun p => (p.1, n.called p.2))

theorem called_andThen (m n : SymbolMap) (word : String) : (m.andThen n).called word = n.called (m.called word) := by
  have hname : (m.andThen n).name? word = ((m.name? word).map n.called).or (n.name? word) := by
    have hlist : (n.entries.reverse ++ m.entries.reverse.map fun p => (p.1, n.called p.2)).reverse =
        (m.entries.map fun p => (p.1, n.called p.2)) ++ n.entries := by simp
    rw [andThen, name?_ofPairs, hlist, List.find?_append, List.find?_map, name?, name?]
    simp only [Function.comp_def]
    cases m.entries.find? (·.1 = word) <;> rfl
  rw [called, hname]
  cases hm : m.name? word with
  | none => simp [called, hm]
  | some name => simp [called, hm]

end SymbolMap

/-! ### Words and the text between them -/

namespace Text

variable {p : Char → Bool} {f : String → String}

/-- A backslash with letters. -/
def IsWord (w : String) : Prop := ∃ letters, w.toList = '\\' :: letters ∧ ∀ c ∈ letters, c.isAlpha = true

/-- A word of a text, as long as it can be, with what stands between it and the next word. -/
@[ext] structure Segment where
  letters : List Char
  gap : List Char
  letters_alpha : ∀ c ∈ letters, c.isAlpha = true
  gap_plain : ∀ c ∈ gap, (c != '\\') = true
  gap_ends : EndsRun Char.isAlpha gap

/-- A text taken apart: what stands before its first word, and its words with what follows each of them. -/
@[ext] structure Cut where
  lead : List Char
  segments : List Segment
  lead_plain : ∀ c ∈ lead, (c != '\\') = true

def Segment.word (g : Segment) : String := String.ofList ('\\' :: g.letters)

theorem Segment.isWord (g : Segment) : IsWord g.word := ⟨g.letters, String.toList_ofList, g.letters_alpha⟩

/-- Segments put together, each word changed in the same way. -/
def joined (f : String → String) (gs : List Segment) : List Char := gs.flatMap fun g => (f g.word).toList ++ g.gap

/-- The text put together again, each word changed in the same way. -/
def Cut.write (cut : Cut) (f : String → String) : List Char := cut.lead ++ joined f cut.segments

@[simp] theorem joined_nil (f : String → String) : joined f [] = [] := rfl

theorem joined_cons (f : String → String) (g : Segment) (gs : List Segment) :
    joined f (g :: gs) = (f g.word).toList ++ (g.gap ++ joined f gs) := by simp [joined]

/-- Segments begin with a backslash, also if words were changed to words. -/
theorem endsRun_joined (hp : p '\\' = false) (hf : ∀ w, IsWord w → IsWord (f w)) (gs : List Segment) :
    EndsRun p (joined f gs) := by
  cases gs with
  | nil => rfl
  | cons g gs =>
    obtain ⟨letters, hword, -⟩ := hf _ g.isWord
    rwa [joined_cons, hword, List.cons_append, endsRun_cons]

/-- A word ends where its gap begins, or the next word if there is no gap. -/
theorem Segment.ends (g : Segment) (hf : ∀ w, IsWord w → IsWord (f w)) (gs : List Segment) :
    EndsRun Char.isAlpha (g.gap ++ joined f gs) := by
  have hends := g.gap_ends
  cases hgap : g.gap with
  | nil => exact endsRun_joined rfl hf gs
  | cons c gap =>
    rw [hgap] at hends
    exact endsRun_cons.2 (endsRun_cons.1 hends)

theorem joined_injective : Function.Injective (joined id) := by
  have hid : ∀ w, IsWord w → IsWord (id w) := fun _ h => h
  have hcons : ∀ g gs, joined id (g :: gs) = '\\' :: (g.letters ++ (g.gap ++ joined id gs)) := fun g gs => by
    simp [joined_cons, Segment.word]
  intro gs gs' h
  induction gs generalizing gs' with
  | nil =>
    cases gs' with
    | nil => rfl
    | cons g' gs' => simp [hcons] at h
  | cons g gs ih =>
    cases gs' with
    | nil => simp [hcons] at h
    | cons g' gs' =>
      rw [hcons, hcons, List.cons.injEq] at h
      obtain ⟨hletters, hrest⟩ := (g.ends hid gs).append_inj (g'.ends hid gs') g.letters_alpha g'.letters_alpha h.2
      obtain ⟨hgap, hjoined⟩ := (endsRun_joined rfl hid gs).append_inj (endsRun_joined rfl hid gs') g.gap_plain
        g'.gap_plain hrest
      rw [Segment.ext hletters hgap, ih hjoined]

/-- A text can be taken apart in one way only. -/
theorem Cut.write_injective {cut cut' : Cut} (h : cut.write id = cut'.write id) : cut = cut' := by
  have hid : ∀ w, IsWord w → IsWord (id w) := fun _ h => h
  obtain ⟨hlead, hjoined⟩ := (endsRun_joined rfl hid cut.segments).append_inj (endsRun_joined rfl hid cut'.segments)
    cut.lead_plain cut'.lead_plain h
  exact Cut.ext hlead (joined_injective hjoined)

theorem exists_cut (s : List Char) : ∃ cut : Cut, cut.write id = s := by
  induction s using SymbolMap.applyChars.induct with
  | case1 => exact ⟨⟨[], [], by simp⟩, rfl⟩
  | case2 cs ih =>
    obtain ⟨⟨lead, gs, hplain⟩, hrest⟩ := ih
    have hends := endsRun_dropWhile Char.isAlpha cs
    have hlead : EndsRun Char.isAlpha lead := by
      rw [← hrest] at hends
      cases lead with
      | nil => rfl
      | cons c lead => exact endsRun_cons.2 (endsRun_cons.1 hends)
    refine ⟨⟨[], ⟨cs.takeWhile Char.isAlpha, lead, fun _ => List.mem_takeWhile_imp, hplain, hlead⟩ :: gs, by simp⟩, ?_⟩
    rw [Cut.write] at hrest
    simp [Cut.write, joined_cons, Segment.word, hrest]
  | case3 c cs hc ih =>
    obtain ⟨⟨lead, gs, hplain⟩, hrest⟩ := ih
    refine ⟨⟨c :: lead, gs, List.forall_mem_cons.2 ⟨by simpa using hc, hplain⟩⟩, ?_⟩
    rw [← hrest]
    rfl

end Text

/-! ### Renaming -/

namespace SymbolMap

variable {m : SymbolMap} {s : List Char}

theorem applyChars_plain {r : List Char} (hr : ∀ c ∈ r, (c != '\\') = true) (s : List Char) :
    m.applyChars (r ++ s) = r ++ m.applyChars s := by
  induction r with
  | nil => rfl
  | cons c r ih =>
    rw [List.forall_mem_cons] at hr
    rw [List.cons_append, applyChars, if_neg (by simpa using hr.1), ih hr.2, List.cons_append]

theorem applyChars_word {w : String} (hw : IsWord w) (hs : EndsRun Char.isAlpha s) :
    m.applyChars (w.toList ++ s) = (m.called w).toList ++ m.applyChars s := by
  obtain ⟨letters, hword, hletters⟩ := hw
  rw [hword, List.cons_append, applyChars, if_pos rfl, hs.takeWhile_append hletters, hs.dropWhile_append hletters,
    rename_eq, ← hword, String.ofList_toList]

/-- Renaming changes the words of a text and nothing else, also if they were changed to other words before. -/
theorem applyChars_write (m : SymbolMap) (cut : Cut) {f : String → String} (hf : ∀ w, IsWord w → IsWord (f w)) :
    m.applyChars (cut.write f) = cut.write fun w => m.called (f w) := by
  have hjoined : ∀ gs, m.applyChars (joined f gs) = joined (fun w => m.called (f w)) gs := by
    intro gs
    induction gs with
    | nil => rw [joined_nil, joined_nil, applyChars]
    | cons g gs ih =>
      rw [joined_cons, joined_cons, applyChars_word (hf _ g.isWord) (g.ends hf gs), applyChars_plain g.gap_plain, ih]
  rw [Cut.write, Cut.write, applyChars_plain cut.lead_plain, hjoined]

/-- New names that are words again. -/
def GivesWords (m : SymbolMap) : Prop := ∀ word name, m.name? word = some name → IsWord name

theorem GivesWords.isWord_called (h : m.GivesWords) {w : String} (hw : IsWord w) : IsWord (m.called w) := by
  rw [called]
  cases hname : m.name? w with
  | none => exact hw
  | some name => exact h w name hname

/-- A text falls in just one way into words, each as long as it can be, and the text between them. Renaming puts the
text together again with the new name in place of each word that has one. If the first of two renamings gives words
for words, both in a row are the one renaming that gives each word the second name of its first name. -/
theorem renaming_acts_word_by_word :
    (∀ source : String, ∃ cut : Cut, cut.write id = source.toList ∧
      (∀ cut' : Cut, cut'.write id = source.toList → cut' = cut) ∧
      ∀ m : SymbolMap, (m.apply source).toList = cut.write m.called) ∧
    ∀ m n : SymbolMap, m.GivesWords → (∀ word, (m.andThen n).called word = n.called (m.called word)) ∧
      ∀ source, n.apply (m.apply source) = (m.andThen n).apply source := by
  have hone : ∀ (cut : Cut) (m : SymbolMap), m.applyChars (cut.write id) = cut.write m.called := fun cut m =>
    m.applyChars_write cut fun _ h => h
  refine ⟨fun source => ?_, fun m n hm => ⟨called_andThen m n, fun source => ?_⟩⟩
  · obtain ⟨cut, hcut⟩ := exists_cut source.toList
    refine ⟨cut, hcut, fun cut' hcut' => Cut.write_injective (hcut'.trans hcut.symm), fun m => ?_⟩
    rw [apply, String.toList_ofList, ← hcut, hone]
  · obtain ⟨cut, hcut⟩ := exists_cut source.toList
    have htwo : n.applyChars (cut.write m.called) = cut.write fun w => n.called (m.called w) :=
      n.applyChars_write cut fun _ => hm.isWord_called
    simp only [apply, String.toList_ofList, ← hcut, hone, htwo, ← called_andThen]

/-- Words that touch, a word that only begins like a renamed one, and a backslash without letters. -/
theorem touching_words_renamed_twice : (ofPairs [("\\Nec", "\\Box")]).GivesWords ∧
    (ofPairs [("\\Box", "\\neg")]).apply ((ofPairs [("\\Nec", "\\Box")]).apply "\\Nec\\Box1\\\\Necessary") =
      ((ofPairs [("\\Nec", "\\Box")]).andThen (ofPairs [("\\Box", "\\neg")])).apply "\\Nec\\Box1\\\\Necessary" := by
  have hwords : (ofPairs [("\\Nec", "\\Box")]).GivesWords := by
    intro word name hname
    obtain rfl : "\\Box" = name := by
      rw [name?_ofPairs] at hname
      by_cases h : "\\Nec" = word <;> simp [h] at hname
      exact hname
    exact ⟨['B', 'o', 'x'], rfl, by simp⟩
  exact ⟨hwords, (renaming_acts_word_by_word.2 _ _ hwords).2 _⟩

end SymbolMap

end Countermodels
