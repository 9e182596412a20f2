import Countermodels.Proofs.Formula.Items

/-! The first mistake of a source. A text falls in one way into operator words, words and single characters. Going
through them from left to right, the first pass stops at the first that is no part of the notation, or that closes
what was never opened. The offsets it keeps are those of the parentheses still open, with balanced text between them;
so if it comes to the end, the innermost of them is the last one that is never closed. -/

namespace Countermodels.Formula

open Text

/-! ### Parentheses -/

def openings (items : List Item) : Nat := items.count (.sign '(')

def closings (items : List Item) : Nat := items.count (.sign ')')

/-- Every parenthesis has its partner: none is closed that is not open, and all are closed in the end. -/
structure Balanced (items : List Item) : Prop where
  closings_le : ∀ t, t <+: items → closings t ≤ openings t
  openings_eq : openings items = closings items

/-- A parenthesis is opened at the offset, and what follows closes no more than it opens itself. -/
def Unclosed (items : List Item) (position : Nat) : Prop :=
  ∃ before after, items = before ++ .sign '(' :: after ∧ position = offsetAfter before ∧
    ∀ t, t <+: after → closings t ≤ openings t

/-- The offsets of the parentheses that are open, the innermost first: balanced items stand before the first of them,
between them and after the last. -/
inductive Stacked : List Item → List Nat → Prop
  | base {items : List Item} (h : Balanced items) : Stacked items []
  | push {before inner : List Item} {opened : List Nat} (h : Stacked before opened) (hinner : Balanced inner) :
      Stacked (before ++ .sign '(' :: inner) (offsetAfter before :: opened)

section Parentheses

variable {item : Item} {items items' inner before : List Item} {opened : List Nat} {position : Nat}

@[simp] theorem openings_append : openings (items ++ items') = openings items + openings items' := List.count_append

@[simp] theorem closings_append : closings (items ++ items') = closings items + closings items' := List.count_append

@[simp] theorem openings_cons : openings (item :: items) = openings items + if item = .sign '(' then 1 else 0 := by
  simp [openings, List.count_cons]

@[simp] theorem closings_cons : closings (item :: items) = closings items + if item = .sign ')' then 1 else 0 := by
  simp [closings, List.count_cons]

@[simp] theorem openings_nil : openings [] = 0 := rfl

@[simp] theorem closings_nil : closings [] = 0 := rfl

theorem balanced_nil : Balanced [] := ⟨fun t ht => by simp [List.prefix_nil.1 ht], rfl⟩

theorem balanced_singleton (hopen : item ≠ .sign '(') (hclose : item ≠ .sign ')') : Balanced [item] where
  closings_le t ht := by
    rcases List.prefix_cons_iff.1 ht with rfl | ⟨u, rfl, hu⟩
    · simp
    · simp [List.prefix_nil.1 hu, hclose]
  openings_eq := by simp [hopen, hclose]

theorem Balanced.append (h : Balanced items) (h' : Balanced items') : Balanced (items ++ items') where
  closings_le t ht := by
    obtain ⟨u, hu⟩ := ht
    rcases List.append_eq_append_iff.1 hu with ⟨v, rfl, -⟩ | ⟨v, rfl, rfl⟩
    · exact h.closings_le t ⟨v, rfl⟩
    · have := h'.closings_le v ⟨u, rfl⟩
      have := h.openings_eq
      simp only [openings_append, closings_append]
      omega
  openings_eq := by
    have := h.openings_eq
    have := h'.openings_eq
    simp only [openings_append, closings_append]
    omega

theorem Balanced.enclose (h : Balanced inner) : Balanced (.sign '(' :: inner ++ [.sign ')']) where
  closings_le t ht := by
    rcases List.prefix_concat_iff.1 ht with rfl | ht
    · have := h.openings_eq
      simp
      omega
    · rcases List.prefix_cons_iff.1 ht with rfl | ⟨u, rfl, hu⟩
      · simp
      · have := h.closings_le u hu
        simp
        omega
  openings_eq := by
    have := h.openings_eq
    simp
    omega

theorem Stacked.append (h : Stacked items opened) (h' : Balanced items') : Stacked (items ++ items') opened := by
  cases h with
  | base h => exact .base (h.append h')
  | push h hinner =>
    rw [List.append_assoc, List.cons_append]
    exact h.push (hinner.append h')

theorem Stacked.openings_eq (h : Stacked items opened) : openings items = closings items + opened.length := by
  induction h with
  | base h => exact h.openings_eq
  | push h hinner ih =>
    have := hinner.openings_eq
    simp
    omega

/-- The innermost parenthesis that is open is closed by what closes one. -/
theorem Stacked.pop (h : Stacked items (position :: opened)) : Stacked (items ++ [.sign ')']) opened := by
  cases h with
  | push h hinner =>
    rw [List.append_assoc]
    exact h.append hinner.enclose

theorem offsetAfter_le_append (items items' : List Item) : offsetAfter items ≤ offsetAfter (items ++ items') := by
  rw [offsetAfter, offsetAfter, textOf_append, String.ofList_append, String.utf8ByteSize_append]
  omega

/-- Nothing is open in balanced items. -/
theorem Balanced.not_unclosed (h : Balanced items) : ¬ Unclosed items position := by
  rintro ⟨before, after, rfl, -, hafter⟩
  have hbefore := h.closings_le before ⟨_, rfl⟩
  have hall := hafter after List.prefix_rfl
  have heven := h.openings_eq
  simp [openings_cons, closings_cons] at heven
  omega

/-- The innermost parenthesis that is open is the last one that is never closed. -/
theorem Stacked.isGreatest (h : Stacked items (position :: opened)) : IsGreatest {p | Unclosed items p} position := by
  cases h with
  | @push before inner _ h hinner =>
    refine ⟨⟨before, inner, rfl, rfl, hinner.closings_le⟩, ?_⟩
    rintro p ⟨before', after, heq, rfl, hafter⟩
    rcases List.append_eq_append_iff.1 heq with ⟨v, rfl, hv⟩ | ⟨v, rfl, hv⟩
    · cases v with
      | nil => rw [List.append_nil]
      | cons item v =>
        -- a later one would stand in the balanced items after it
        obtain ⟨-, hinside⟩ := List.cons.inj hv
        exact absurd ⟨v, after, hinside, rfl, hafter⟩ hinner.not_unclosed
    · exact offsetAfter_le_append before' v

end Parentheses

/-! ### Mistakes -/

/-- A mistake that shows at an item, after those before it: the item does not belong to the notation, or it closes a
parenthesis where none is open. -/
inductive Mistaken (before : List Item) : Item → ParseError → Prop
  | operator {letters : List Char} (h : ¬ (Item.operator letters).Good) :
      Mistaken before (.operator letters) (.unknownOperator (String.ofList ('\\' :: letters)) (offsetAfter before))
  | word {chars : List Char} (h : ¬ (Item.word chars).Good) :
      Mistaken before (.word chars) (.badAtom (String.ofList chars) (offsetAfter before))
  | sign {c : Char} (h : ¬ (Item.sign c).Good) : Mistaken before (.sign c) (.unexpected (.character c) (offsetAfter before))
  | closing (h : openings before ≤ closings before) : Mistaken before (.sign ')') (.unbalanced (offsetAfter before))

/-- No item shows a mistake. -/
def Faultless (items : List Item) : Prop :=
  ∀ before item after, items = before ++ item :: after → ∀ e, ¬ Mistaken before item e

/-- The first item that shows a mistake shows this one. -/
def FirstMistake (items : List Item) (e : ParseError) : Prop :=
  ∃ before item after, items = before ++ item :: after ∧ Faultless before ∧ Mistaken before item e

section Mistakes

variable {item : Item} {items items' before after : List Item} {opened : List Nat} {e e' : ParseError} {t : List Char}

theorem Mistaken.unique (h : Mistaken before item e) (h' : Mistaken before item e') : e = e' := by
  cases h with
  | operator h => cases h'; rfl
  | word h => cases h'; rfl
  | sign h =>
    cases h' with
    | sign => rfl
    | closing => exact absurd (.inr (.inl rfl)) h
  | closing h =>
    cases h' with
    | sign h' => exact absurd (.inr (.inl rfl)) h'
    | closing => rfl

theorem exists_mistaken (before : List Item) (h : ¬ item.Good) : ∃ e, Mistaken before item e := by
  cases item with
  | operator letters => exact ⟨_, .operator h⟩
  | word chars => exact ⟨_, .word h⟩
  | sign c => exact ⟨_, .sign h⟩

theorem Faultless.good (h : Faultless items) : ∀ item ∈ items, item.Good := by
  intro item hitem
  obtain ⟨before, after, rfl⟩ := List.append_of_mem hitem
  by_contra hbad
  obtain ⟨e, he⟩ := exists_mistaken before hbad
  exact h before item after rfl e he

theorem Balanced.faultless (h : Balanced items) (hgood : ∀ item ∈ items, item.Good) : Faultless items := by
  rintro before item after rfl e he
  have hitem := hgood item (by simp)
  cases he with
  | operator hbad => exact hbad hitem
  | word hbad => exact hbad hitem
  | sign hbad => exact hbad hitem
  | closing hnone =>
    have := h.closings_le (before ++ [.sign ')']) ⟨after, by simp⟩
    simp at this
    omega

theorem Faultless.append_singleton (h : Faultless items) (hitem : ∀ e, ¬ Mistaken items item e) :
    Faultless (items ++ [item]) := by
  intro before item' after heq
  rcases List.eq_nil_or_concat after with rfl | ⟨after, last, rfl⟩
  · obtain ⟨rfl, hlast⟩ := List.append_inj' heq rfl
    obtain rfl : item = item' := by simpa using hlast
    exact hitem
  · rw [List.concat_eq_append, ← List.cons_append, ← List.append_assoc] at heq
    exact h before item' after (List.append_inj' heq rfl).1

theorem Faultless.not_firstMistake (h : Faultless items) : ¬ FirstMistake items e := by
  rintro ⟨before, item, after, heq, -, he⟩
  exact h before item after heq e he

/-- Faultless items end before the first mistake. -/
theorem Faultless.prefix_of_mistaken {before' rest : List Item} (h : Faultless before') (he : Mistaken before item e)
    (heq : before ++ item :: after = before' ++ rest) : before' <+: before := by
  rcases List.append_eq_append_iff.1 heq with ⟨v, rfl, hv⟩ | ⟨v, rfl, -⟩
  · cases v with
    | nil => simp
    | cons x v =>
      obtain ⟨rfl, -⟩ := List.cons.inj hv
      exact absurd he (h before _ v rfl e)
  · exact ⟨v, rfl⟩

theorem FirstMistake.unique (h : FirstMistake items e) (h' : FirstMistake items e') : e = e' := by
  obtain ⟨before, item, after, rfl, hbefore, he⟩ := h
  obtain ⟨before', item', after', heq, hbefore', he'⟩ := h'
  obtain rfl : before = before' :=
    (hbefore.prefix_of_mistaken he' heq.symm).eq_of_length_le (hbefore'.prefix_of_mistaken he heq).length_le
  obtain ⟨rfl, -⟩ := List.cons.inj (List.append_cancel_left heq)
  exact he.unique he'

/-! ### The first pass -/

/-- The first pass stops at an item that does not belong to the notation. -/
theorem scanFrom_bad (hfits : item.Fits t) (hbad : ¬ item.Good) (before : List Item) (opened : List Nat) :
    ∃ e, Mistaken before item e ∧ scanFrom (offsetAfter before) opened (item.chars ++ t) = .error e := by
  cases item with
  | operator letters =>
    refine ⟨_, .operator hbad, ?_⟩
    exact (scanFrom_operator hfits _ opened).trans (if_neg (mt ofSymbol?_isSome_iff.1 hbad))
  | word chars =>
    obtain ⟨c, cs, rfl⟩ := List.exists_cons_of_ne_nil hfits.1
    refine ⟨_, .word hbad, (scanFrom_word hfits _ opened).trans (if_neg fun h => hbad ⟨c, ?_⟩)⟩
    simpa [and_comm] using h
  | sign c =>
    obtain ⟨hopen, hclose, hblank⟩ : c ≠ '(' ∧ c ≠ ')' ∧ ¬ isBlank c = true := by simpa [Item.Good] using hbad
    exact ⟨_, .sign hbad, (scanFrom_sign hfits hopen hclose _ opened).trans (if_neg hblank)⟩

/-- One item: the first pass stops because the item shows a mistake, or it goes on and keeps the stack. -/
theorem scanFrom_item (hstack : Stacked before opened) (hfits : item.Fits t) :
    (∃ e, Mistaken before item e ∧ scanFrom (offsetAfter before) opened (item.chars ++ t) = .error e) ∨
    ∃ opened', Stacked (before ++ [item]) opened' ∧ (∀ e, ¬ Mistaken before item e) ∧
      scanFrom (offsetAfter before) opened (item.chars ++ t) = scanFrom (offsetAfter (before ++ [item])) opened' t := by
  by_cases hgood : item.Good
  swap
  · exact .inl (scanFrom_bad hfits hgood before opened)
  have hfine : ∀ e, item ≠ .sign ')' → ¬ Mistaken before item e := by
    intro e hne he
    cases he with
    | closing => exact hne rfl
    | operator hbad => exact hbad hgood
    | word hbad => exact hbad hgood
    | sign hbad => exact hbad hgood
  rw [offsetAfter_append_singleton]
  by_cases hopen : item = .sign '('
  · subst hopen
    exact .inr ⟨_, hstack.push balanced_nil, fun e => hfine e (by decide), scanFrom_opening _ _ t⟩
  by_cases hclose : item = .sign ')'
  · subst hclose
    have hcount := hstack.openings_eq
    cases opened with
    | nil => exact .inl ⟨_, .closing hcount.le, scanFrom_closing_nil _ t⟩
    | cons position opened =>
      refine .inr ⟨opened, hstack.pop, fun e he => ?_, scanFrom_closing _ position opened t⟩
      cases he with
      | sign hbad => exact hbad hgood
      | closing hnone =>
        rw [List.length_cons] at hcount
        omega
  · exact .inr ⟨opened, hstack.append (balanced_singleton hopen hclose), fun e => hfine e hclose,
      scanFrom_good hfits hgood hopen hclose _ opened⟩

/-- What the first pass can say of the items of a source. -/
inductive Verdict (items : List Item) : Except ParseError Unit → Prop
  | pass (h : Faultless items) (hbalanced : Balanced items) : Verdict items (.ok ())
  | mistake {e : ParseError} (h : FirstMistake items e) : Verdict items (.error e)
  | unclosed {position : Nat} (h : Faultless items) (hlast : IsGreatest {p | Unclosed items p} position) :
      Verdict items (.error (.unbalanced position))

/-- All items: from any point that was reached without a mistake, the first pass comes to its verdict. -/
theorem verdict_scanFrom (hstack : Stacked before opened) (hbefore : Faultless before) (hfit : AllFit items) :
    Verdict (before ++ items) (scanFrom (offsetAfter before) opened (textOf items)) := by
  induction items generalizing before opened with
  | nil =>
    rw [List.append_nil, textOf, List.flatMap_nil, scanFrom.eq_def]
    cases opened with
    | nil =>
      cases hstack with
      | base hbalanced => exact .pass hbefore hbalanced
    | cons position opened => exact .unclosed hbefore hstack.isGreatest
  | cons item items ih =>
    rw [textOf_cons]
    rcases scanFrom_item hstack hfit.1 with ⟨e, he, hstop⟩ | ⟨opened', hstack', hfine, hgo⟩
    · rw [hstop]
      exact .mistake ⟨before, item, items, rfl, hbefore, he⟩
    · rw [hgo, List.append_cons]
      exact ih hstack' (hbefore.append_singleton hfine) hfit.2

theorem Verdict.unique {r r' : Except ParseError Unit} (h : Verdict items r) (h' : Verdict items r') : r = r' := by
  cases h with
  | pass h hbalanced =>
    cases h' with
    | pass => rfl
    | mistake h' => exact absurd h' h.not_firstMistake
    | unclosed h' hlast => exact absurd hlast.1 hbalanced.not_unclosed
  | mistake h =>
    cases h' with
    | pass h' => exact absurd h h'.not_firstMistake
    | mistake h' => rw [h.unique h']
    | unclosed h' => exact absurd h h'.not_firstMistake
  | unclosed h hlast =>
    cases h' with
    | pass h' hbalanced => exact absurd hlast.1 hbalanced.not_unclosed
    | mistake h' => exact absurd h' h.not_firstMistake
    | unclosed h' hlast' => rw [hlast.unique hlast']

theorem verdict_scan {source : String} (h : Itemized source items) (r : Except ParseError Unit) :
    scan source = r ↔ Verdict items r := by
  have hscan : Verdict items (scan source) := by
    rw [scan, ← h.text_eq]
    exact verdict_scanFrom (.base balanced_nil) (fun before item after heq => by simp at heq) h.allFit
  exact ⟨fun heq => heq ▸ hscan, hscan.unique⟩

/-- A source falls in just one way into operator words, words and other characters, each item as long as it can be and
between two characters of the source. The first pass lets it through just if every item belongs to the notation and
the parentheses are balanced. Else it names the first item that does not belong to the notation or closes what is not
open, with its offset; and if there is none, the last parenthesis that is never closed. -/
theorem scan_finds_the_first_mistake (source : String) : ∃ items, Itemized source items ∧
    (∀ items', Itemized source items' → items' = items) ∧
    (∀ before, before <+: items → String.Pos.Raw.IsValid source ⟨offsetAfter before⟩) ∧
    (scan source = .ok () ↔ (∀ item ∈ items, item.Good) ∧ Balanced items) ∧
    ∀ e, scan source = .error e ↔ FirstMistake items e ∨
      Faultless items ∧ ∃ position, IsGreatest {p | Unclosed items p} position ∧ e = .unbalanced position := by
  obtain ⟨items, hfit, htext⟩ := exists_items source.toList
  have hitems : Itemized source items := ⟨htext, hfit⟩
  refine ⟨items, hitems, fun items' h' => h'.allFit.unique hfit (h'.text_eq.trans htext.symm),
    fun before => hitems.isValid, ?_, fun e => ?_⟩
  · rw [verdict_scan hitems]
    constructor
    · intro h
      cases h with
      | pass h hbalanced => exact ⟨h.good, hbalanced⟩
    · rintro ⟨hgood, hbalanced⟩
      exact .pass (hbalanced.faultless hgood) hbalanced
  · rw [verdict_scan hitems]
    constructor
    · intro h
      cases h with
      | mistake h => exact .inl h
      | unclosed h hlast => exact .inr ⟨h, _, hlast, rfl⟩
    · rintro (h | ⟨h, position, hlast, rfl⟩)
      · exact .mistake h
      · exact .unclosed h hlast

/-- A blank of two bytes and a letter stand before a parenthesis that closes nothing. -/
theorem scan_finds_a_stray_closing : Itemized "\u00a0A)" [.sign '\u00a0', .word ['A'], .sign ')'] ∧
    scan "\u00a0A)" = .error (.unbalanced 3) := by
  have hitems : Itemized "\u00a0A)" [.sign '\u00a0', .word ['A'], .sign ')'] := by
    refine ⟨rfl, ⟨by decide, by decide +kernel⟩, ⟨by simp, ?_, endsRun_cons.2 (by decide +kernel)⟩,
      ⟨by decide, by decide +kernel⟩, trivial⟩
    simp only [List.mem_singleton, forall_eq]
    decide +kernel
  have hbefore : Faultless [.sign '\u00a0', .word ['A']] := by
    refine ((balanced_singleton (by decide) (by decide)).append (balanced_singleton (by decide) (by decide))).faultless ?_
    simp only [List.cons_append, List.nil_append, List.forall_mem_cons]
    exact ⟨.inr (.inr (by decide)), ⟨'A', by decide, rfl⟩, by simp⟩
  refine ⟨hitems, ?_⟩
  obtain ⟨items, -, hunique, -, -, herror⟩ := scan_finds_the_first_mistake "\u00a0A)"
  refine (herror _).2 (.inl ⟨[.sign '\u00a0', .word ['A']], .sign ')', [], (hunique _ hitems).symm, hbefore, ?_⟩)
  exact .closing (by decide)

end Mistakes

end Countermodels.Formula
