import Countermodels.Proofs.Formula.Items
import Countermodels.Proofs.Formula.Parse

/-! The first pass never stands in the way of the grammar: it finds no mistake in a text that is derived. What it
says of a text that it lets pass is left to the grammar alone. -/

namespace Countermodels.Formula

open Text

variable {s t : List Char} {f : Formula}

/-- What can follow a term: the end, a blank, an operator word or a closing parenthesis. -/
def Stops (t : List Char) : Prop := ∀ c ∈ t.head?, c = '\\' ∨ c = ')' ∨ Parser.isSpace c = true

theorem isSpace_cases {c : Char} (h : Parser.isSpace c = true) : c = ' ' ∨ c = '\t' ∨ c = '\r' ∨ c = '\n' := by
  simpa [Parser.isSpace, or_assoc] using h

theorem Gap.stops (h : Gap s t) (ht : Stops t) : Stops s := by
  obtain ⟨blanks, hblanks, rfl⟩ := h
  cases blanks with
  | nil => exact ht
  | cons b blanks =>
    intro c hc
    obtain rfl : b = c := by simpa using hc
    exact .inr (.inr (hblanks b List.mem_cons_self))

theorem stops_symbol (op : Operator) (t : List Char) : Stops (op.symbol.toList ++ t) := by
  obtain ⟨ls, hls, -⟩ := op.symbol_eq
  rw [hls]
  intro c hc
  obtain rfl : '\\' = c := by simpa using hc
  exact .inl rfl

theorem stops_close (t : List Char) : Stops (')' :: t) := by
  intro c hc
  obtain rfl : ')' = c := by simpa using hc
  exact .inr (.inl rfl)

/-- No word goes on where a term can end. -/
theorem Stops.isWordPart_eq {c : Char} (h : Stops (c :: t)) : isWordPart c = false := by
  rcases h c rfl with rfl | rfl | hspace
  · decide +kernel
  · decide +kernel
  · rcases isSpace_cases hspace with rfl | rfl | rfl | rfl <;> decide +kernel

theorem Stops.endsRun (h : Stops t) : EndsRun isWordPart t := by
  cases t with
  | nil => rfl
  | cons c t => exact endsRun_cons.2 h.isWordPart_eq

theorem scanFrom_blank {c : Char} (hc : Parser.isSpace c = true) (s : List Char) (offset : Nat) (opened : List Nat) :
    scanFrom offset opened (c :: s) = scanFrom (offset + byteLength [c]) opened s := by
  have hstops : Stops (c :: s) := fun c' hc' => .inr (.inr (Option.some.inj hc' ▸ hc))
  have hword := hstops.isWordPart_eq
  rcases isSpace_cases hc with rfl | rfl | rfl | rfl <;>
    exact (scanFrom_sign ⟨by decide, hword⟩ (by decide) (by decide) offset opened).trans (if_pos (by decide))

theorem scanFrom_gap (h : Gap s t) (offset : Nat) (opened : List Nat) :
    ∃ offset', scanFrom offset opened s = scanFrom offset' opened t := by
  obtain ⟨blanks, hblanks, rfl⟩ := h
  induction blanks generalizing offset with
  | nil => exact ⟨offset, rfl⟩
  | cons b blanks ih =>
    rw [List.forall_mem_cons] at hblanks
    obtain ⟨offset', h'⟩ := ih (offset + byteLength [b]) hblanks.2
    exact ⟨offset', (scanFrom_blank hblanks.1 _ offset opened).trans h'⟩

theorem scanFrom_symbol (op : Operator) (ht : EndsWord t) (offset : Nat) (opened : List Nat) :
    ∃ offset', scanFrom offset opened (op.symbol.toList ++ t) = scanFrom offset' opened t := by
  obtain ⟨ls, hls, hletters⟩ := op.symbol_eq
  have hfits : (Item.operator ls).Fits t := ⟨by simpa using hletters, ht⟩
  have hgood : (Item.operator ls).Good := ⟨op, by rw [← hls, String.ofList_toList]⟩
  rw [hls]
  exact ⟨_, scanFrom_good hfits hgood (by simp) (by simp) offset opened⟩

/-- A sentence letter is one of the 26 capital letters. -/
theorem Atom.toNat_range (a : Atom) : 65 ≤ a.name.toNat ∧ a.name.toNat ≤ 90 := by
  have h := a.upper
  simp only [Char.isUpper, decide_eq_true_eq, UInt32.le_iff_toNat_le] at h
  exact h

theorem scanFrom_letter (a : Atom) (ht : Stops t) (offset : Nat) (opened : List Nat) :
    ∃ offset', scanFrom offset opened (a.name :: t) = scanFrom offset' opened t := by
  obtain ⟨hlow, hhigh⟩ := Atom.toNat_range a
  have hword : isWordPart a.name = true := by
    have hrange : isWordChar a.name = true := by
      refine List.any_eq_true.2 ⟨(0x41, 0x5A), List.mem_cons_of_mem _ List.mem_cons_self, ?_⟩
      simp [hlow, hhigh]
    rw [isWordPart, hrange, Bool.true_or]
  have hfits : (Item.word [a.name]).Fits t := ⟨by simp, by simpa using hword, ht.endsRun⟩
  exact ⟨_, scanFrom_good hfits ⟨a.name, a.upper, rfl⟩ (by simp) (by simp) offset opened⟩

/-- What is derived is passed over, and leaves the parentheses that were open before. -/
theorem scanFrom_derives {k : Category} (h : Derives k s t f) (ht : Stops t) (offset : Nat) (opened : List Nat) :
    ∃ offset', scanFrom offset opened s = scanFrom offset' opened t := by
  induction h generalizing offset opened with
  | atom a hend => exact scanFrom_letter a ht offset opened
  | top hend => exact scanFrom_symbol _ hend offset opened
  | bot hend => exact scanFrom_symbol _ hend offset opened
  | @unary t₁ t₂ t f op hend hgap harg ih =>
    obtain ⟨offset₁, h₁⟩ := scanFrom_symbol (.unary op) hend offset opened
    obtain ⟨offset₂, h₂⟩ := scanFrom_gap hgap offset₁ opened
    obtain ⟨offset₃, h₃⟩ := ih ht offset₂ opened
    exact ⟨offset₃, h₁.trans (h₂.trans h₃)⟩
  | @group t₁ t₂ t₃ t f hopen hinner hclose ih =>
    have h₁ := scanFrom_opening offset opened t₁
    obtain ⟨offset₂, h₂⟩ := scanFrom_gap hopen (offset + 1) (offset :: opened)
    obtain ⟨offset₃, h₃⟩ := ih (hclose.stops (stops_close t)) offset₂ (offset :: opened)
    obtain ⟨offset₄, h₄⟩ := scanFrom_gap hclose offset₃ (offset :: opened)
    have h₅ := scanFrom_closing offset₄ offset opened t
    exact ⟨offset₄ + 1, h₁.trans (h₂.trans (h₃.trans (h₄.trans h₅)))⟩
  | term h ih => exact ih ht offset opened
  | @binary s t₁ t₂ t₃ t f g op hlhs hbefore hend hafter hrhs ihl ihr =>
    obtain ⟨offset₁, h₁⟩ := ihl (hbefore.stops (stops_symbol _ _)) offset opened
    obtain ⟨offset₂, h₂⟩ := scanFrom_gap hbefore offset₁ opened
    obtain ⟨offset₃, h₃⟩ := scanFrom_symbol (.binary op) hend offset₂ opened
    obtain ⟨offset₄, h₄⟩ := scanFrom_gap hafter offset₃ opened
    obtain ⟨offset₅, h₅⟩ := ihr ht offset₄ opened
    exact ⟨offset₅, h₁.trans (h₂.trans (h₃.trans (h₄.trans h₅)))⟩

theorem scan_of_derived {source : String} (h : Derived source.toList f) : scan source = .ok () := by
  obtain ⟨t, u, hopen, hsentence, hclose⟩ := h
  obtain ⟨offset₁, h₁⟩ := scanFrom_gap hopen 0 []
  obtain ⟨offset₂, h₂⟩ := scanFrom_derives hsentence (hclose.stops fun c hc => by cases hc) offset₁ []
  obtain ⟨offset₃, h₃⟩ := scanFrom_gap hclose offset₂ []
  rw [scan, h₁, h₂, h₃, scanFrom]

/-- A text that the first pass lets through is derived, and then read as what it is derived for, or the grammar wanted
something else. No tree that the descent leaves is refused. -/
theorem parse_cases {source : String} (hscan : scan source = .ok ()) :
    (∃ f, Derived source.toList f ∧ parse source = .ok f) ∨
      ∃ wanted position, parse source = .error (.expected wanted position) := by
  rw [parse, hscan]
  cases hrun : Parser.whole (source.toList.length + 1) ⟨0, source.toList⟩ Attempts.none with
  | mk result attempts =>
    cases result with
    | none =>
      refine .inr ⟨Expectation.all.filter (attempts.names.contains ·), attempts.position, ?_⟩
      simp only [hrun]
      rfl
    | some r =>
      obtain ⟨nodes, cursor⟩ := r
      obtain ⟨f, ⟨node, rfl, hread⟩, hderived⟩ := Parser.Finds.of_whole ⟨_, _, _, _, hrun⟩
      refine .inl ⟨f, hderived, ?_⟩
      simp only [hrun]
      exact hread source

theorem parse_of_derived {source : String} (h : Derived source.toList f) : parse source = .ok f := by
  obtain ⟨nodes, position, attempts, hrun, node, rfl, hread⟩ := Parser.reads_whole h (Nat.le_succ _) 0 Attempts.none
  rw [parse, scan_of_derived h]
  simp only [hrun]
  exact hread source

/-- A text is read as a formula just if it is derived for it. -/
theorem parse_eq_ok_iff {source : String} : parse source = .ok f ↔ Derived source.toList f := by
  refine ⟨fun h => ?_, parse_of_derived⟩
  cases hscan : scan source with
  | error e =>
    rw [parse, hscan] at h
    cases h
  | ok _ =>
    rcases parse_cases hscan with ⟨g, hderived, hparse⟩ | ⟨wanted, position, hparse⟩
    · rw [h] at hparse
      cases hparse
      exact hderived
    · rw [h] at hparse
      cases hparse

/-- Reading accepts just what the grammar derives, each text for one formula; the first pass lets all of it through,
and what the first pass lets through is refused, if at all, because the grammar wanted something else, never because of
the tree that it has left. -/
theorem parse_reads_the_grammar (source : String) :
    (∀ f, parse source = .ok f ↔ Derived source.toList f) ∧
    (∀ f g, Derived source.toList f → Derived source.toList g → f = g) ∧
    (∀ f, Derived source.toList f → scan source = .ok ()) ∧
    ∀ e, scan source = .ok () → parse source = .error e → ∃ wanted position, e = .expected wanted position := by
  refine ⟨fun f => parse_eq_ok_iff, fun f g hf hg => ?_, fun f hf => scan_of_derived hf, fun e hscan he => ?_⟩
  · rw [← parse_eq_ok_iff] at hf hg
    exact Except.ok.inj (hf.symm.trans hg)
  · rcases parse_cases hscan with ⟨f, -, hparse⟩ | ⟨wanted, position, hparse⟩
    · rw [he] at hparse
      cases hparse
    · rw [he] at hparse
      exact ⟨wanted, position, Except.error.inj hparse⟩

end Countermodels.Formula
