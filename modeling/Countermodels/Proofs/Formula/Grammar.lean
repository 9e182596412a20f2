import Countermodels.Formula.Parse
import Countermodels.Proofs.Text.Runs

/-! The grammar of formulas, and the descent that reads it. A text is derived together with what follows it, since a
letter and an operator word end where nothing comes that would make them longer. -/

namespace Countermodels

namespace Operator

variable {op op' : Operator} {t t' : List Char}

/-- An operator word is a backslash with letters. -/
theorem symbol_eq (op : Operator) : ∃ ls, op.symbol.toList = '\\' :: ls ∧ ls.all Formula.isLetter = true := by
  rcases op with _ | _ | op | op
  · exact ⟨_, rfl, by decide⟩
  · exact ⟨_, rfl, by decide⟩
  · cases op <;> exact ⟨_, rfl, by decide⟩
  · cases op <;> exact ⟨_, rfl, by decide⟩

theorem symbol_injective : Function.Injective symbol := by
  intro op op' h
  have hall : ∀ x ∈ all, ∀ y ∈ all, x.symbol = y.symbol → x = y := by decide +kernel
  have hmem : ∀ x : Operator, x ∈ all := by
    rintro (_ | _ | x | x)
    · decide
    · decide
    · cases x <;> decide
    · cases x <;> decide
  exact hall op (hmem op) op' (hmem op') h

end Operator

namespace Formula

variable {s t u : List Char} {f g : Formula}

/-- Only blanks stand before the rest of a text. -/
def Gap (s t : List Char) : Prop := ∃ blanks, (∀ c ∈ blanks, Parser.isSpace c = true) ∧ s = blanks ++ t

/-- No letter comes next, so that an operator word ends here. -/
def EndsWord (t : List Char) : Prop := t.head?.any isLetter = false

/-- No word character comes next, so that a sentence letter ends here. -/
def EndsLetter (t : List Char) : Prop := t.head?.any (fun c => c.isAlphanum || c == '_') = false

inductive Category where
  /-- What can be an argument. -/
  | term
  /-- A term, or a binary operator between two terms. -/
  | sentence

/-- The rules of the grammar: a text begins with a member of a category, read as a formula, and something follows. -/
inductive Derives : Category → List Char → List Char → Formula → Prop
  | atom {t : List Char} (a : Atom) (hend : EndsLetter t) : Derives .term (a.name :: t) t (.atom a)
  | top {t : List Char} (hend : EndsWord t) : Derives .term (Operator.top.symbol.toList ++ t) t .top
  | bot {t : List Char} (hend : EndsWord t) : Derives .term (Operator.bot.symbol.toList ++ t) t .bot
  | unary {t₁ t₂ t : List Char} {f : Formula} (op : UnaryOp) (hend : EndsWord t₁) (hgap : Gap t₁ t₂)
      (harg : Derives .term t₂ t f) : Derives .term ((Operator.unary op).symbol.toList ++ t₁) t (.unary op f)
  | group {t₁ t₂ t₃ t : List Char} {f : Formula} (hopen : Gap t₁ t₂) (hinner : Derives .sentence t₂ t₃ f)
      (hclose : Gap t₃ (')' :: t)) : Derives .term ('(' :: t₁) t f
  | term {s t : List Char} {f : Formula} (h : Derives .term s t f) : Derives .sentence s t f
  | binary {s t₁ t₂ t₃ t : List Char} {f g : Formula} (op : BinaryOp) (hlhs : Derives .term s t₁ f)
      (hbefore : Gap t₁ ((Operator.binary op).symbol.toList ++ t₂)) (hend : EndsWord t₂) (hafter : Gap t₂ t₃)
      (hrhs : Derives .term t₃ t g) : Derives .sentence s t (.binary op f g)

/-- A whole text is a sentence, with blanks around it. -/
def Derived (s : List Char) (f : Formula) : Prop := ∃ t u, Gap s t ∧ Derives .sentence t u f ∧ Gap u []

theorem Gap.refl (s : List Char) : Gap s s := ⟨[], by simp, rfl⟩

theorem Gap.length_le (h : Gap s t) : t.length ≤ s.length := by
  obtain ⟨blanks, -, rfl⟩ := h
  simp

theorem gap_dropWhile (s : List Char) : Gap s (s.dropWhile Parser.isSpace) :=
  ⟨s.takeWhile Parser.isSpace, fun _ hc => List.mem_takeWhile_imp hc, List.takeWhile_append_dropWhile.symm⟩

/-- No blank comes next. -/
def Starts (t : List Char) : Prop := t.head?.any Parser.isSpace = false

/-- A gap is as long as it can be if no blank comes after it. -/
theorem Gap.dropWhile_eq (h : Gap s t) (ht : Starts t) : s.dropWhile Parser.isSpace = t := by
  obtain ⟨blanks, hblanks, rfl⟩ := h
  exact Text.EndsRun.dropWhile_append ht hblanks

theorem starts_symbol (op : Operator) (t : List Char) : Starts (op.symbol.toList ++ t) := by
  obtain ⟨ls, hls, -⟩ := op.symbol_eq
  rw [hls]
  rfl

theorem length_lt_symbol_append (op : Operator) (t : List Char) : t.length < (op.symbol.toList ++ t).length := by
  obtain ⟨ls, hls, -⟩ := op.symbol_eq
  rw [hls, List.length_append, List.length_cons]
  omega

theorem Atom.starts (a : Atom) (t : List Char) : Starts (a.name :: t) := by
  have hne : ∀ c : Char, c.isUpper = false → a.name ≠ c := by
    rintro c hc rfl
    rw [a.upper] at hc
    cases hc
  have hspace : Parser.isSpace a.name = false := by
    simp [Parser.isSpace, hne ' ' rfl, hne '\t' rfl, hne '\r' rfl, hne '\n' rfl]
  simpa [Starts] using hspace

/-- What is derived begins with a character that is no blank, and takes up part of its text. -/
theorem Derives.starts {k : Category} (h : Derives k s t f) : Starts s ∧ t.length < s.length := by
  induction h with
  | @atom t a hend => exact ⟨Atom.starts a t, by simp⟩
  | top hend => exact ⟨starts_symbol _ _, length_lt_symbol_append _ _⟩
  | bot hend => exact ⟨starts_symbol _ _, length_lt_symbol_append _ _⟩
  | unary op hend hgap harg ih =>
    have hle := hgap.length_le
    have hlt := ih.2
    exact ⟨starts_symbol _ _, by rw [List.length_append]; omega⟩
  | group hopen hinner hclose ih =>
    have hle := hopen.length_le
    have hle' := hclose.length_le
    have hlt := ih.2
    simp only [List.length_cons] at hle' ⊢
    exact ⟨rfl, by omega⟩
  | term h ih => exact ih
  | binary op hlhs hbefore hend hafter hrhs ihl ihr =>
    have hle := hbefore.length_le
    have hle' := hafter.length_le
    have hlt := ihl.2
    have hlt' := ihr.2
    rw [List.length_append] at hle
    exact ⟨ihl.1, by omega⟩

/-- The letters of an operator word are those up to its end. -/
theorem EndsWord.takeWhile_append (ht : EndsWord t) {ls : List Char} (hls : ls.all isLetter = true) :
    (ls ++ t).takeWhile isLetter = ls :=
  Text.EndsRun.takeWhile_append ht (by simpa using hls)

/-- A text begins with at most one operator word. -/
theorem symbol_append_inj {op op' : Operator} (h : op.symbol.toList ++ t = op'.symbol.toList ++ u) (ht : EndsWord t)
    (hu : EndsWord u) : op = op' := by
  obtain ⟨ls, hls, hletters⟩ := op.symbol_eq
  obtain ⟨ms, hms, hletters'⟩ := op'.symbol_eq
  rw [hls, hms, List.cons_append, List.cons_append, List.cons.injEq] at h
  have heq : ls = ms := by rw [← ht.takeWhile_append hletters, h.2, hu.takeWhile_append hletters']
  apply Operator.symbol_injective
  rw [← String.ofList_toList (s := op.symbol), hls, heq, ← hms, String.ofList_toList]

namespace Parser

variable {α β : Type} {p q : Parser α} {a : α} {b : β} {P : α → Prop} {Q : β → Prop}

/-- The parser reads a value with a property at the start of a text, wherever the text stands and whatever was tried
before. -/
def Reads (p : Parser α) (s : List Char) (P : α → Prop) (t : List Char) : Prop :=
  ∀ position attempts, ∃ a position' attempts', p ⟨position, s⟩ attempts = (some (a, ⟨position', t⟩), attempts') ∧ P a

/-- The parser reads nothing at the start of a text. -/
def Fails (p : Parser α) (s : List Char) : Prop :=
  ∀ position attempts, ∃ attempts', p ⟨position, s⟩ attempts = (none, attempts')

/-- The parser has read a value at the start of a text. -/
def Finds (p : Parser α) (s : List Char) (a : α) (t : List Char) : Prop :=
  ∃ position attempts position' attempts', p ⟨position, s⟩ attempts = (some (a, ⟨position', t⟩), attempts')

theorem Reads.imp {P' : α → Prop} (h : Reads p s P t) (hP : ∀ a, P a → P' a) : Reads p s P' t := by
  intro position attempts
  obtain ⟨a, position', attempts', hrun, ha⟩ := h position attempts
  exact ⟨a, position', attempts', hrun, hP a ha⟩

theorem Reads.pure {s : List Char} (ha : P a) : Reads (Pure.pure a) s P s :=
  fun position attempts => ⟨a, position, attempts, rfl, ha⟩

theorem Reads.bind {q : α → Parser β} (hp : Reads p s P t) (hq : ∀ a, P a → Reads (q a) t Q u) :
    Reads (p >>= q) s Q u := by
  intro position attempts
  obtain ⟨a, position₁, attempts₁, h₁, ha⟩ := hp position attempts
  obtain ⟨b, position₂, attempts₂, h₂, hb⟩ := hq a ha position₁ attempts₁
  refine ⟨b, position₂, attempts₂, ?_, hb⟩
  show andThen p q _ _ = _
  rw [andThen, h₁]
  exact h₂

theorem Fails.bind {q : α → Parser β} (hp : Fails p s) : Fails (p >>= q) s := by
  intro position attempts
  obtain ⟨attempts₁, h₁⟩ := hp position attempts
  refine ⟨attempts₁, ?_⟩
  show andThen p q _ _ = _
  rw [andThen, h₁]

theorem Reads.bind_fails {q : α → Parser β} (hp : Reads p s P t) (hq : ∀ a, Fails (q a) t) : Fails (p >>= q) s := by
  intro position attempts
  obtain ⟨a, position₁, attempts₁, h₁, -⟩ := hp position attempts
  obtain ⟨attempts₂, h₂⟩ := hq a position₁ attempts₁
  refine ⟨attempts₂, ?_⟩
  show andThen p q _ _ = _
  rw [andThen, h₁]
  exact h₂

theorem Finds.of_bind {q : α → Parser β} (h : Finds (p >>= q) s b u) : ∃ a t, Finds p s a t ∧ Finds (q a) t b u := by
  obtain ⟨position, attempts, position', attempts', h⟩ := h
  change andThen p q _ _ = _ at h
  rw [andThen] at h
  split at h
  · next a cursor attempts₁ h₁ => exact ⟨a, cursor.rest, ⟨_, _, _, _, h₁⟩, ⟨_, _, _, _, h⟩⟩
  · cases h

theorem Finds.of_pure {c : α} (h : Finds (Pure.pure c) s a t) : a = c ∧ s = t := by
  obtain ⟨position, attempts, position', attempts', h⟩ := h
  cases h
  exact ⟨rfl, rfl⟩

theorem Reads.orElse (hp : Reads p s P t) : Reads (orElse p q) s P t := by
  intro position attempts
  obtain ⟨a, position₁, attempts₁, h₁, ha⟩ := hp position attempts
  exact ⟨a, position₁, attempts₁, by rw [Parser.orElse, h₁], ha⟩

theorem Fails.orElse (hp : Fails p s) (hq : Reads q s P t) : Reads (orElse p q) s P t := by
  intro position attempts
  obtain ⟨attempts₁, h₁⟩ := hp position attempts
  obtain ⟨a, position₂, attempts₂, h₂, ha⟩ := hq position attempts₁
  exact ⟨a, position₂, attempts₂, by rw [Parser.orElse, h₁]; exact h₂, ha⟩

theorem Fails.orElse_fails (hp : Fails p s) (hq : Fails q s) : Fails (Parser.orElse p q) s := by
  intro position attempts
  obtain ⟨attempts₁, h₁⟩ := hp position attempts
  obtain ⟨attempts₂, h₂⟩ := hq position attempts₁
  exact ⟨attempts₂, by rw [Parser.orElse, h₁]; exact h₂⟩

theorem Finds.of_orElse (h : Finds (Parser.orElse p q) s a t) : Finds p s a t ∨ Finds q s a t := by
  obtain ⟨position, attempts, position', attempts', h⟩ := h
  rw [Parser.orElse] at h
  split at h
  · exact .inr ⟨_, _, _, _, h⟩
  · exact .inl ⟨_, _, _, _, h⟩

/-- The first alternative that does not fail is taken. -/
theorem Reads.choose {before after : List (Parser α)} (hbefore : ∀ q ∈ before, Fails q s) (hp : Reads p s P t) :
    Reads (choose (before ++ p :: after)) s P t := by
  induction before with
  | nil => exact hp.orElse
  | cons q before ih =>
    rw [List.forall_mem_cons] at hbefore
    exact hbefore.1.orElse (ih hbefore.2)

theorem Fails.choose {ps : List (Parser α)} (hps : ∀ p ∈ ps, Fails p s) : Fails (choose ps) s := by
  induction ps with
  | nil => exact fun _ attempts => ⟨attempts, rfl⟩
  | cons p ps ih =>
    rw [List.forall_mem_cons] at hps
    exact hps.1.orElse_fails (ih hps.2)

theorem Finds.of_choose {ps : List (Parser α)} (h : Finds (choose ps) s a t) : ∃ p ∈ ps, Finds p s a t := by
  induction ps with
  | nil =>
    obtain ⟨position, attempts, position', attempts', h⟩ := h
    cases h
  | cons p ps ih =>
    rcases Finds.of_orElse h with h | h
    · exact ⟨p, List.mem_cons_self, h⟩
    · obtain ⟨q, hq, h⟩ := ih h
      exact ⟨q, List.mem_cons_of_mem _ hq, h⟩

section

variable {p : Parser (List Node)} {nodes : List Node} {name : Expectation} {P Q : List Node → Prop}

theorem Reads.node (hp : Reads p s P t)
    (hQ : ∀ position position' inner, P inner → Q [.mk name ⟨position, s⟩ ⟨position', t⟩ inner]) :
    Reads (node name p) s Q t := by
  intro position attempts
  obtain ⟨inner, position₁, attempts₁, h₁, hinner⟩ := hp position attempts
  exact ⟨_, position₁, attempts₁, by rw [Parser.node, h₁], hQ _ _ _ hinner⟩

theorem Fails.node (hp : Fails p s) : Fails (node name p) s := by
  intro position attempts
  obtain ⟨attempts₁, h₁⟩ := hp position attempts
  exact ⟨_, by rw [Parser.node, h₁]⟩

theorem Finds.of_node (h : Finds (Parser.node name p) s nodes t) :
    ∃ position position' inner, nodes = [.mk name ⟨position, s⟩ ⟨position', t⟩ inner] ∧ Finds p s inner t := by
  obtain ⟨position, attempts, position', attempts', h⟩ := h
  rw [Parser.node] at h
  split at h
  · next inner stop attempts₁ h₁ =>
    cases h
    exact ⟨position, position', inner, rfl, _, _, _, _, h₁⟩
  · cases h

end

end Parser

end Formula

end Countermodels
