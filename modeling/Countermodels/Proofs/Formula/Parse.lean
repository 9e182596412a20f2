import Countermodels.Proofs.Formula.Grammar

/-! The descent reads what the grammar derives, and nothing else. A bare binary operator is looked for first; where
there is none, no operator word follows the first term, and the term alone is read again. The trees that it leaves have
all the parts that their names ask for, so each of them stands for a formula. -/

namespace Countermodels.Formula

variable {s t u : List Char} {f g : Formula} {nodes : List Node}

/-! What trees stand for. -/

/-- A single tree that is read as a formula. -/
def Spells (f : Formula) (nodes : List Node) : Prop := ∃ node : Node, nodes = [node] ∧ node.read = .ok f

/-- A single node whose first part is read as a formula. -/
def Wraps (f : Formula) (nodes : List Node) : Prop :=
  ∃ node : Node, nodes = [node] ∧ ∀ text, Node.readPart text node.inner 0 = .ok f

/-- A single node that an operator word has left. -/
def Marks (op : Operator) (nodes : List Node) : Prop := ∃ node : Node, nodes = [node] ∧ node.name = .operator op

theorem Cursor.textUpTo_append (position position' : Nat) (s t : List Char) :
    Cursor.textUpTo ⟨position, s ++ t⟩ ⟨position', t⟩ = String.ofList s := by
  simp [textUpTo]

theorem spells_atom (a : Atom) (position position' : Nat) (inner : List Node) :
    Spells (.atom a) [.mk .atom ⟨position, a.name :: t⟩ ⟨position', t⟩ inner] := by
  have htext := Cursor.textUpTo_append position position' [a.name] t
  have hatom : Atom.ofChar? a.name = some a := by simp [Atom.ofChar?, a.upper]
  rw [List.singleton_append] at htext
  refine ⟨_, rfl, ?_⟩
  simp [Node.read, htext, hatom]

theorem Marks.spells_top (h : Marks .top nodes) : Spells .top nodes := by
  obtain ⟨⟨name, start, stop, inner⟩, rfl, rfl⟩ := h
  exact ⟨_, rfl, by simp [Node.read]⟩

theorem Marks.spells_bot (h : Marks .bot nodes) : Spells .bot nodes := by
  obtain ⟨⟨name, start, stop, inner⟩, rfl, rfl⟩ := h
  exact ⟨_, rfl, by simp [Node.read]⟩

theorem Marks.spells_unary {op : UnaryOp} {args : List Node} (hop : Marks (.unary op) nodes) (harg : Spells f args)
    (start stop : Cursor) : Spells (.unary op f) [.mk .unary start stop (nodes ++ args)] := by
  obtain ⟨⟨name, begins, ends, inner⟩, rfl, rfl⟩ := hop
  obtain ⟨arg, rfl, harg⟩ := harg
  refine ⟨_, rfl, ?_⟩
  change (do return Formula.unary op (← arg.read)) = _
  rw [harg]
  rfl

theorem Marks.spells_binary {op : BinaryOp} {lhs rhs : List Node} (hop : Marks (.binary op) nodes) (hlhs : Spells f lhs)
    (hrhs : Spells g rhs) (start stop : Cursor) :
    Spells (.binary op f g) [.mk .binary start stop (lhs ++ nodes ++ rhs)] := by
  obtain ⟨⟨name, begins, ends, inner⟩, rfl, rfl⟩ := hop
  obtain ⟨lhs, rfl, hlhs⟩ := hlhs
  obtain ⟨rhs, rfl, hrhs⟩ := hrhs
  refine ⟨_, rfl, ?_⟩
  change (do return Formula.binary op (← lhs.read) (← rhs.read)) = _
  rw [hlhs, hrhs]
  rfl

theorem Spells.wraps (h : Spells f nodes) (name : Expectation) (start stop : Cursor) (others : List Node) :
    Wraps f [.mk name start stop (nodes ++ others)] := by
  obtain ⟨node, rfl, hread⟩ := h
  exact ⟨_, rfl, fun _ => hread⟩

namespace Parser

/-! Words, letters and marks. -/

theorem reads_blanks (s : List Char) : Reads blanks s (fun _ => True) (s.dropWhile isSpace) :=
  fun _ attempts => ⟨(), _, attempts, rfl, trivial⟩

theorem reads_gap (h : Gap s t) (ht : Starts t) : Reads blanks s (fun _ => True) t :=
  h.dropWhile_eq ht ▸ reads_blanks s

theorem Finds.of_blanks (h : Finds blanks s () t) : Gap s t := by
  obtain ⟨position, attempts, position', attempts', h⟩ := h
  cases h
  exact gap_dropWhile s

theorem reads_char (c : Char) (t : List Char) : Reads (char c) (c :: t) (fun _ => True) t :=
  fun position attempts => ⟨(), position + 1, attempts, if_pos rfl, trivial⟩

theorem Finds.of_char {c : Char} (h : Finds (char c) s () t) : s = c :: t := by
  obtain ⟨position, attempts, position', attempts', h⟩ := h
  rcases s with _ | ⟨d, s⟩
  · cases h
  · dsimp only [char] at h
    split at h
    · next heq =>
      cases h
      rw [heq]
    · cases h

theorem reads_endOfInput : Reads endOfInput [] (fun _ => True) [] :=
  Reads.node (P := fun _ => True) (fun position attempts => ⟨[], position, attempts, rfl, trivial⟩) fun _ _ _ _ => trivial

theorem Finds.of_endOfInput (h : Finds endOfInput s nodes t) : s = [] := by
  obtain ⟨-, -, inner, -, position, attempts, position', attempts', h⟩ := Finds.of_node h
  rcases s with _ | ⟨c, s⟩
  · rfl
  · cases h

theorem reads_letter (a : Atom) (ht : EndsLetter t) : Reads letter (a.name :: t) (Spells (.atom a)) t := by
  refine Reads.node (P := fun _ => True) (fun position attempts => ?_) fun position position' inner _ =>
    spells_atom a position position' inner
  refine ⟨[], position + 1, attempts, ?_, trivial⟩
  dsimp only
  rw [if_pos a.upper]
  exact if_neg (by rw [show _ = false from ht]; exact Bool.false_ne_true)

theorem Finds.of_letter (h : Finds letter s nodes t) :
    ∃ a : Atom, Spells (.atom a) nodes ∧ s = a.name :: t ∧ EndsLetter t := by
  obtain ⟨begins, ends, inner, hnodes, position, attempts, position', attempts', h⟩ := Finds.of_node h
  rcases s with _ | ⟨c, s⟩
  · cases h
  · by_cases hupper : c.isUpper = true
    · simp only [hupper, if_true] at h
      split at h
      · cases h
      · next hend =>
        cases h
        exact ⟨⟨c, hupper⟩, hnodes ▸ spells_atom ⟨c, hupper⟩ begins ends _, rfl, by simpa [EndsLetter] using hend⟩
    · simp only [hupper] at h
      cases h

/-- No sentence letter begins with a character that is not one. -/
theorem fails_letter {c : Char} (hc : c.isUpper = false) (t : List Char) : Fails letter (c :: t) := by
  apply Fails.node
  intro position attempts
  exact ⟨attempts, by simp [hc]⟩

theorem reads_word (op : Operator) (ht : EndsWord t) : Reads (word op) (op.symbol.toList ++ t) (Marks op) t := by
  refine Reads.node (P := fun _ => True) (fun position attempts => ?_) fun _ _ _ _ => ⟨_, rfl, rfl⟩
  refine ⟨[], position + op.symbol.toList.length, attempts, ?_, trivial⟩
  have hprefix : op.symbol.toList.isPrefixOf (op.symbol.toList ++ t) = true := by simp
  obtain ⟨ls, hls, -⟩ := op.symbol_eq
  have hcons : op.symbol.toList ++ t = '\\' :: (ls ++ t) := by rw [hls, List.cons_append]
  have hdrop : ('\\' :: (ls ++ t)).drop op.symbol.toList.length = t := by rw [← hcons, List.drop_left]
  have hno : ¬ t.head?.any isLetter = true := by
    rw [show _ = false from ht]
    exact Bool.false_ne_true
  rw [hcons] at hprefix ⊢
  dsimp only
  rw [if_pos hprefix, hdrop, if_neg hno]
  rfl

theorem Finds.of_word {op : Operator} (h : Finds (word op) s nodes t) :
    Marks op nodes ∧ s = op.symbol.toList ++ t ∧ EndsWord t := by
  replace h := Finds.of_node h
  obtain ⟨begins, ends, inner, hnodes, position, attempts, position', attempts', h⟩ := h
  refine ⟨⟨_, hnodes, rfl⟩, ?_⟩
  dsimp only at h
  split at h
  · next rest =>
    split at h
    · next hprefix =>
      split at h
      · cases h
      · next hend =>
        obtain ⟨w, hw⟩ := List.isPrefixOf_iff_prefix.1 hprefix
        have hdrop : ('\\' :: rest).drop op.symbol.toList.length = w := by rw [← hw, List.drop_left]
        rw [hdrop] at hend h
        cases h
        exact ⟨hw.symm, by simpa [EndsWord] using hend⟩
    · cases h
  · cases h

/-- A word is read or not, and what was tried before does not matter. -/
theorem fails_word {op : Operator} (h : ∀ t, s = op.symbol.toList ++ t → ¬ EndsWord t) : Fails (word op) s := by
  apply Fails.node
  intro position attempts
  dsimp only
  split
  · split
    · next hprefix =>
      obtain ⟨w, hw⟩ := List.isPrefixOf_iff_prefix.1 hprefix
      have hend : w.head?.any isLetter = true := by simpa [EndsWord] using h w hw.symm
      refine ⟨attempts, if_pos ?_⟩
      rw [← hw, List.drop_left, hend]
    · exact ⟨attempts, rfl⟩
  · exact ⟨attempts, rfl⟩

theorem fails_word_of_ne {op op' : Operator} (hne : op' ≠ op) (ht : EndsWord t) :
    Fails (word op) (op'.symbol.toList ++ t) :=
  fails_word fun _ heq hend => hne (symbol_append_inj heq ht hend)

/-- No operator word begins with another character than a backslash. -/
theorem fails_word_of_start {op : Operator} (h : ∀ t, s ≠ '\\' :: t) : Fails (word op) s := by
  apply fails_word
  intro t ht
  obtain ⟨ls, hls, -⟩ := op.symbol_eq
  rw [hls, List.cons_append] at ht
  exact absurd ht (h _)

/-! Operators among others. -/

theorem reads_oneOf {op : Operator} {ops : List Operator} (hop : op ∈ ops) (ht : EndsWord t) :
    Reads (oneOf ops) (op.symbol.toList ++ t) (Marks op) t := by
  obtain ⟨before, after, rfl, hnew⟩ := List.eq_append_cons_of_mem hop
  rw [oneOf, List.map_append, List.map_cons]
  refine Reads.choose (fun q hq => ?_) (reads_word op ht)
  obtain ⟨op', hop', rfl⟩ := List.mem_map.1 hq
  refine fails_word_of_ne ?_ ht
  rintro rfl
  exact hnew hop'

/-- Where no backslash comes next there is no operator. -/
theorem fails_oneOf (ops : List Operator) (h : ∀ t, s ≠ '\\' :: t) : Fails (oneOf ops) s := by
  apply Fails.choose
  intro q hq
  obtain ⟨op, -, rfl⟩ := List.mem_map.1 hq
  exact fails_word_of_start h

theorem Finds.of_oneOf {ops : List Operator} (h : Finds (oneOf ops) s nodes t) :
    ∃ op ∈ ops, Marks op nodes ∧ s = op.symbol.toList ++ t ∧ EndsWord t := by
  obtain ⟨q, hq, h⟩ := h.of_choose
  obtain ⟨op, hop, rfl⟩ := List.mem_map.1 hq
  exact ⟨op, hop, Finds.of_word h⟩

theorem unary_mem (op : UnaryOp) : Operator.unary op ∈ UnaryOp.all.map .unary := by cases op <;> decide

theorem binary_mem (op : BinaryOp) : Operator.binary op ∈ BinaryOp.all.map .binary := by cases op <;> decide

/-! Terms and sentences. -/

/-- What stands in parentheses, or is a whole text. -/
def sentence (depth : Nat) : Parser (List Node) := orElse (binary (term depth)) (term depth)

theorem reads_unary {depth : Nat} {t₁ t₂ : List Char} (op : UnaryOp) (hend : EndsWord t₁) (hgap : Gap t₁ t₂)
    (hstart : Starts t₂) (harg : Reads (term depth) t₂ (Spells f) t) :
    Reads (unary (term depth)) ((Operator.unary op).symbol.toList ++ t₁) (Spells (.unary op f)) t := by
  refine Reads.node (P := fun inner => ∃ ops args, Marks (.unary op) ops ∧ Spells f args ∧ inner = ops ++ args) ?_ ?_
  · refine (reads_oneOf (unary_mem op) hend).bind fun ops hops => ?_
    refine (reads_gap hgap hstart).bind fun _ _ => harg.bind fun args hargs => .pure ?_
    exact ⟨ops, args, hops, hargs, rfl⟩
  · rintro position position' inner ⟨ops, args, hops, hargs, rfl⟩
    exact hops.spells_unary hargs _ _

theorem reads_binary {depth : Nat} {t₁ t₂ t₃ : List Char} (op : BinaryOp) (hlhs : Reads (term depth) s (Spells f) t₁)
    (hbefore : Gap t₁ ((Operator.binary op).symbol.toList ++ t₂)) (hend : EndsWord t₂) (hafter : Gap t₂ t₃)
    (hstart : Starts t₃) (hrhs : Reads (term depth) t₃ (Spells g) t) :
    Reads (binary (term depth)) s (Spells (.binary op f g)) t := by
  refine Reads.node (P := fun inner => ∃ lhs ops rhs, Spells f lhs ∧ Marks (.binary op) ops ∧ Spells g rhs ∧
    inner = lhs ++ ops ++ rhs) ?_ ?_
  · refine hlhs.bind fun lhs hl => (reads_gap hbefore (starts_symbol _ _)).bind fun _ _ => ?_
    refine (reads_oneOf (binary_mem op) hend).bind fun ops hops => ?_
    refine (reads_gap hafter hstart).bind fun _ _ => hrhs.bind fun rhs hr => .pure ?_
    exact ⟨lhs, ops, rhs, hl, hops, hr, rfl⟩
  · rintro position position' inner ⟨lhs, ops, rhs, hl, hops, hr, rfl⟩
    exact hops.spells_binary hl hr _ _

/-- After a term that no operator word follows, the search for a binary operator is given up. -/
theorem fails_binary {depth : Nat} (hlhs : Reads (term depth) s (Spells f) t)
    (hnone : ∀ u, t.dropWhile isSpace ≠ '\\' :: u) : Fails (binary (term depth)) s :=
  Fails.node (hlhs.bind_fails fun _ => (reads_blanks t).bind_fails fun _ => (fails_oneOf _ hnone).bind)

theorem reads_group {depth : Nat} {t₁ t₂ t₃ : List Char} (hopen : Gap t₁ t₂) (hstart : Starts t₂)
    (hinner : Reads (sentence depth) t₂ (Spells f) t₃) (hclose : Gap t₃ (')' :: t)) :
    Reads (group (term depth)) ('(' :: t₁) (Spells f) t :=
  (reads_char _ _).bind fun _ _ => (reads_gap hopen hstart).bind fun _ _ => hinner.bind fun _ hspells =>
    (reads_gap hclose rfl).bind fun _ _ => (reads_char _ _).bind fun _ _ => .pure hspells

/-- A descent that may go deep enough reads what is derived: a term in any case, and a sentence if no operator word
follows it. -/
theorem reads_of_derives {k : Category} (h : Derives k s t f) : ∀ depth, s.length ≤ depth →
    match k with
    | .term => Reads (term depth) s (Spells f) t
    | .sentence => (∀ u, t.dropWhile isSpace ≠ '\\' :: u) → Reads (sentence depth) s (Spells f) t := by
  induction h with
  | atom a hend =>
    intro depth hdepth
    obtain ⟨depth, rfl⟩ := Nat.exists_eq_succ_of_ne_zero (by rintro rfl; simp at hdepth : depth ≠ 0)
    exact (reads_letter a hend).orElse
  | @top t hend =>
    intro depth hdepth
    have hlt := length_lt_symbol_append .top t
    obtain ⟨depth, rfl⟩ := Nat.exists_eq_succ_of_ne_zero (by omega : depth ≠ 0)
    have hfail : Fails letter (Operator.top.symbol.toList ++ t) := fails_letter rfl _
    exact hfail.orElse ((reads_word .top hend).imp fun _ h => h.spells_top).orElse
  | @bot t hend =>
    intro depth hdepth
    have hlt := length_lt_symbol_append .bot t
    obtain ⟨depth, rfl⟩ := Nat.exists_eq_succ_of_ne_zero (by omega : depth ≠ 0)
    have hfail : Fails letter (Operator.bot.symbol.toList ++ t) := fails_letter rfl _
    have htop : Fails (word .top) (Operator.bot.symbol.toList ++ t) := fails_word_of_ne (by decide) hend
    exact hfail.orElse (htop.orElse ((reads_word .bot hend).imp fun _ h => h.spells_bot).orElse)
  | @unary t₁ t₂ t f op hend hgap harg ih =>
    intro depth hdepth
    have hlt := length_lt_symbol_append (.unary op) t₁
    have hle := hgap.length_le
    obtain ⟨depth, rfl⟩ := Nat.exists_eq_succ_of_ne_zero (by omega : depth ≠ 0)
    have hfail : Fails letter ((Operator.unary op).symbol.toList ++ t₁) := by
      obtain ⟨ls, hls, -⟩ := (Operator.unary op).symbol_eq
      rw [hls]
      exact fails_letter rfl _
    have htop : Fails (word .top) ((Operator.unary op).symbol.toList ++ t₁) :=
      fails_word_of_ne Operator.noConfusion hend
    have hbot : Fails (word .bot) ((Operator.unary op).symbol.toList ++ t₁) :=
      fails_word_of_ne Operator.noConfusion hend
    have hread := reads_unary op hend hgap harg.starts.1 (ih depth (by omega))
    exact hfail.orElse (htop.orElse (hbot.orElse hread.orElse))
  | @group t₁ t₂ t₃ t f hopen hinner hclose ih =>
    intro depth hdepth
    have hle := hopen.length_le
    rw [List.length_cons] at hdepth
    obtain ⟨depth, rfl⟩ := Nat.exists_eq_succ_of_ne_zero (by omega : depth ≠ 0)
    have hstart : ∀ u, '(' :: t₁ ≠ '\\' :: u := by simp
    have hfail : Fails letter ('(' :: t₁) := fails_letter rfl _
    have htop : Fails (word .top) ('(' :: t₁) := fails_word_of_start hstart
    have hbot : Fails (word .bot) ('(' :: t₁) := fails_word_of_start hstart
    have hunary : Fails (unary (term depth)) ('(' :: t₁) := Fails.node (fails_oneOf _ hstart).bind
    have hnone : ∀ u, t₃.dropWhile isSpace ≠ '\\' :: u := by
      rw [hclose.dropWhile_eq rfl]
      simp
    have hread := reads_group hopen hinner.starts.1 (ih depth (by omega) hnone) hclose
    exact hfail.orElse (htop.orElse (hbot.orElse (hunary.orElse hread.orElse)))
  | term h ih =>
    intro depth hdepth hnone
    have hread := ih depth hdepth
    exact (fails_binary hread hnone).orElse hread
  | @binary s t₁ t₂ t₃ t f g op hlhs hbefore hend hafter hrhs ihl ihr =>
    intro depth hdepth _
    have hlt := hlhs.starts.2
    have hle := hbefore.length_le
    have hle' := hafter.length_le
    rw [List.length_append] at hle
    exact (reads_binary op (ihl depth hdepth) hbefore hend hafter hrhs.starts.1 (ihr depth (by omega))).orElse

/-- A sentence that was found is derived, if the terms are. -/
theorem Finds.of_sentence {depth : Nat}
    (hterm : ∀ {s t nodes}, Finds (term depth) s nodes t → ∃ f, Spells f nodes ∧ Derives .term s t f)
    (h : Finds (sentence depth) s nodes t) : ∃ f, Spells f nodes ∧ Derives .sentence s t f := by
  rcases h.of_orElse with h | h
  · obtain ⟨begins, ends, inner, rfl, hinner⟩ := h.of_node
    obtain ⟨lhs, t₁, hlhs, h⟩ := Finds.of_bind hinner
    obtain ⟨⟨⟩, t₂, hbefore, h⟩ := Finds.of_bind h
    obtain ⟨ops, t₃, hops, h⟩ := Finds.of_bind h
    obtain ⟨⟨⟩, t₄, hafter, h⟩ := Finds.of_bind h
    obtain ⟨rhs, t₅, hrhs, h⟩ := Finds.of_bind h
    obtain ⟨rfl, rfl⟩ := Finds.of_pure h
    obtain ⟨op, hop, hmarks, rfl, hend⟩ := hops.of_oneOf
    obtain ⟨op, -, rfl⟩ := List.mem_map.1 hop
    obtain ⟨f, hf, hlhs⟩ := hterm hlhs
    obtain ⟨g, hg, hrhs⟩ := hterm hrhs
    exact ⟨_, hmarks.spells_binary hf hg _ _, .binary op hlhs hbefore.of_blanks hend hafter.of_blanks hrhs⟩
  · obtain ⟨f, hf, h⟩ := hterm h
    exact ⟨f, hf, .term h⟩

/-- A term that was found is derived, for the formula that its tree stands for. -/
theorem Finds.of_term {depth : Nat} (h : Finds (term depth) s nodes t) : ∃ f, Spells f nodes ∧ Derives .term s t f := by
  induction depth generalizing s t nodes with
  | zero =>
    obtain ⟨position, attempts, position', attempts', h⟩ := h
    cases h
  | succ depth ih =>
    obtain ⟨p, hp, h⟩ := Finds.of_choose h
    simp only [List.mem_cons, List.not_mem_nil, or_false] at hp
    rcases hp with rfl | rfl | rfl | rfl | rfl
    · obtain ⟨a, hspells, rfl, hend⟩ := Finds.of_letter h
      exact ⟨_, hspells, .atom a hend⟩
    · obtain ⟨hmarks, rfl, hend⟩ := Finds.of_word h
      exact ⟨_, hmarks.spells_top, .top hend⟩
    · obtain ⟨hmarks, rfl, hend⟩ := Finds.of_word h
      exact ⟨_, hmarks.spells_bot, .bot hend⟩
    · obtain ⟨begins, ends, inner, rfl, hinner⟩ := Finds.of_node h
      obtain ⟨ops, t₁, hops, h⟩ := Finds.of_bind hinner
      obtain ⟨⟨⟩, t₂, hgap, h⟩ := Finds.of_bind h
      obtain ⟨args, t₃, hargs, h⟩ := Finds.of_bind h
      obtain ⟨rfl, rfl⟩ := Finds.of_pure h
      obtain ⟨op, hop, hmarks, rfl, hend⟩ := hops.of_oneOf
      obtain ⟨op, -, rfl⟩ := List.mem_map.1 hop
      obtain ⟨f, hf, harg⟩ := ih hargs
      exact ⟨_, hmarks.spells_unary hf _ _, .unary op hend hgap.of_blanks harg⟩
    · obtain ⟨⟨⟩, t₁, hopen, h⟩ := Finds.of_bind h
      obtain ⟨⟨⟩, t₂, hgap, h⟩ := Finds.of_bind h
      obtain ⟨inner, t₃, hinner, h⟩ := Finds.of_bind h
      obtain ⟨⟨⟩, t₄, hgap', h⟩ := Finds.of_bind h
      obtain ⟨⟨⟩, t₅, hclose, h⟩ := Finds.of_bind h
      obtain ⟨rfl, rfl⟩ := Finds.of_pure h
      obtain ⟨f, hf, hsentence⟩ := Finds.of_sentence ih hinner
      rw [hopen.of_char]
      exact ⟨f, hf, .group hgap.of_blanks hsentence (hclose.of_char ▸ hgap'.of_blanks)⟩

/-- A whole text is read as the formula it is derived for. -/
theorem reads_whole {depth : Nat} (h : Derived s f) (hdepth : s.length ≤ depth) : Reads (whole depth) s (Wraps f) [] := by
  obtain ⟨t, u, hopen, hsentence, hclose⟩ := h
  have hle := hopen.length_le
  have hnone : ∀ w, u.dropWhile isSpace ≠ '\\' :: w := by
    rw [hclose.dropWhile_eq rfl]
    simp
  have hread := reads_of_derives hsentence depth (by omega) hnone
  refine Reads.node (P := fun inner => ∃ nodes ending, Spells f nodes ∧ inner = nodes ++ ending) ?_ ?_
  · refine (reads_gap hopen hsentence.starts.1).bind fun _ _ => hread.bind fun nodes hnodes => ?_
    refine (reads_gap hclose rfl).bind fun _ _ => reads_endOfInput.bind fun ending _ => .pure ?_
    exact ⟨nodes, ending, hnodes, rfl⟩
  · rintro position position' inner ⟨nodes, ending, hnodes, rfl⟩
    exact hnodes.wraps _ _ _ ending

theorem Finds.of_whole {depth : Nat} (h : Finds (whole depth) s nodes t) : ∃ f, Wraps f nodes ∧ Derived s f := by
  obtain ⟨begins, ends, inner, rfl, hinner⟩ := h.of_node
  obtain ⟨⟨⟩, t₁, hopen, h⟩ := Finds.of_bind hinner
  obtain ⟨inner, t₂, hfound, h⟩ := Finds.of_bind h
  obtain ⟨⟨⟩, t₃, hclose, h⟩ := Finds.of_bind h
  obtain ⟨ending, t₄, hend, h⟩ := Finds.of_bind h
  obtain ⟨rfl, rfl⟩ := Finds.of_pure h
  obtain ⟨f, hf, hsentence⟩ := Finds.of_sentence Finds.of_term hfound
  exact ⟨f, hf.wraps _ _ _ ending, t₁, t₂, hopen.of_blanks, hsentence, hend.of_endOfInput ▸ hclose.of_blanks⟩

end Parser

end Countermodels.Formula
