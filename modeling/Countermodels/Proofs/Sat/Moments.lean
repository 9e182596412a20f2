import Countermodels.Proofs.Sat.Incremental

/-! The moments at which a propagation has just found no conflict. At each of them every clause has a true literal
or two free ones, the trail says what the tables say, and nothing on it waits to be propagated. -/

namespace Countermodels.Sat

variable {Φ : List (List Lit)} {A : List Lit} {b : Board} {t : Trail} {c : Clause} {id : Nat}

/-- Two free literals stand in front. -/
theorem two_le_countP_of_front {p : Lit → Bool} {lits : List Lit} {l m : Lit} (hl : lits[0]? = some l)
    (hm : lits[1]? = some m) (hpl : p l = true) (hpm : p m = true) : 2 ≤ lits.countP p := by
  rcases lits with _ | ⟨x, _ | ⟨y, rest⟩⟩
  · simp at hl
  · simp at hm
  · obtain rfl : x = l := by simpa using hl
    obtain rfl : y = m := by simpa using hm
    rw [List.countP_cons_of_pos hpl, List.countP_cons_of_pos hpm]
    omega

/-- A watched literal that is false leaves its clause with a true literal, once all literals are propagated. -/
theorem Settled.exists_holds {cs : Array Clause} {l : Lit} (hs : Settled t cs t.lits.size) (ht : t.Valid)
    (hc : Live cs id c) (hl : c.Watches l) (hfails : t.valueOf l = .fails) : ∃ m ∈ c.lits, t.valueOf m = .holds := by
  obtain ⟨i, hi⟩ := Array.mem_iff_getElem?.1 (ht.fails_iff.1 hfails)
  obtain ⟨m, hm, hmt, -⟩ := hs id c hc l hl i (Array.getElem?_eq_some_iff.1 hi).1 hi
  exact ⟨m, hm, (ht.holds_iff m).2 hmt⟩

/-- When all literals are propagated, a clause is true or has two free literals. -/
theorem Settled.holds_or_free {cs : Array Clause} (hs : Settled t cs t.lits.size) (h : Shaped t cs)
    (hc : Live cs id c) :
    (∃ m ∈ c.lits, t.valueOf m = .holds) ∨ 2 ≤ c.lits.toList.countP (t.valueOf · = .free) := by
  have hsize := h.two_le id c hc
  have hfirst : c.lits[0]? = some c.lits[0] := Array.getElem?_eq_getElem (by omega)
  have hsecond : c.lits[1]? = some c.lits[1] := Array.getElem?_eq_getElem (by omega)
  -- the watched literals decide: one that is not free is true, or makes another literal true
  have hwatched : ∀ l, c.Watches l → t.valueOf l ≠ .free → ∃ m ∈ c.lits, t.valueOf m = .holds := by
    intro l hl hne
    cases hvalue : t.valueOf l with
    | free => exact absurd hvalue hne
    | holds => exact ⟨l, hl.mem, hvalue⟩
    | fails => exact hs.exists_holds h.trail hc hl hvalue
  by_cases h0 : t.valueOf c.lits[0] = .free
  · by_cases h1 : t.valueOf c.lits[1] = .free
    · right
      rw [← Array.getElem?_toList] at hfirst hsecond
      exact two_le_countP_of_front hfirst hsecond (by simpa using h0) (by simpa using h1)
    · exact .inl (hwatched _ (.inr hsecond) h1)
  · exact .inl (hwatched _ (.inl hfirst) h0)

/-- A variable stands on the trail once if it has a value, and not at all if it has none. -/
theorem Trail.Valid.count_var (ht : t.Valid) {v : Nat} (hv : v < t.values.size) :
    (t.lits.toList.map Lit.var).count v = if t.values[v]? = some .free then 0 else 1 := by
  have hfree := ht.free_var_iff hv
  split
  · next hnone =>
    rw [List.count_eq_zero, List.mem_map]
    rintro ⟨l, hl, rfl⟩
    exact hfree.1 hnone l (Array.mem_toList_iff.1 hl) rfl
  · next hsome =>
    apply List.count_eq_one_of_mem ht.distinct
    rw [hfree] at hsome
    push Not at hsome
    obtain ⟨l, hl, hvar⟩ := hsome
    exact List.mem_map.2 ⟨l, Array.mem_toList_iff.2 hl, hvar⟩

/-- The literals of a reason after the first became false before its first literal became true. -/
theorem Shaped.reason_place {cs : Array Clause} (h : Shaped t cs) {i : Nat} {p : Lit} (hi : t.lits[i]? = some p)
    (hr : t.reasonOf p.var = some id) :
    ∃ c, Live cs id c ∧ c.lits[0]? = some p ∧ ∀ (k : Nat) (q : Lit), 0 < k → c.lits[k]? = some q →
      t.valueOf q = .fails ∧ ∃ j < i, t.lits[j]? = some q.neg := by
  obtain ⟨c, hc, hfirst, hrest⟩ := h.reason i p id hi hr
  refine ⟨c, hc, hfirst, fun k q hk hq => ?_⟩
  have hne : q ≠ p := by
    rintro rfl
    rw [← Array.getElem?_toList] at hq hfirst
    have hzero : k = 0 := (List.getElem?_inj (List.getElem?_eq_some_iff.1 hq).1 (h.nodup id c hc)).1 (hq.trans hfirst.symm)
    omega
  obtain ⟨j, hj, hjq⟩ := hrest q (Array.mem_of_getElem? hq) hne
  exact ⟨h.trail.fails_iff.2 (Array.mem_of_getElem? hjq), j, hj, hjq⟩

namespace Solver

variable {s s' : Solver}

/-- A call on `s` has just propagated, has found no conflict, and has come to a solver that is still in order. A clause
is propagated when a single one of its literals is left, and a search propagates at each of its steps. -/
inductive Pauses (s : Solver) : Call → Solver → Prop
  | unit {lits : List Lit} {l : Lit} {s₁ : Solver} {b board : Board} (hok : s.ok = true)
      (hvars : ({ s with numAdded := s.numAdded + 1 } : Solver).ensureVars (Lit.span lits) = .ok s₁)
      (htaut : hasComplement (lits.mergeSort (fun l m => l.code ≤ m.code)).eraseReps = false)
      (hrest : remaining s₁.board.trail (lits.mergeSort (fun l m => l.code ≤ m.code)).eraseReps = .ok (some [l]))
      (hassign : s₁.board.assign l none = .ok b) (hpropagate : b.propagate = .ok (none, board)) :
      Pauses s (.addClause lits) { s₁ with board }
  | search {A : List Lit} {restarts found : Nat} {s₁ : Solver} {board : Board} (h : Searches A s restarts found s₁)
      (hpropagate : s₁.board.propagate = .ok (none, board)) : Pauses s (.solve A) { s₁ with board }

/-- What holds of a solver once propagation is complete. -/
structure Complete (s : Solver) : Prop where
  clause : ∀ id c, Live s.board.store.clauses id c → (∃ l ∈ c.lits, s.board.trail.valueOf l = .holds) ∨
    2 ≤ c.lits.toList.countP (s.board.trail.valueOf · = .free)
  once : ∀ v < s.numVars,
    (s.board.trail.lits.toList.map Lit.var).count v = if s.board.trail.values[v]? = some .free then 0 else 1
  holds : ∀ l ∈ s.board.trail.lits, s.board.trail.valueOf l = .holds
  level : ∀ (i : Nat) (l : Lit), s.board.trail.lits[i]? = some l →
    s.board.trail.levelOf l.var = s.board.trail.marks.toList.countP (· ≤ i)
  head : s.board.trail.head = s.board.trail.lits.size
  reason : ∀ (i : Nat) (p : Lit) (id : Nat), s.board.trail.lits[i]? = some p → s.board.trail.reasonOf p.var = some id →
    ∃ c, Live s.board.store.clauses id c ∧ c.lits[0]? = some p ∧ ∀ (k : Nat) (q : Lit), 0 < k → c.lits[k]? = some q →
      s.board.trail.valueOf q = .fails ∧ ∃ j < i, s.board.trail.lits[j]? = some q.neg
  free : ∀ v : Nat, s.board.trail.values[v]? = some .free → v ∈ s.order.heap.keys
  unmarked : ∀ v : Nat, s.marks[v]? ≠ some true

theorem complete_of_settled (hv : s.board.Valid Φ) (ht : s.Tables) (hhead : s.board.trail.head = s.board.trail.lits.size)
    (hs : Settled s.board.trail s.board.store.clauses s.board.trail.lits.size) : s.Complete where
  clause _ _ hc := hs.holds_or_free hv.shaped hc
  once _ hv' := hv.shaped.trail.count_var hv'
  holds l hl := (hv.shaped.trail.holds_iff l).2 hl
  level := hv.shaped.trail.level_eq
  head := hhead
  reason _ _ _ hi hr := hv.shaped.reason_place hi hr
  free := ht.free
  unmarked := ht.clear

theorem Searching.of_poll (h : Searching Φ A s) (hpoll : s.poll = (false, s')) : Searching Φ A s' := by
  have heq : s.poll.2 = s' := congrArg Prod.snd hpoll
  exact heq ▸ h.same same_poll

/-- All that holds during a search holds before each of its steps. -/
theorem Searches.searching {restarts found : Nat} (hidle : Idle Φ s) (h : Searches A s restarts found s') :
    Searching Φ A s' := by
  induction h with
  | @start s₁ s₂ hok hvars hpoll =>
    have h₀ : Idle Φ { s with model := #[] } := hidle.same ⟨rfl, rfl, rfl, rfl, rfl, rfl⟩
    obtain ⟨h₁, hwide, hspan⟩ := h₀.ensureVars_gives.apply hvars
    have hA : ∀ p ∈ A, p.var < s₁.board.trail.values.size := fun p hp =>
      hspan ▸ Nat.lt_of_lt_of_le (Lit.lt_span hp) (Nat.le_max_right ..)
    have hsearch : Searching Φ A { s₁ with limit := .start s₁.options s₁.board.store.given.size } :=
      (h₁.searching (hwide.ok.trans hok) hA).same ⟨rfl, rfl, rfl, rfl, rfl, rfl⟩
    exact hsearch.of_poll hpoll
  | @step restarts found found' allowance s₁ s₂ _ _ hstep ih =>
    have hstepped : Yields s₁.Overfull (s₁.step allowance A found) fun r => Stepped Φ A s₁ r.1 r.2.2 :=
      ih.step_yields
    rw [hstep] at hstepped
    exact hstepped.2.1
  | @restart restarts found found' allowance s₁ s₂ s₃ _ _ hstep hpoll ih =>
    have hstepped : Yields s₁.Overfull (s₁.step allowance A found) fun r => Stepped Φ A s₁ r.1 r.2.2 :=
      ih.step_yields
    rw [hstep] at hstepped
    have hsearch : Searching Φ A { s₂ with restarts := s₂.restarts + 1 } :=
      Searching.same hstepped.2 ⟨rfl, rfl, rfl, rfl, rfl, rfl⟩
    exact hsearch.of_poll hpoll

/-- What is complete whenever a call pauses. -/
theorem Pauses.complete {call : Call} (hidle : Idle Φ s) (h : Pauses s call s') : s'.Complete := by
  cases h with
  | @unit lits l s₁ b board hok hvars htaut hrest hassign hpropagate =>
    have h₀ : Idle Φ { s with numAdded := s.numAdded + 1 } := hidle.same ⟨rfl, rfl, rfl, rfl, rfl, rfl⟩
    obtain ⟨h₁, hwide, hspan⟩ := h₀.ensureVars_gives.apply hvars
    have hok₁ : s₁.ok = true := hwide.ok.trans hok
    have hv := h₁.valid hok₁
    have hk : ∀ l ∈ lits, l.var < s₁.board.trail.values.size := fun l hl =>
      hspan ▸ Nat.lt_of_lt_of_le (Lit.lt_span hl) (Nat.le_max_right ..)
    have hmem : ∀ l, l ∈ (lits.mergeSort (fun l m => l.code ≤ m.code)).eraseReps ↔ l ∈ lits := fun l => by
      rw [eraseReps_mergeSort, List.mem_dedup, List.mem_mergeSort]
    have hremains : Remains s₁.board.trail (lits.mergeSort (fun l m => l.code ≤ m.code)).eraseReps [l] :=
      (remaining_gives hv.shaped.trail fun l hl => hk l ((hmem l).1 hl)).apply hrest
    have hl : l ∈ lits := (hmem l).1 (hremains.sublist.subset List.mem_cons_self)
    have hfree := hremains.free l List.mem_cons_self
    rw [Board.assign_eq (hk l hl) hfree, Except.ok.injEq] at hassign
    rw [← hassign] at hpropagate
    have hent := hremains.entailed hv h₁.root fun l hl => (hmem l).2 hl
    obtain ⟨⟨-, hvb, hhead, hend⟩, htables⟩ := (h₁.propagateUnit_gives hok₁ hk hl hfree hent).apply hpropagate
    exact complete_of_settled hvb htables hhead hend
  | @search A restarts found s₁ board h hpropagate =>
    have hsearch := h.searching hidle
    obtain ⟨hg, hv, hhead, hend⟩ := (propagate_gives hsearch.valid hsearch.settled).apply hpropagate
    exact complete_of_settled hv (hsearch.grown_tables hg hv) hhead hend

/-- In every run of calls, propagation is complete whenever it has found no conflict, no level is opened above
literals that wait to be propagated, and between calls no level is open. -/
theorem propagation_complete_during_calls (o : Options) (calls : List Call) :
    Yields (Strained o) (calls.foldlM after (new o)) fun s => s.board.trail.depth = 0 ∧
      (∀ call s', Pauses s call s' → s'.Complete) ∧
      ∀ A restarts found s', Searches A s restarts found s' → ∀ m ∈ s'.board.trail.marks, m ≤ s'.board.trail.head := by
  refine ((idle_new o).run_yields calls).imp fun s hs => ⟨hs.1.root, ?_, ?_⟩
  · intro call s' hpause
    exact hpause.complete hs.1
  · intro A restarts found s' hsearch
    exact (hsearch.searching hs.1).valid.shaped.trail.marks_le

end Solver

end Countermodels.Sat
