import Countermodels.Proofs.Sat.Moments

/-! What is learnt from a conflict above the root. The walk back to the first unique implication point does not
depend on how far the clause is shrunk afterwards, so each way of shrinking keeps some of the same literals, and what
it keeps is still implied and still asserts its first literal. -/

namespace Countermodels.Sat.Solver

variable {Φ : List (List Lit)} {A : List Lit} {s s' : Solver} {id : Nat}

/-- A search under the assumptions `A` that started from `s` has just propagated and found the clause `id` false, with
some level open. -/
inductive Clashes (A : List Lit) (s : Solver) (id : Nat) : Solver → Prop
  | above {restarts found : Nat} {s₁ : Solver} {board : Board} (h : Searches A s restarts found s₁)
      (hpropagate : s₁.board.propagate = .ok (some id, board)) (hdepth : 0 < board.trail.depth) :
      Clashes A s id { s₁ with board, conflicts := s₁.conflicts + 1 }

/-- The solver with another way to shrink learnt clauses. -/
def minimizing (s : Solver) (mode : Minimization) : Solver :=
  { s with options := { s.options with minimization := mode } }

/-- A clause that a board teaches, with the level to go back to and the solver that goes back. -/
structure Lesson (b : Board) (r : Learnt × Solver) : Prop where
  follows : ∀ σ, (∀ id c, Live b.store.clauses id c → Lit.anyHolds c.lits.toList σ = true) →
    (∀ l ∈ b.trail.lits, b.trail.levelOf l.var = 0 → l.holds σ = true) → Lit.anyHolds r.1.lits.toList σ = true
  distinct : (r.1.lits.toList.map Lit.var).Nodup
  fails : ∀ q ∈ r.1.lits, b.trail.valueOf q = .fails
  above : ∀ q ∈ r.1.lits, 0 < b.trail.levelOf q.var
  nonempty : 0 < r.1.lits.size
  first : ∀ (i : Nat) (q : Lit), r.1.lits[i]? = some q → (b.trail.levelOf q.var = b.trail.depth ↔ i = 0)
  level_lt : r.1.level < b.trail.depth
  unit : r.1.lits.size = 1 → r.1.level = 0
  highest : ∀ (i : Nat) (q : Lit), 0 < i → r.1.lits[i]? = some q → b.trail.levelOf q.var ≤ r.1.level
  second : ∀ q, r.1.lits[1]? = some q → b.trail.levelOf q.var = r.1.level
  undone : Gives (r.2.backtrack r.1.level) fun s' => ∀ (i : Nat) (q : Lit), r.1.lits[i]? = some q →
    s'.board.trail.valueOf q = if i = 0 then .free else .fails

/-- Once the levels above its own are undone, a learnt clause has its first literal free and all others false. -/
theorem Rated.undone {r : Learnt} (hrated : s.Rated s') (hv : s.board.Valid Φ) (ht : s.Tables)
    (h : Asserting Φ s.board.trail r) :
    Gives (s'.backtrack r.level) fun s'' => ∀ (i : Nat) (q : Lit), r.lits[i]? = some q →
      s''.board.trail.valueOf q = if i = 0 then .free else .fails := by
  obtain ⟨start, hcut⟩ : ∃ start, s.board.trail.marks[r.level]? = some start :=
    ⟨_, Array.getElem?_eq_getElem h.level_lt⟩
  obtain ⟨u, hforce⟩ := h.forcing hv.shaped.trail hcut
  rw [← hrated.trail] at hcut hforce
  refine (backtrack_gives (hrated.valid hv) (hrated.tables ht) hcut).imp fun s'' hs i q hq => ?_
  rw [← hs.trail] at hforce
  split
  · next h0 =>
    rw [h0] at hq
    obtain rfl := Option.some.inj (hforce.first.symm.trans hq)
    exact hforce.free
  · next h0 =>
    have hne : q ≠ u := by
      rintro rfl
      have hplaces := hforce.first.trans hq.symm
      rw [← Array.getElem?_toList, ← Array.getElem?_toList] at hplaces
      exact h0 ((List.getElem?_inj (by simpa using hforce.size_pos) hforce.nodup).1 hplaces).symm
    exact hs.valid.shaped.trail.fails_iff.2 (hforce.others q (Array.mem_of_getElem? hq) hne)

theorem Rated.lesson {r : Learnt} (hrated : s.Rated s') (hv : s.board.Valid Φ) (ht : s.Tables)
    (h : Asserting Φ s.board.trail r) : Lesson s.board (r, s') := by
  obtain ⟨u, hu, hul⟩ := h.first
  have hlt := h.level_lt
  have hlevel : ∀ (i : Nat) (q : Lit), r.lits[i]? = some q →
      (s.board.trail.levelOf q.var = s.board.trail.depth ↔ i = 0) := fun i q hq => by
    constructor
    · intro hdeep
      by_contra h0
      have := (h.lower i q (Nat.pos_of_ne_zero h0) hq).2
      omega
    · rintro rfl
      rw [← Option.some.inj (hu.symm.trans hq), hul]
  refine ⟨fun σ hlive hroot => ?_, h.distinct, fun q hq => hv.shaped.trail.fails_iff.2 (h.fails q hq), fun q hq => ?_,
    (Array.getElem?_eq_some_iff.1 hu).1, hlevel, hlt, h.unit, fun i q hi hq => (h.lower i q hi hq).2, h.second,
    hrated.undone hv ht h⟩
  · exact h.entailed σ (hv.sound.complete σ hroot fun id c hc _ => hlive id c hc)
  · obtain ⟨i, hi⟩ := Array.mem_iff_getElem?.1 hq
    by_cases h0 : i = 0
    · have := (hlevel i q hi).2 h0
      omega
    · exact (h.lower i q (Nat.pos_of_ne_zero h0) hi).1

theorem Tables.minimizing (h : s.Tables) (mode : Minimization) : (s.minimizing mode).Tables :=
  ⟨h.phases, h.marks, h.clear, h.order, h.free, h.weighted, h.decay⟩

/-- However a clause is shrunk, it is one to learn from, and its literals are among those it would have if it were
not shrunk. -/
theorem lessons_of_conflict (hv : s.board.Valid Φ) (ht : s.Tables) (hd : 0 < s.board.trail.depth)
    (hc : Conflict s.board.trail s.board.store.clauses id) :
    ∃ learnt : Minimization → Learnt × Solver, ∀ mode, (s.minimizing mode).analyze id = .ok (learnt mode) ∧
      Lesson s.board (learnt mode) ∧ ∀ q ∈ (learnt mode).1.lits, q ∈ (learnt .none).1.lits := by
  obtain ⟨⟨p, a⟩, hcut, hwalked⟩ := cut_gives hv ht hd hc
  have hconclude : ∀ mode, Gives ((s.minimizing mode).conclude p a) fun r =>
      (Asserting Φ s.board.trail r.1 ∧ (s.minimizing mode).Rated r.2) ∧ ∃ kept, r.1.lits.toList.Perm (p.neg :: kept) ∧
        kept.Sublist a.lower.toList ∧ (mode = .none → kept = a.lower.toList) := fun mode =>
    (conclude_gives (s := s.minimizing mode) hv hd hwalked).imp fun r hr => ⟨⟨hr.1, hr.2.1⟩, hr.2.2⟩
  choose learnt hlearnt hlesson hkept using hconclude
  refine ⟨learnt, fun mode => ⟨?_, ?_, fun q hq => ?_⟩⟩
  · -- the walk does not read how clauses are shrunk
    have hcut : (s.minimizing mode).cut id = .ok (p, a) := hcut
    rw [analyze_eq, hcut, ok_bind]
    exact hlearnt mode
  · exact (hlesson mode).2.lesson hv (ht.minimizing mode) (hlesson mode).1
  · obtain ⟨kept, hperm, hsub, -⟩ := hkept mode
    obtain ⟨all, hpermAll, -, hall⟩ := hkept .none
    rw [← Array.mem_toList_iff, hperm.mem_iff] at hq
    rw [← Array.mem_toList_iff, hpermAll.mem_iff, hall rfl]
    exact List.cons_subset_cons _ hsub.subset hq

/-- In every run of calls, each conflict that a search meets above the root teaches a clause, however clauses are
shrunk. -/
theorem conflicts_teach_asserting_clauses (o : Options) (calls : List Call) :
    Yields (Strained o) (calls.foldlM after (new o)) fun s => ∀ A id s', Clashes A s id s' →
      ∃ learnt : Minimization → Learnt × Solver, ∀ mode, (s'.minimizing mode).analyze id = .ok (learnt mode) ∧
        Lesson s'.board (learnt mode) ∧ ∀ q ∈ (learnt mode).1.lits, q ∈ (learnt .none).1.lits := by
  refine ((idle_new o).run_yields calls).imp fun s hs A id s' hclash => ?_
  obtain @⟨restarts, found, s₁, board, h, hpropagate, hd⟩ := hclash
  have hsearch := h.searching hs.1
  obtain ⟨hg, hv, -, -, hc⟩ := (propagate_gives hsearch.valid hsearch.settled).apply hpropagate
  obtain ⟨h1, h2, h3, h4, h5, h6, h7⟩ := hsearch.grown_tables hg hv
  exact lessons_of_conflict hv ⟨h1, h2, h3, h4, h5, h6, h7⟩ hd hc

-- after one decision both clauses ask for different values of a variable, and the decision is learnt to be wrong
example : (do
    let s ← [Call.addClause [.positive 0, .positive 1], .addClause [.positive 0, (Lit.positive 1).neg]].foldlM after (new {})
    let s := (← s.step 100 [] 0).2.2
    let r ← s.board.propagate
    let learnt := (← ({ s with board := r.2 } : Solver).analyze 1).1
    return (r.1, r.2.trail.depth, learnt.lits, learnt.level)) = .ok (some 1, 1, #[.positive 0], 0) := by
  have hfirst : [Lit.positive 0, .positive 1].mergeSort (fun l m => l.code ≤ m.code) = [.positive 0, .positive 1] :=
    List.mergeSort_of_pairwise (by decide)
  have hsecond : [Lit.positive 0, (Lit.positive 1).neg].mergeSort (fun l m => l.code ≤ m.code) =
      [.positive 0, (Lit.positive 1).neg] := List.mergeSort_of_pairwise (by decide)
  simp only [List.foldlM, after, addClause, hfirst, hsecond]
  decide +kernel

end Countermodels.Sat.Solver
