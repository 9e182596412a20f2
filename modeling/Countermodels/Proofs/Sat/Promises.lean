import Countermodels.Proofs.Sat.Moments

/-! The promises that the parts of a solver make each other. A literal is assigned only while it is free; a false literal
is watched by the clauses that are visited for it; clauses that are watched have two literals; the analysis of a conflict
finds a reason wherever it asks for one, and counts neither places nor paths below zero; clauses are added and removed
at the root only, and nothing is searched after a refutation. A promise that is broken would be a fault, so all of this
is said by naming the faults that are left. Some tables are written without a look at their size. There the promise is
that the numbers which a solver keeps are in range. -/

namespace Countermodels.Sat.Solver

variable {Φ : List (List Lit)} {A : List Lit} {s s' : Solver}

/-- The tables of a solver about variables have an entry for each of them, and none but these wait in the order. -/
structure Tabled (s : Solver) : Prop where
  phases : s.phases.size = s.numVars
  marks : s.marks.size = s.numVars
  activity : s.order.activity.size = s.numVars
  queued : ∀ v ∈ s.order.heap.keys, v < s.numVars ∧ v < s.order.heap.places.size

/-- The variables, literals and clauses that a solver keeps the numbers of are there. -/
structure InRange (s : Solver) : Prop extends Tabled s where
  origins : s.board.trail.origins.size = s.numVars
  watchers : s.board.watchers.size = 2 * s.numVars
  trail : ∀ l ∈ s.board.trail.lits, l.var < s.numVars
  start : ∀ i ∈ s.board.trail.marks, i ≤ s.board.trail.lits.size
  head : s.board.trail.head ≤ s.board.trail.lits.size
  reason : ∀ l ∈ s.board.trail.lits, ∀ id, s.board.trail.reasonOf l.var = some id → id < s.board.store.clauses.size
  lits : ∀ (id : Nat) (c : Clause), s.board.store.clauses[id]? = some c → ∀ l ∈ c.lits, l.var < s.numVars
  watcher : ∀ l, ∀ w ∈ s.board.watchersOf l, w.clause < s.board.store.clauses.size ∧ w.blocker.var < s.numVars
  given : ∀ id ∈ s.board.store.given, id < s.board.store.clauses.size
  learnt : ∀ id ∈ s.board.store.learnts, id < s.board.store.clauses.size

theorem Tables.tabled (h : s.Tables) : s.Tabled where
  phases := h.phases
  marks := h.marks
  activity := h.order.size
  queued v hv := by
    obtain ⟨i, hi⟩ := Array.mem_iff_getElem?.1 hv
    exact ⟨h.order.fits.lt v hv, Heap.lt_places ((h.order.fits.place v i).2 hi)⟩

theorem inRange_of_valid (hv : s.board.Valid Φ) (ht : s.Tables) : s.InRange where
  toTabled := ht.tabled
  origins := hv.shaped.trail.origins_size
  watchers := hv.table_size
  trail l hl := hv.shaped.trail.known hl
  start i hi := Nat.le_trans (hv.shaped.trail.marks_le i hi) hv.shaped.trail.head_le
  head := hv.shaped.trail.head_le
  reason l hl id hid := by
    obtain ⟨i, hi⟩ := Array.mem_iff_getElem?.1 hl
    obtain ⟨c, hc, -⟩ := hv.shaped.reason i l id hi hid
    exact (Array.getElem?_eq_some_iff.1 hc.1).1
  lits id c hc l hl := by
    cases hdeleted : c.deleted with
    | true => simp [hv.listed.empty id c hc hdeleted] at hl
    | false => exact hv.shaped.known id c ⟨hc, hdeleted⟩ l hl
  watcher l w hw := ⟨hv.watched.clause_lt l w hw, hv.watched.blocker_lt l w hw⟩
  given := hv.listed.given_lt
  learnt id hid := by
    obtain ⟨c, hc, -⟩ := hv.listed.learnt id hid
    exact (Array.getElem?_eq_some_iff.1 hc).1

theorem Searching.inRange (h : Searching Φ A s) : s.InRange := inRange_of_valid h.valid h.tables

/-- Propagation keeps all numbers in range, also where it ends in a conflict. -/
theorem Searching.inRange_propagated (h : Searching Φ A s) :
    Gives s.board.propagate fun r => ({ s with board := r.2 } : Solver).InRange :=
  (propagate_gives h.valid h.settled).imp fun _ hr => inRange_of_valid hr.2.1 (h.grown_tables hr.1 hr.2.1)

/-- In every run of calls a solver keeps its promises. The only faults are numbers of the machine that leave their range
and, for a factor that is not a positive finite number, clauses that cannot be sorted. All that a solver keeps is in
range: between calls as long as nothing is refuted, before each step of a search, which is only begun if nothing is
refuted, and once the step has propagated. -/
theorem calls_keep_promises (o : Options) (calls : List Call) :
    Yields (Excused o) (calls.foldlM after (new o)) fun s => s.board.trail.depth = 0 ∧ s.Tabled ∧
      (s.ok = true → s.InRange) ∧ ∀ A restarts found s', Searches A s restarts found s' →
        s'.ok = true ∧ s'.InRange ∧ Gives s'.board.propagate fun r => ({ s' with board := r.2 } : Solver).InRange := by
  refine ((idle_new o).run_excused calls).imp fun s hs => ⟨hs.1.root, hs.1.tables.tabled, fun hok => ?_, ?_⟩
  · exact inRange_of_valid (hs.1.valid hok) hs.1.tables
  · intro A restarts found s' hsearches
    have hsearch := hsearches.searching hs.1
    exact ⟨hsearch.ok, hsearch.inRange, hsearch.inRange_propagated⟩

end Countermodels.Sat.Solver
