import Countermodels.Proofs.Cnf.Basis
import Countermodels.Proofs.Sat.Effort
import Countermodels.Sat.Enumerate

/-! Sessions. The solver of a session stands on the clauses that were written to it; a search either finds
values for all variables that make these clauses and the assumptions true, or finds that there are none, or
is ended by the budget. It breaks off only if it has become too long for the machine, as none over few variables
does. -/

open Countermodels.Sat

namespace Countermodels

/-- The assignment by which a literal is true just if the solver found so. -/
def Sat.Solver.assignment (solver : Solver) (v : Nat) : Bool := solver.value (.positive v) = .holds

/-- A literal is found true just if its variable has a value, and the value is the right one. -/
theorem Sat.Solver.holds_iff {solver : Solver} {l : Lit} : solver.value l = .holds ↔
    solver.value (.positive l.var) ≠ .free ∧ l.holds solver.assignment = true := by
  have hvalue : solver.value (.positive l.var) = (solver.model.getD l.var .free).flip false := by
    rw [Solver.value, Lit.var_positive, Lit.negated_positive]
  rw [Lit.holds, Solver.assignment, hvalue, Solver.value]
  cases solver.model.getD l.var .free <;> cases l.negated <;> simp [Value.flip]

/-- Two assignments differ on one of some literals. -/
def Differ (lits : List Lit) (σ τ : Nat → Bool) : Prop := ∃ l ∈ lits, l.holds σ ≠ l.holds τ

theorem Differ.symm {lits : List Lit} {σ τ : Nat → Bool} (h : Differ lits σ τ) : Differ lits τ σ := by
  obtain ⟨l, hl, hne⟩ := h
  exact ⟨l, hl, hne.symm⟩

/-- There are only so many assignments that differ from each other on some literals. -/
theorem length_le_of_differ {lits : List Lit} {σs : List (Nat → Bool)} (h : σs.Pairwise (Differ lits)) :
    σs.length ≤ 2 ^ lits.length := by
  have hnodup : (σs.map fun σ (i : Fin lits.length) => (lits.get i).holds σ).Nodup := by
    refine h.map _ fun σ τ hdiff heq => ?_
    obtain ⟨l, hl, hne⟩ := hdiff
    obtain ⟨i, rfl⟩ := List.get_of_mem hl
    exact hne (congrFun heq i)
  simpa using hnodup.length_le_card

namespace Session

variable {n : Nat} {b : Budget} {s : Session} {lits : List Lit}

/-- A clause of the session has a literal that is no word of 32 bits, so that no solver can take it. -/
def Unwritable (s : Session) : Prop := ∃ c ∈ s.clauses.toList, c.all Lit.isWord = false

/-- A solver that stands on the clauses of a session and knows `n` variables. -/
structure Standing (n : Nat) (b : Budget) (s : Session) (solver : Solver) : Prop where
  idle : Solver.Idle s.clauses.toList solver
  options : solver.options = {}
  budget : solver.budget = b
  vars : solver.board.trail.values.size = n
  given : solver.board.store.given.size ≤ s.clauses.size

/-- The session is in order, unless a clause could not be written. -/
def Stands (n : Nat) (b : Budget) (s : Session) : Prop :=
  Yields (fun f => f = .overflow ∧ s.Unwritable) s.solver (Standing n b s)

theorem stands_new : Stands 0 .unlimited {} :=
  ⟨Solver.idle_new {}, rfl, rfl, rfl, Nat.le_refl _⟩

theorem Stands.ensureVars (h : s.Stands n b) {k : Nat} (hk : n ≤ k) :
    Stands k b { s with solver := do (← s.solver).ensureVars k } := by
  refine Yields.bind h fun solver hs => .of_gives (hs.idle.ensureVars_gives.imp fun solver' h' => ?_)
  obtain ⟨hidle, hwide, hsize⟩ := h'
  refine ⟨hidle, hwide.options.trans hs.options, hwide.budget.trans hs.budget, ?_, hwide.given ▸ hs.given⟩
  rw [hsize, hs.vars]
  exact Nat.max_eq_right hk

theorem isWord_of_lt {l : Lit} (h : l.var < n) (hn : n < 2 ^ 31) : l.isWord = true := by
  rw [Lit.isWord, decide_eq_true_eq, Lit.toInt]
  split <;> omega

theorem unwritable_add (h : s.Unwritable) (lits : List Lit) : (s.add lits).Unwritable := by
  obtain ⟨c, hc, hwide⟩ := h
  exact ⟨c, by simp [Session.add, hc], hwide⟩

/-- A clause, whose variables become known if the clauses can still be satisfied. -/
theorem Stands.add_wide (h : s.Stands n b) (lits : List Lit) :
    ∃ n', n ≤ n' ∧ n' ≤ max n (Lit.span lits) ∧ (s.add lits).Stands n' b := by
  cases hsolver : s.solver with
  | error e =>
    rw [Stands, hsolver] at h
    refine ⟨n, Nat.le_refl n, Nat.le_max_left .., ?_⟩
    rw [Stands, Session.add, hsolver]
    exact h.imp_right fun h => unwritable_add h lits
  | ok solver =>
    rw [Stands, hsolver] at h
    have hs : Standing n b s solver := h
    by_cases hword : lits.all Lit.isWord = true
    · obtain ⟨r, hrun, hidle, -, hlarge⟩ := hs.idle.addClause_gives lits
      have hvars := hs.vars
      have hsize := hlarge.vars
      have hsize' := hlarge.vars_le
      refine ⟨r.2.board.trail.values.size, by omega, by omega, ?_⟩
      simp only [Stands, Session.add, hsolver, ok_bind, hword, if_true, hrun]
      refine ⟨?_, hlarge.options.trans hs.options, hlarge.budget.trans hs.budget, rfl, ?_⟩
      · simpa using hidle
      · exact Nat.le_trans hlarge.given (by simpa using hs.given)
    · refine ⟨n, Nat.le_refl n, Nat.le_max_left .., ?_⟩
      simp only [Stands, Session.add, hsolver, ok_bind, hword]
      exact ⟨rfl, lits, by simp, by simpa using hword⟩

/-- A clause over variables that are known. -/
theorem Stands.add (h : s.Stands n b) (hlits : ∀ l ∈ lits, l.var < n) : (s.add lits).Stands n b := by
  have hmax : max n (Lit.span lits) = n := Nat.max_eq_left (Lit.span_le hlits)
  obtain ⟨n', hle, hle', hstands⟩ := h.add_wide lits
  obtain rfl : n' = n := Nat.le_antisymm (hmax ▸ hle') hle
  exact hstands

theorem Stands.addAll {cs : List (List Lit)} (h : s.Stands n b) (hcs : ∀ c ∈ cs, ∀ l ∈ c, l.var < n) :
    (cs.foldl (fun s c => s.add c) s).Stands n b := by
  induction cs generalizing s with
  | nil => exact h
  | cons c cs ih =>
    rw [List.forall_mem_cons] at hcs
    exact ih (h.add hcs.1) hcs.2

theorem clauses_addAll (cs : List (List Lit)) (s : Session) :
    (cs.foldl (fun s c => s.add c) s).clauses.toList = s.clauses.toList ++ cs := by
  induction cs generalizing s with
  | nil => simp
  | cons c cs ih =>
    rw [List.foldl_cons, ih]
    simp [Session.add]

theorem assumptions_addAll (cs : List (List Lit)) (s : Session) :
    (cs.foldl (fun s c => s.add c) s).assumptions = s.assumptions := by
  induction cs generalizing s with
  | nil => rfl
  | cons c cs ih => exact ih (s.add c)

theorem load_eq (f : Cnf) : ({} : Session).load f = f.clauses.toList.foldl (fun s c => s.add c)
    { ({} : Session) with solver := do (← ({} : Session).solver).ensureVars f.numVars } := by
  have hall : f.clauses.extract 0 f.clauses.size = f.clauses := by simp
  unfold load
  dsimp only
  rw [show (#[] : Array (List Lit)).size = 0 from rfl, hall, Array.foldl_toList]

/-- A session that has taken over a formula. -/
theorem stands_load {f : Cnf} (hf : Basis.start.Fits f) :
    (({} : Session).load f).Stands f.numVars .unlimited := by
  rw [load_eq]
  exact (stands_new.ensureVars (Nat.zero_le _)).addAll fun c hc => hf.known c hc

theorem clauses_load (f : Cnf) : (({} : Session).load f).clauses.toList = f.clauses.toList := by
  rw [load_eq, clauses_addAll]
  rfl

theorem assumptions_load (f : Cnf) : (({} : Session).load f).assumptions = #[] := by
  rw [load_eq, assumptions_addAll]

theorem Stands.limit (h : s.Stands n b) (b' : Budget) : (s.limit b').Stands n b' :=
  Yields.bind h fun _ hs => .pure
    ⟨hs.idle.same ⟨rfl, rfl, rfl, rfl, rfl, rfl⟩, hs.options, rfl, hs.vars, hs.given⟩

/-- Assumptions do not matter before the next search. -/
theorem Stands.suppose (h : s.Stands n b) (A : Array Lit) : Stands n b { s with assumptions := A } :=
  Yields.imp h fun _ hs => ⟨hs.idle, hs.options, hs.budget, hs.vars, hs.given⟩

theorem Stands.assume (h : s.Stands n b) (l : Lit) : (s.assume l).Stands n b := h.suppose _

/-- The literals of the first `n` variables have the values of an assignment. -/
def Shows (s : Session) (n : Nat) (σ : Nat → Bool) : Prop := ∀ l : Lit, l.var < n → s.holds l = l.holds σ

/-- What an answer says of clauses and assumptions: there is a model, which the session shows; or there is
none; or the budget is used up. -/
def Tells (n : Nat) (b : Budget) (Φ : List (List Lit)) (A : List Lit) (s : Session) : Answer → Prop
  | .sat => ∃ σ, s.Shows n σ ∧ Models Φ σ ∧ ∀ l ∈ A, l.holds σ = true
  | .unsat => ∀ σ, Models Φ σ → ¬ ∀ l ∈ A, l.holds σ = true
  | .unknown => ∃ i, b.answers i = true

/-- What holds after a search. -/
structure Told (n : Nat) (b : Budget) (s : Session) (answer : Answer) (s' : Session) (b' : Budget) : Prop where
  stands : s'.Stands n b'
  live : ∃ solver, s'.solver = .ok solver
  clauses : s'.clauses = s.clauses
  assumptions : s'.assumptions = #[]
  answers : b'.answers = b.answers
  tells : Tells n b s.clauses.toList s.assumptions.toList s' answer

/-- All variables have values, and these make all clauses and all assumptions true. -/
structure Satisfies (s : Session) (Φ : List (List Lit)) (A : List Lit) : Prop where
  valued : ∀ v < s.numVars, s.value (.positive v) ≠ .free
  clauses : ∀ c ∈ Φ, ∃ l ∈ c, s.value l = .holds
  assumptions : ∀ l ∈ A, s.value l = .holds

/-- The search that comes next is too much for the machine: it overworks the solver, or there is no solver, since a
clause could not be written. -/
def Overworked (s : Session) : Prop :=
  s.Unwritable ∨ ∃ solver, s.solver = .ok solver ∧ solver.Overworked s.assumptions.toList

/-- The search that comes next breaks off with a fault, as the one of a session that is overworked can. -/
structure Breaks (s : Session) (f : Fault) : Prop where
  solve : s.solve = .error f
  overflow : f = .overflow
  overworked : s.Overworked

/-- What the answer of a solver says, as the session tells it. -/
theorem Standing.tells {solver solver' : Solver} {A : List Lit} {answer : Answer} (h : Standing n b s solver)
    (hright : Solver.Right s.clauses.toList A solver solver' answer) :
    Tells solver'.numVars b s.clauses.toList A { s with solver := .ok solver', assumptions := #[] } answer := by
  cases answer with
  | sat =>
    obtain ⟨hall, hclauses, hassumed⟩ := hright
    refine ⟨solver'.assignment, fun l hl => ?_, fun c hc => ?_, fun l hl => ?_⟩
    · have hfree := hall l.var hl
      show decide (solver'.value l = .holds) = _
      rw [Bool.eq_iff_iff, decide_eq_true_eq, Solver.holds_iff, and_iff_right hfree]
    · obtain ⟨l, hl, hvalue⟩ := hclauses c hc
      exact Lit.anyHolds_iff.2 ⟨l, hl, (Solver.holds_iff.1 hvalue).2⟩
    · exact (Solver.holds_iff.1 (hassumed l hl)).2
  | unsat => exact hright
  | unknown =>
    obtain ⟨i, -, -, hi⟩ := hright
    exact ⟨i, h.budget ▸ hi⟩

/-- A search, by which the variables of the assumptions become known. -/
theorem Stands.solve_wide (h : s.Stands n b) :
    Yields s.Breaks s.solve fun r => ∃ n' b', n ≤ n' ∧ n' ≤ max n (Lit.span s.assumptions.toList) ∧ Told n' b s r.1 r.2 b' ∧
      (r.1 = .sat → r.2.Satisfies s.clauses.toList s.assumptions.toList) := by
  suffices hrun : Yields (fun f => f = .overflow ∧ s.Overworked) s.solve _ from
    hrun.and_eq.mono fun f hf => ⟨hf.1, hf.2.1, hf.2.2⟩
  rw [Session.solve]
  cases hsolver : s.solver with
  | error f =>
    rw [Stands, hsolver] at h
    exact h.imp_right .inl
  | ok solver =>
    rw [Stands, hsolver] at h
    have hs : Standing n b s solver := h
    rw [ok_bind]
    refine ((hs.idle.solve_breaks s.assumptions.toList).mono fun f hf => ?_).bind fun r hr => .pure ?_
    · -- the factor of the usual options is a positive finite number, so activities can be compared
      rw [Solver.Breaks, hs.options] at hf
      obtain ⟨hover, hworn⟩ := hf.resolve_left fun h => h.2 Solver.scales_clauseDecay
      exact ⟨hover, .inr ⟨solver, hsolver, hworn⟩⟩
    · obtain ⟨answer, solver'⟩ := r
      obtain ⟨hidle, hsearched, hright⟩ := hr
      have hstanding : Standing solver'.board.trail.values.size solver'.budget
          { s with solver := .ok solver', assumptions := #[] } solver' :=
        ⟨hidle, hsearched.options.trans hs.options, rfl, rfl, Nat.le_trans hsearched.given hs.given⟩
      refine ⟨solver'.numVars, solver'.budget, hs.vars ▸ hsearched.vars, hs.vars ▸ hsearched.vars_le,
        ⟨hstanding, ⟨solver', rfl⟩, rfl, rfl, hs.budget ▸ hsearched.answers, hs.tells hright⟩, ?_⟩
      intro hsat
      dsimp only at hsat hright
      rw [hsat] at hright
      exact ⟨hright.1, hright.2.1, hright.2.2⟩

theorem Stands.solve (h : s.Stands n b) (hA : ∀ l ∈ s.assumptions.toList, l.var < n) :
    Yields s.Breaks s.solve fun r => ∃ b', Told n b s r.1 r.2 b' := by
  have hmax : max n (Lit.span s.assumptions.toList) = n := Nat.max_eq_left (Lit.span_le hA)
  refine h.solve_wide.imp fun r hr => ?_
  obtain ⟨n', b', hle, hle', htold, -⟩ := hr
  obtain rfl : n' = n := Nat.le_antisymm (hmax ▸ hle') hle
  exact ⟨b', htold⟩

/-- A session over few variables is not overworked. -/
theorem Stands.not_overworked (h : s.Stands n b) (hA : ∀ l ∈ s.assumptions.toList, l.var < n)
    (hclauses : ∀ c ∈ s.clauses.toList, ∀ l ∈ c, l.var < n) (hn : n + s.assumptions.size ≤ 36)
    (hsize : s.clauses.size ≤ 2 ^ 32) : ¬ s.Overworked := by
  rintro (⟨c, hc, hwide⟩ | ⟨solver, hsolver, hworn⟩)
  · have hword : c.all Lit.isWord = true := List.all_eq_true.2 fun l hl => isWord_of_lt (hclauses c hc l hl) (by omega)
    rw [hword] at hwide
    cases hwide
  · rw [Stands, hsolver] at h
    have hs : Standing n b s solver := h
    have hvars : solver.numVars = n := hs.vars
    refine hs.idle.not_overworked hs.options ?_ (Nat.le_trans hs.given hsize) hworn
    rw [hvars, Nat.max_eq_left (Lit.span_le hA), Array.length_toList]
    exact hn

/-- The clause that excludes a model is true where an essential literal has another value. -/
theorem anyHolds_refutation {σ τ : Nat → Bool} {essential : List Lit} (hs : s.Shows n σ)
    (hessential : ∀ l ∈ essential, l.var < n) :
    Lit.anyHolds (s.refutation essential) τ = true ↔ ∃ l ∈ essential, l.holds τ ≠ l.holds σ := by
  rw [Lit.anyHolds_iff, refutation]
  simp only [List.mem_map, exists_exists_and_eq_and]
  refine exists_congr fun l => and_congr_right fun hl => ?_
  rw [hs l (hessential l hl)]
  cases l.holds σ <;> cases hτ : l.holds τ <;> simp [hτ]

theorem refutation_known {essential : List Lit} (hessential : ∀ l ∈ essential, l.var < n) :
    ∀ l ∈ s.refutation essential, l.var < n := by
  refine List.forall_mem_map.2 fun l hl => ?_
  split
  · rw [Lit.var_neg]
    exact hessential l hl
  · exact hessential l hl

end Session

namespace Enumeration

variable {n : Nat} {b : Budget} {s : Session} {e : Enumeration} {lits : List Lit}

/-- What holds after a search for a further model, before which the clauses `new` were added: there is one, which
the session shows; or there is none; or the budget is used up. -/
structure Continued (n : Nat) (b : Budget) (s : Session) (e : Enumeration) (new : List (List Lit)) (more : Bool)
    (e' : Enumeration) (s' : Session) (b' : Budget) : Prop where
  stands : s'.Stands n b'
  live : ∃ solver, s'.solver = .ok solver
  clauses : s'.clauses.toList = s.clauses.toList ++ new
  assumptions : s'.assumptions = #[]
  answers : b'.answers = b.answers
  found : more = true → e' = e.resume s' ∧ ∃ σ, s'.Shows n σ ∧ Models (s.clauses.toList ++ new) σ ∧
    ∀ l ∈ e.assumptions, l.holds σ = true
  exhausted : more = false → ∃ answer, e'.stoppedBy = some answer ∧
    (answer = .unsat ∧ (∀ σ, Models (s.clauses.toList ++ new) σ → ¬ ∀ l ∈ e.assumptions, l.holds σ = true) ∨
      answer = .unknown ∧ ∃ i, b.answers i = true)

theorem assumeAll_eq (ls : List Lit) (s : Session) :
    ls.foldl (fun s l => s.assume l) s = { s with assumptions := s.assumptions ++ ls.toArray } := by
  induction ls generalizing s with
  | nil => simp
  | cons l ls ih =>
    rw [List.foldl_cons, ih]
    simp [Session.assume]

/-- The session as it is before a search, once the last model is excluded. -/
def excluding (e : Enumeration) (s : Session) : Session :=
  match e.excluded with
  | some lits => s.add lits
  | none => s

theorem clauses_excluding (e : Enumeration) (s : Session) :
    (e.excluding s).clauses.toList = s.clauses.toList ++ e.excluded.toList := by
  rw [excluding]
  cases e.excluded <;> simp [Session.add]

theorem assumptions_excluding (e : Enumeration) (s : Session) : (e.excluding s).assumptions = s.assumptions := by
  rw [excluding]
  cases e.excluded <;> rfl

/-- All variables of an enumeration are below this number. -/
def span (e : Enumeration) : Nat := max (Lit.span (e.excluded.getD [])) (Lit.span e.assumptions)

/-- The session of which an enumeration asks for the next model: the last one is excluded, and the assumptions are
made. -/
def query (e : Enumeration) (s : Session) : Session := e.assumptions.foldl (fun s l => s.assume l) (e.excluding s)

theorem query_eq (hnone : s.assumptions = #[]) :
    e.query s = { e.excluding s with assumptions := e.assumptions.toArray } := by
  rw [query, assumeAll_eq, assumptions_excluding, hnone, Array.empty_append]

theorem clauses_query (hnone : s.assumptions = #[]) :
    (e.query s).clauses.toList = s.clauses.toList ++ e.excluded.toList := by
  rw [query_eq hnone]
  exact clauses_excluding e s

theorem assumptions_query (hnone : s.assumptions = #[]) : (e.query s).assumptions.toList = e.assumptions := by
  rw [query_eq hnone]

theorem query_stands (hs : s.Stands n b) (hnone : s.assumptions = #[]) (e : Enumeration) :
    ∃ n', n ≤ n' ∧ n' ≤ max n e.span ∧ (e.query s).Stands n' b := by
  have hexcluding : ∃ n', n ≤ n' ∧ n' ≤ max n e.span ∧ (e.excluding s).Stands n' b := by
    rw [excluding]
    cases hex : e.excluded with
    | none => exact ⟨n, Nat.le_refl n, Nat.le_max_left .., hs⟩
    | some lits =>
      have hspan : Lit.span lits ≤ e.span := by
        rw [span, hex]
        exact Nat.le_max_left ..
      obtain ⟨n', hle, hle', hstands⟩ := hs.add_wide lits
      exact ⟨n', hle, by omega, hstands⟩
  obtain ⟨n', hle, hle', hstands⟩ := hexcluding
  refine ⟨n', hle, hle', ?_⟩
  rw [query_eq hnone]
  exact hstands.suppose _

theorem next_eq (hgo : e.stoppedBy = none) : e.next s = (e.query s).solve >>= fun r =>
    if r.1 = .sat then .ok (true, e.resume r.2, r.2)
    else .ok (false, { e with excluded := none, stoppedBy := some r.1 }, r.2) := by
  rw [next, if_neg (by rw [hgo]; decide)]
  rfl

/-- A search for a further model. -/
theorem next_wide (hs : s.Stands n b) (hnone : s.assumptions = #[]) (hgo : e.stoppedBy = none) :
    Yields (e.query s).Breaks (e.next s) fun r => ∃ n' b', n ≤ n' ∧ n' ≤ max n e.span ∧
      Continued n' b s e e.excluded.toList r.1 r.2.1 r.2.2 b' ∧
      (r.1 = true → r.2.2.Satisfies (s.clauses.toList ++ e.excluded.toList) e.assumptions) := by
  obtain ⟨n₁, hle₁, hle₁', hstands⟩ := query_stands hs hnone e
  have hspan : Lit.span e.assumptions ≤ e.span := Nat.le_max_right ..
  rw [next_eq hgo]
  refine hstands.solve_wide.bind fun r hr => ?_
  obtain ⟨answer, s'⟩ := r
  obtain ⟨n', b', hle, hle', ⟨hstands', hlive, hkept, hempty, hanswers, htells⟩, hsat⟩ := hr
  rw [assumptions_query hnone] at hle'
  rw [clauses_query hnone, assumptions_query hnone] at htells hsat
  have hwritten : s'.clauses.toList = s.clauses.toList ++ e.excluded.toList := by
    rw [hkept, clauses_query hnone]
  cases answer with
  | sat =>
    exact .pure ⟨n', b', by omega, by omega, ⟨hstands', hlive, hwritten, hempty, hanswers, fun _ => ⟨rfl, htells⟩,
      fun h => by cases h⟩, fun _ => hsat rfl⟩
  | unsat =>
    exact .pure ⟨n', b', by omega, by omega, ⟨hstands', hlive, hwritten, hempty, hanswers, (fun h => by cases h),
      fun _ => ⟨_, rfl, .inl ⟨rfl, htells⟩⟩⟩, fun h => by cases h⟩
  | unknown =>
    exact .pure ⟨n', b', by omega, by omega, ⟨hstands', hlive, hwritten, hempty, hanswers, (fun h => by cases h),
      fun _ => ⟨_, rfl, .inr ⟨rfl, htells⟩⟩⟩, fun h => by cases h⟩

theorem next_yields (hs : s.Stands n b) (hnone : s.assumptions = #[]) (hgo : e.stoppedBy = none)
    (hex : e.excluded = some lits) (hlits : ∀ l ∈ lits, l.var < n) (hassume : ∀ l ∈ e.assumptions, l.var < n) :
    Yields (e.query s).Breaks (e.next s) fun r => ∃ b', Continued n b s e [lits] r.1 r.2.1 r.2.2 b' := by
  have hmax : max n e.span = n := by
    have hspan := Lit.span_le hlits
    have hspan' := Lit.span_le hassume
    rw [span, hex, Option.getD_some]
    omega
  refine (next_wide hs hnone hgo).imp fun r hr => ?_
  obtain ⟨n', b', hle, hle', hcontinued, -⟩ := hr
  obtain rfl : n' = n := Nat.le_antisymm (hmax ▸ hle') hle
  rw [hex] at hcontinued
  exact ⟨b', hcontinued⟩

/-! Where an enumeration comes to. -/

/-- The state of an enumeration after a number of models, if each search so far has found one. -/
inductive Reaches (e : Enumeration) (s : Session) : Nat → Enumeration → Session → Prop
  | start : Reaches e s 0 e s
  | found {k : Nat} {e₁ : Enumeration} {s₁ s₂ : Session} (h : Reaches e s k e₁ s₁)
      (hsolve : (e₁.query s₁).solve = .ok (.sat, s₂)) : Reaches e s (k + 1) (e₁.resume s₂) s₂

theorem Reaches.next {k : Nat} {e₁ : Enumeration} {s₁ : Session} {r : Bool × Enumeration × Session}
    (h : e.Reaches s k e₁ s₁) (hgo : e₁.stoppedBy = none) (hnext : e₁.next s₁ = .ok r) (hfound : r.1 = true) :
    e.Reaches s (k + 1) r.2.1 r.2.2 := by
  rw [next_eq hgo] at hnext
  obtain ⟨⟨answer, s'⟩, hsolve, hrest⟩ := bind_eq_ok.1 hnext
  dsimp only at hrest
  split at hrest
  · next hsat =>
    rw [← Except.ok.inj hrest]
    exact h.found (hsat ▸ hsolve)
  · rw [← Except.ok.inj hrest] at hfound
    cases hfound

/-- An enumeration all variables of which are known. -/
structure Familiar (n : Nat) (e : Enumeration) (s : Session) : Prop where
  stands : ∃ b, s.Stands n b
  clear : s.assumptions = #[]
  written : ∀ c ∈ s.clauses.toList ++ e.excluded.toList, ∀ l ∈ c, l.var < n
  essential : ∀ l ∈ e.essential, l.var < n
  assumed : ∀ l ∈ e.assumptions, l.var < n

/-- When a model was found, no variables are needed to exclude it but those of the essential literals. -/
theorem familiar_resume (hs : s.Stands n b) (hclear : s.assumptions = #[])
    (hwritten : ∀ c ∈ s.clauses.toList, ∀ l ∈ c, l.var < n) (hessential : ∀ l ∈ e.essential, l.var < n)
    (hassumed : ∀ l ∈ e.assumptions, l.var < n) : (e.resume s).Familiar n s := by
  refine ⟨⟨b, hs⟩, hclear, fun c hc => ?_, hessential, hassumed⟩
  rw [resume, Option.toList_some, List.mem_append, List.mem_singleton] at hc
  rcases hc with hc | rfl
  · exact hwritten c hc
  · exact Session.refutation_known hessential

theorem Familiar.query_stands (h : e.Familiar n s) : ∃ b, (e.query s).Stands n b := by
  obtain ⟨b, hs⟩ := h.stands
  have hspan : e.span ≤ n := by
    refine Nat.max_le.2 ⟨?_, Lit.span_le h.assumed⟩
    cases hex : e.excluded with
    | none => exact Nat.zero_le n
    | some lits => exact Lit.span_le (h.written lits (by simp [hex]))
  obtain ⟨n', hle, hle', hstands⟩ := Enumeration.query_stands hs h.clear e
  obtain rfl : n' = n := by omega
  exact ⟨b, hstands⟩

theorem Reaches.familiar {k : Nat} {e' : Enumeration} {s' : Session} (hr : e.Reaches s k e' s') (h : e.Familiar n s) :
    e'.Familiar n s' ∧ e'.assumptions = e.assumptions ∧ s'.clauses.size ≤ s.clauses.size + k := by
  induction hr with
  | start => exact ⟨h, rfl, Nat.le_refl _⟩
  | @found k e₁ s₁ s₂ _ hsolve ih =>
    obtain ⟨h₁, hassumptions, hsize⟩ := ih
    obtain ⟨b, hstands⟩ := h₁.query_stands
    have htold := hstands.solve (by rw [assumptions_query h₁.clear]; exact h₁.assumed)
    rw [hsolve] at htold
    obtain ⟨b', hstands', -, hclauses, hclear, -⟩ := htold
    have hwritten : s₂.clauses.toList = s₁.clauses.toList ++ e₁.excluded.toList := by
      rw [hclauses, clauses_query h₁.clear]
    refine ⟨familiar_resume hstands' hclear (hwritten ▸ h₁.written) h₁.essential h₁.assumed, hassumptions, ?_⟩
    have hlen := congrArg List.length hwritten
    have hone : e₁.excluded.toList.length ≤ 1 := Option.length_toList_le
    simp only [List.length_append, Array.length_toList] at hlen
    omega

/-- No search of an enumeration over few variables is too much for the machine. -/
theorem Reaches.not_overworked {k : Nat} {e' : Enumeration} {s' : Session} (hr : e.Reaches s k e' s')
    (h : e.Familiar n s) (hn : n + e.assumptions.length ≤ 36) (hsize : s.clauses.size + k < 2 ^ 32) :
    ¬ (e'.query s').Overworked := by
  obtain ⟨h', hassumptions, hle⟩ := hr.familiar h
  obtain ⟨b, hstands⟩ := h'.query_stands
  have hclauses := clauses_query (e := e') h'.clear
  have hassumed := assumptions_query (e := e') h'.clear
  refine hstands.not_overworked (hassumed ▸ h'.assumed) (hclauses ▸ h'.written) ?_ ?_
  · rw [← Array.length_toList, hassumed, hassumptions]
    exact hn
  · have hone : e'.excluded.toList.length ≤ 1 := Option.length_toList_le
    rw [← Array.length_toList, hclauses, List.length_append, Array.length_toList]
    omega

end Enumeration

end Countermodels
