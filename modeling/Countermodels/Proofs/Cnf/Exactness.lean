import Countermodels.Proofs.Cnf.Order
import Countermodels.Proofs.Cnf.Supplies
import Countermodels.Proofs.Sat.Session

/-! Encodings by themselves. An encoding is judged by the clauses it adds, whatever stood before them: it allows the values
of the variables there are if these can be continued to its fresh variables so that the added clauses are true. Both ways
to say that at most one literal holds allow the same values, and the lexicographic order allows just the lists in order. -/

namespace Countermodels

/-- What stands at this moment, without a condition. -/
def Basis.here (f : Cnf) : Basis where
  numVars := f.numVars
  size := f.clauses.size
  holds _ := True
  local_holds _ _ := trivial

theorem Basis.sat_here {f g : Cnf} {σ : Nat → Bool} :
    (here f).Sat g σ ↔ Models (g.clauses.toList.drop f.clauses.size) σ := and_iff_right trivial

theorem Basis.drop_here (f : Cnf) : f.clauses.toList.drop f.clauses.size = [] := by
  rw [← Array.length_toList, List.drop_length]

theorem Basis.fits_here (f : Cnf) : (here f).Fits f where
  numVars_le := Nat.le_refl _
  size_le := Nat.le_refl _
  known := by simp [here, drop_here]

namespace Emit

/-- The clauses that a piece of writing adds to a formula. -/
def added {α : Type} (m : StateM Cnf α) (f : Cnf) : List (List Lit) := (m f).2.clauses.toList.drop f.clauses.size

/-- The values of the variables there are can be continued to the fresh ones so that all added clauses are true. -/
def Allows {α : Type} (m : StateM Cnf α) (f : Cnf) (σ : Nat → Bool) : Prop :=
  ∃ τ, Agree f.numVars σ τ ∧ Models (added m f) τ

end Emit

namespace Imposes

variable {m : StateM Cnf Unit} {C : (Nat → Bool) → Prop} {f : Cnf} {σ : Nat → Bool}

/-- What is imposed on the variables there are is what the added clauses allow. -/
theorem allows_iff (h : Imposes f.numVars m C) : Emit.Allows m f σ ↔ C σ := by
  have hr := h.restricts (.here f) f (Basis.fits_here f) (Nat.le_refl _)
  constructor
  · rintro ⟨τ, hστ, hτ⟩
    exact h.local_cond τ σ (fun v hv => (hστ v hv).symm) (hr.sound τ (Basis.sat_here.2 hτ))
  · intro hC
    have hσ : (Basis.here f).Sat f σ := Basis.sat_here.2 (by simp [Basis.drop_here, Models])
    obtain ⟨τ, hστ, hτ⟩ := hr.complete σ hσ hC
    exact ⟨τ, hστ, Basis.sat_here.1 hτ⟩

/-- Without fresh variables there is nothing to continue. -/
theorem models_iff (h : Imposes f.numVars m C) (hnum : (m f).2.numVars = f.numVars) :
    Models (Emit.added m f) σ ↔ C σ := by
  rw [← h.allows_iff]
  refine ⟨fun hσ => ⟨σ, .refl _ _, hσ⟩, ?_⟩
  rintro ⟨τ, hστ, hτ⟩
  have hknown := (h.restricts (.here f) f (Basis.fits_here f) (Nat.le_refl _)).fits.known
  rw [hnum] at hknown
  have hτσ : Agree f.numVars τ σ := fun v hv => (hστ v hv).symm
  exact hτσ.models hknown hτ

end Imposes

/-! Numbers of literals. -/

section counting

variable {σ : Nat → Bool} {lits : List Lit}

theorem atMostOne_iff_countP : AtMostOne σ lits ↔ lits.countP (·.holds σ) ≤ 1 := by
  induction lits with
  | nil => simp [AtMostOne]
  | cons l ls ih =>
    rw [atMostOne_cons, ih, List.forall_mem_map]
    cases hl : l.holds σ with
    | true =>
      rw [List.countP_cons, if_pos hl, Nat.succ_le_succ_iff, Nat.le_zero, List.countP_eq_zero]
      constructor
      · exact fun h m hm hmσ => by simp [h.1 m hm rfl] at hmσ
      · intro h
        refine ⟨fun m hm _ => by simpa using h m hm, ?_⟩
        rw [List.countP_eq_zero.2 h]
        exact Nat.zero_le 1
    | false => simp [hl]

theorem exactlyOne_iff_countP :
    ((∃ l ∈ lits, l.holds σ = true) ∧ AtMostOne σ lits) ↔ lits.countP (·.holds σ) = 1 := by
  rw [atMostOne_iff_countP, ← List.countP_pos_iff]
  omega

end counting

/-- Pairs are compared without fresh variables. -/
theorem Emit.numVars_atMostOnePairwise {lits : List Lit} {f : Cnf} (h : ∀ l ∈ lits, l.var < f.numVars) :
    (Emit.atMostOnePairwise lits f).2.numVars = f.numVars := by
  induction lits generalizing f with
  | nil => rfl
  | cons l ls ih =>
    rw [List.forall_mem_cons] at h
    have hrun : (ls.forM fun m => imply l m.neg) f = ((), f.addAll (ls.map fun m => [l.neg, m.neg])) := by
      have hall := run_implyAll f l (ls.map Lit.neg)
      rwa [implyAll, List.forM_eq_forM, List.forM_map, List.map_map] at hall
    have hnum : (f.addAll (ls.map fun m => [l.neg, m.neg])).numVars = f.numVars := by
      refine Cnf.numVars_addAll (List.forall_mem_map.2 fun m hm => ?_)
      simp [h.1, h.2 m hm]
    show (Emit.atMostOnePairwise ls ((ls.forM fun m => imply l m.neg) f).2).2.numVars = _
    rw [hrun, ih (by rw [hnum]; exact h.2), hnum]

/-! Choices that are read off a solver. -/

/-- Where exactly one member of a list has a property, it stands at one place. -/
theorem exists_place {α : Type} {xs : List α} {p : α → Bool} (hsome : ∃ x ∈ xs, p x = true)
    (hone : (xs.map p).Pairwise fun x y => x = true → y = false) :
    ∃ i : Nat, ∀ j, (∃ x, xs[j]? = some x ∧ p x = true) ↔ j = i := by
  obtain ⟨x, hx, hpx⟩ := hsome
  obtain ⟨i, hi⟩ := List.mem_iff_getElem?.1 hx
  refine ⟨i, fun j => ⟨?_, fun hj => ⟨x, hj.symm ▸ hi, hpx⟩⟩⟩
  rintro ⟨y, hy, hpy⟩
  obtain ⟨hilt, rfl⟩ := List.getElem?_eq_some_iff.1 hi
  obtain ⟨hjlt, rfl⟩ := List.getElem?_eq_some_iff.1 hy
  rw [List.pairwise_map, List.pairwise_iff_getElem] at hone
  rcases Nat.lt_trichotomy j i with h | h | h
  · exact absurd hpx (by simp [hone j i hjlt hilt h hpy])
  · exact h
  · exact absurd hpy (by simp [hone i j hilt hjlt h hpx])

namespace Session

/-- The values that a session found, where a variable without one counts as false. -/
def assignment (s : Session) (v : Nat) : Bool := s.holds (.positive v)

theorem holds_assignment {s : Session} {l : Lit} (h : s.holds l = true) : l.holds s.assignment = true := by
  cases hs : s.solver with
  | error e => simp [holds, value, hs] at h
  | ok solver =>
    have hsame : s.assignment = solver.assignment := by
      funext v
      simp [assignment, holds, value, hs, Sat.Solver.assignment]
    have hvalue : solver.value l = .holds := by simpa [holds, value, hs] using h
    rw [hsame]
    exact (Sat.Solver.holds_iff.1 hvalue).2

end Session

namespace Choice

variable {α : Type}

/-- Where exactly one literal of a choice holds, the value at its place is read off, also if the domain lists it twice. -/
theorem eval_of_one {c : Choice α} {holds : Lit → Bool} (hlen : c.lits.length = c.domain.length)
    (hsome : ∃ l ∈ c.lits, holds l = true) (hone : (c.lits.map holds).Pairwise fun x y => x = true → y = false) :
    ∃ (i : Nat) (a : α), c.domain[i]? = some a ∧ (∀ j, (∃ l, c.lits[j]? = some l ∧ holds l = true) ↔ j = i) ∧
      c.eval holds = .ok (some a) := by
  obtain ⟨i, hplace⟩ := exists_place hsome hone
  have hsnd : c.pairs.map Prod.snd = c.lits := List.map_snd_zip (Nat.le_of_eq hlen)
  have hsome' : ∃ p ∈ c.pairs, holds p.2 = true := by
    obtain ⟨l, hl, hlt⟩ := hsome
    rw [← hsnd, List.mem_map] at hl
    obtain ⟨p, hp, rfl⟩ := hl
    exact ⟨p, hp, hlt⟩
  rw [← hsnd, List.map_map] at hone
  obtain ⟨⟨a, l⟩, hfilter⟩ := filter_eq_singleton hsome' hone
  have hal : (a, l) ∈ c.pairs ∧ holds l = true := by
    have hmem : (a, l) ∈ c.pairs.filter fun p => holds p.2 := by
      rw [hfilter]
      exact List.mem_singleton_self _
    exact List.mem_filter.1 hmem
  obtain ⟨k, hk⟩ := List.mem_iff_getElem?.1 hal.1
  obtain ⟨hka, hkl⟩ := List.getElem?_zip_eq_some.1 hk
  obtain rfl : k = i := (hplace k).1 ⟨l, hkl, hal.2⟩
  exact ⟨k, a, hka, hplace, by rw [eval, hfilter]⟩

variable {domain : List α} {f : Cnf} {s : Session}

/-- A choice of one value: a literal for each, and then the clauses. -/
theorem run_one (domain : List α) (f : Cnf) : one domain f =
    (⟨domain, (List.range domain.length).map fun i => .positive (f.numVars + i)⟩,
      (Emit.exactlyOne ((List.range domain.length).map fun i => .positive (f.numVars + i)) (f.widen domain.length)).2) := by
  show ((⟨domain, (Emit.freshList domain.length f).1⟩ : Choice α), (Emit.exactlyOne (Emit.freshList domain.length f).1
    (Emit.freshList domain.length f).2).2) = _
  rw [Emit.run_freshList]

/-- A session that makes the clauses of a choice true gives it one value, and that is read off. -/
theorem eval_one (h : ∀ c ∈ Emit.added (one domain) f, ∃ l ∈ c, s.holds l = true) :
    ∃ (i : Nat) (a : α), domain[i]? = some a ∧
      (∀ j, (∃ l, (one domain f).1.lits[j]? = some l ∧ s.holds l = true) ↔ j = i) ∧
      (one domain f).1.eval s.holds = .ok (some a) := by
  rw [Emit.added, run_one] at h
  rw [run_one]
  set lits := (List.range domain.length).map fun i => Lit.positive (f.numVars + i) with hlits
  have hknown : ∀ l ∈ lits, l.var < (f.widen domain.length).numVars := by simp [hlits, Cnf.widen]
  have hsame : ∀ l ∈ lits, s.holds l = l.holds s.assignment := by simp [hlits, Session.assignment]
  have hallows : Emit.Allows (Emit.exactlyOne lits) (f.widen domain.length) s.assignment := by
    refine ⟨s.assignment, .refl _ _, fun c hc => ?_⟩
    obtain ⟨l, hl, hls⟩ := h c hc
    exact Lit.anyHolds_iff.2 ⟨l, hl, Session.holds_assignment hls⟩
  obtain ⟨⟨l, hl, hls⟩, hmost⟩ := (Imposes.exactlyOne hknown).allows_iff.1 hallows
  rw [AtMostOne, ← List.map_congr_left hsame] at hmost
  exact eval_of_one (c := ⟨domain, lits⟩) (by simp [hlits]) ⟨l, hl, (hsame l hl).trans hls⟩ hmost

end Choice

namespace Emit

variable {f : Cnf}

/-- At most one literal of a list is true, said by a chain of counters or pair by pair, and exactly one. A literal counts
at each place where it stands. A choice that is written so has one value in whatever model a solver finds. -/
theorem one_hot_encodings_are_exact {lits : List Lit} (hlits : ∀ l ∈ lits, l.var < f.numVars) (σ : Nat → Bool) :
    (Allows (atMostOneSequential lits) f σ ↔ lits.countP (·.holds σ) ≤ 1) ∧
    (Models (added (atMostOnePairwise lits) f) σ ↔ lits.countP (·.holds σ) ≤ 1) ∧
    (Allows (exactlyOne lits) f σ ↔ lits.countP (·.holds σ) = 1) ∧
    ∀ {α : Type} (domain : List α) (s : Session), (∀ c ∈ added (Choice.one domain) f, ∃ l ∈ c, s.holds l = true) →
      ∃ (i : Nat) (a : α), domain[i]? = some a ∧
        (∀ j, (∃ l, (Choice.one domain f).1.lits[j]? = some l ∧ s.holds l = true) ↔ j = i) ∧
        (Choice.one domain f).1.eval s.holds = .ok (some a) := by
  refine ⟨?_, ?_, ?_, fun domain s => Choice.eval_one⟩
  · rw [(Imposes.atMostOneSequential hlits).allows_iff, atMostOne_iff_countP]
  · rw [(Imposes.atMostOnePairwise hlits).models_iff (numVars_atMostOnePairwise hlits), atMostOne_iff_countP]
  · rw [(Imposes.exactlyOne hlits).allows_iff, exactlyOne_iff_countP]

/-- Two variables, and no clause yet. -/
def pair : Cnf := { numVars := 2 }

/-- A session that found the second value of a choice among two, on variables that follow those of `pair`. -/
def secondChosen : Session where
  solver := .ok { Sat.Solver.new {} with model := #[.holds, .fails, .fails, .holds] }

/-- A list with a literal twice and a literal beside its negation, long enough for the chain of counters. -/
def crowded : List Lit :=
  [.positive 0, .positive 1, (Lit.positive 0).neg] ++ List.replicate 6 (.positive 1)

theorem one_hot_encodings_are_exact_crowded :
    (∀ l ∈ crowded, l.var < pair.numVars) ∧
    Allows (exactlyOne crowded) pair (· == 0) ∧ ¬ Allows (atMostOneSequential crowded) pair (· == 1) ∧
    ¬ Models (added (atMostOnePairwise crowded) pair) (· == 1) ∧
    (∀ c ∈ added (Choice.one ["first", "second"]) pair, ∃ l ∈ c, secondChosen.holds l = true) ∧
    ∃ (i : Nat) (a : String), ["first", "second"][i]? = some a ∧
      (∀ j, (∃ l, (Choice.one ["first", "second"] pair).1.lits[j]? = some l ∧ secondChosen.holds l = true) ↔ j = i) ∧
      (Choice.one ["first", "second"] pair).1.eval secondChosen.holds = .ok (some a) := by
  have hknown : ∀ l ∈ crowded, l.var < pair.numVars := by decide
  have hfound : ∀ c ∈ added (Choice.one ["first", "second"]) pair, ∃ l ∈ c, secondChosen.holds l = true := by decide
  obtain ⟨-, -, hone, heval⟩ := one_hot_encodings_are_exact hknown (· == 0)
  obtain ⟨hchain, hpairs, -, -⟩ := one_hot_encodings_are_exact hknown (· == 1)
  refine ⟨hknown, hone.2 (by decide), ?_, ?_, hfound, heval _ _ hfound⟩
  · rw [hchain]
    decide
  · rw [hpairs]
    decide

/-- Two lists of literals of one length, compared as lists of truth values with false before true. A guard that is false
lifts the demand. -/
theorem lexicographic_clauses_are_exact {guard : Option Lit} {xs ys : List Lit} (hlen : xs.length = ys.length)
    (hguard : ∀ g ∈ guard, g.var < f.numVars) (hxs : ∀ x ∈ xs, x.var < f.numVars) (hys : ∀ y ∈ ys, y.var < f.numVars)
    (strict : Bool) (σ : Nat → Bool) :
    checkLengths xs ys = .ok () ∧
    (Allows (lexOrder guard xs ys strict) f σ ↔ (∃ g ∈ guard, g.holds σ = false) ∨
      if strict then xs.map (·.holds σ) < ys.map (·.holds σ) else xs.map (·.holds σ) ≤ ys.map (·.holds σ)) := by
  refine ⟨if_pos hlen, ?_⟩
  have hlen' : (xs.map (·.holds σ)).length = (ys.map (·.holds σ)).length := by simpa using hlen
  have hlifted : ¬ holdsOpt σ guard ↔ ∃ g ∈ guard, g.holds σ = false := by simp [holdsOpt]
  rw [(Imposes.lexOrder guard strict hlen hguard hxs hys).allows_iff, imp_iff_not_or, hlifted]
  cases strict with
  | false => rw [ordered_iff_le hlen', if_neg Bool.false_ne_true]
  | true => rw [ordered_iff_lt hlen', if_pos rfl]

/-- Two literals against themselves the other way round, one of them negated. -/
theorem lexicographic_clauses_are_exact_crossed :
    checkLengths [.positive 0, .positive 1] [.positive 1, (Lit.positive 0).neg] = .ok () ∧
    ¬ Allows (lexOrder none [.positive 0, .positive 1] [.positive 1, (Lit.positive 0).neg] true) pair (· == 0) ∧
    Allows (lexOrder (some (.positive 1)) [.positive 0, .positive 1] [.positive 1, (Lit.positive 0).neg] true) pair
      (· == 0) ∧
    Allows (lexOrder (some (.positive 1)) [.positive 0, .positive 1] [.positive 1, (Lit.positive 0).neg] true) pair
      (· == 1) := by
  have hlen : [Lit.positive 0, .positive 1].length = [Lit.positive 1, (Lit.positive 0).neg].length := rfl
  have hxs : ∀ l ∈ [Lit.positive 0, .positive 1], l.var < pair.numVars := by decide
  have hys : ∀ l ∈ [Lit.positive 1, (Lit.positive 0).neg], l.var < pair.numVars := by decide
  have hguard : ∀ l ∈ some (Lit.positive 1), l.var < pair.numVars := by decide
  have hnone : ∀ l ∈ (none : Option Lit), l.var < pair.numVars := by decide
  obtain ⟨hlength, hdemand⟩ := lexicographic_clauses_are_exact hlen hnone hxs hys true (· == 0)
  refine ⟨hlength, ?_, ?_, ?_⟩
  · rw [hdemand]
    decide
  · exact (lexicographic_clauses_are_exact hlen hguard hxs hys true (· == 0)).2.2 (by decide)
  · exact (lexicographic_clauses_are_exact hlen hguard hxs hys true (· == 1)).2.2 (by decide)

end Emit

end Countermodels
