import Countermodels.Proofs.Number.Bound
import Countermodels.Proofs.Sat.Luby
import Countermodels.Proofs.Sat.Termination

/-! How long a search with the usual options can go on. Over few variables no round meets as many conflicts as the
longest is allowed, so a word of 32 bits counts the restarts; and since the cap on learnt clauses is raised after
intervals that grow, all these conflicts leave it far below the largest word. -/

namespace Countermodels.Sat

open Number

namespace LearntLimit

/-- The interval between two raises of the cap, after a number of raises. -/
def intervalAfter (r : Nat) : Float := (· * ({} : Options).adjustGrowth)^[r] ({} : Options).adjustFirst

/-- The conflict at which the cap was raised for the `r`th time. -/
def raisedAt : Nat → Nat
  | 0 => 0
  | r + 1 => raisedAt r + toWord (intervalAfter r)

theorem two_pow_le_raisedAt : 2 ^ 70 ≤ raisedAt 161 := by decide +kernel

theorem raisedAt_mono {q r : Nat} (h : q ≤ r) : raisedAt q ≤ raisedAt r := by
  induction h with
  | refl => exact Nat.le_refl _
  | step _ ih => exact Nat.le_trans ih (Nat.le_add_right ..)

/-! Bounds on the cap. -/

theorem atMost_learntGrowth : AtMost ({} : Options).learntGrowth (111 / 100) := by
  have h : ({} : Options).learntGrowth.toModel.unpack = .finite .positive 4953959590107546 (-52) (by decide) := rfl
  exact ⟨h ▸ ⟨rfl, by decide, by norm_num⟩⟩

theorem atMost_learntFactor : AtMost ({} : Options).learntFactor (1 / 2) := by
  have h : ({} : Options).learntFactor.toModel.unpack = .finite .positive 6004799503160661 (-54) (by decide) := rfl
  exact ⟨h ▸ ⟨rfl, by decide, by norm_num⟩⟩

theorem atMost_floor : AtMost floor 1000 := by
  have h : floor.toModel.unpack = .finite .positive 8796093022208000 (-43) (by decide) := rfl
  exact ⟨h ▸ ⟨rfl, by decide, by norm_num⟩⟩

/-- The cap before the first raise, if there are not too many clauses. -/
theorem atMost_start {clauses : Nat} (h : clauses ≤ 2 ^ 32) : AtMost (start {} clauses).cap (2 ^ 32) := by
  have hword : AtMost (ofWord clauses) (2 ^ 32 * (1 + 2 ^ (-51 : ℤ))) :=
    atMost_ofWord (by norm_num) (by exact_mod_cast h) (by norm_num)
  unfold start
  dsimp only
  split
  · exact (hword.mul atMost_learntFactor (by norm_num) (by norm_num)).mono (by norm_num)
  · exact atMost_floor.mono (by norm_num)

/-- Raising a cap makes it larger by an eighth at most. -/
theorem atMost_raise {cap : Float} {B : ℚ} (h : AtMost cap B) (hB : 1 ≤ B) (hlarge : B < 2 ^ 100) :
    AtMost (cap * ({} : Options).learntGrowth) (B * (9 / 8)) := by
  refine (h.mul atMost_learntGrowth (by linarith) ?_).mono ?_
  · refine lt_of_lt_of_le (b := 2 ^ 100 * (111 / 100) * (1 + 2 ^ (-51 : ℤ))) (by gcongr) (by norm_num)
  · rw [mul_assoc]
    gcongr
    norm_num

theorem growth_le {raises : Nat} (h : raises < 161) : ((9 : ℚ) / 8) ^ raises ≤ (9 / 8) ^ 160 :=
  pow_le_pow_right₀ (by norm_num) (by omega)

/-- A limit after some conflicts, of which some raised the cap. -/
structure Raised (conflicts raises : Nat) (limit : LearntLimit) : Prop where
  interval : limit.interval = intervalAfter raises
  reached : raisedAt raises ≤ conflicts
  next : raisedAt (raises + 1) ≤ conflicts + limit.countdown
  cap : raises < 161 → AtMost limit.cap (2 ^ 32 * (9 / 8) ^ raises)

theorem raised_start {clauses : Nat} (h : clauses ≤ 2 ^ 32) : Raised 0 0 (start {} clauses) :=
  ⟨rfl, Nat.le_refl _, Nat.le_refl _, fun _ => by simpa using atMost_start h⟩

theorem Raised.onConflict {conflicts raises : Nat} {limit : LearntLimit} (h : Raised conflicts raises limit) :
    ∃ raises', Raised (conflicts + 1) raises' (limit.onConflict {}).2 := by
  have hnext := h.next
  unfold LearntLimit.onConflict
  split
  · next hcount =>
    refine ⟨raises, h.interval, Nat.le_succ_of_le h.reached, ?_, h.cap⟩
    show raisedAt (raises + 1) ≤ conflicts + 1 + (limit.countdown - 1)
    omega
  · next hcount =>
    have hinterval : limit.interval * ({} : Options).adjustGrowth = intervalAfter (raises + 1) := by
      rw [h.interval, intervalAfter, intervalAfter, Function.iterate_succ_apply']
    have hreached : raisedAt (raises + 1) ≤ conflicts + 1 := by omega
    refine ⟨raises + 1, hinterval, hreached, ?_, fun hlt => ?_⟩
    · rw [raisedAt, ← hinterval]
      exact Nat.add_le_add_right hreached _
    · have hpow := growth_le (show raises < 161 by omega)
      rw [pow_succ (9 / 8 : ℚ) raises, ← mul_assoc]
      refine atMost_raise (h.cap (by omega)) (one_le_mul_of_one_le_of_one_le (by norm_num) (one_le_pow₀ (by norm_num))) ?_
      exact lt_of_le_of_lt (mul_le_mul_of_nonneg_left hpow (by norm_num)) (by norm_num)

/-- Fewer than `2 ^ 70` conflicts leave the cap far below the largest word. -/
theorem toWord_cap_after_lt {clauses k : Nat} (h : clauses ≤ 2 ^ 32) (hk : k < 2 ^ 70) :
    toWord ((start {} clauses).after {} k).cap < 2 ^ 63 := by
  have hraised : ∃ raises, Raised k raises ((start {} clauses).after {} k) := by
    clear hk
    induction k with
    | zero => exact ⟨0, raised_start h⟩
    | succ k ih =>
      obtain ⟨raises, hr⟩ := ih
      rw [after, Function.iterate_succ_apply']
      exact hr.onConflict
  obtain ⟨raises, hr⟩ := hraised
  have hfew : raises < 161 := by
    by_contra hmany
    have := raisedAt_mono (Nat.not_lt.1 hmany)
    have := hr.reached
    have := two_pow_le_raisedAt
    omega
  have hpow := growth_le hfew
  have hle := toWord_le (hr.cap hfew) (by positivity)
  have hlt : (toWord ((start {} clauses).after {} k).cap : ℚ) < (2 ^ 63 : Nat) :=
    lt_of_le_of_lt (hle.trans (mul_le_mul_of_nonneg_left hpow (by norm_num))) (by norm_num)
  exact_mod_cast hlt

end LearntLimit

namespace Solver

variable {Φ : List (List Lit)} {A : List Lit} {s s' : Solver}

theorem scales_clauseDecay : Scales ({} : Options).clauseDecay := ⟨rfl⟩

/-- On the course of a search, what is counted since the last restart stays below the progress of the trail, and what
was counted before is bounded with the number of restarts. -/
structure Toils (A : List Lit) (s : Solver) (restarts found : Nat) (s' : Solver) : Prop where
  options : s'.options = s.options
  vars : s'.numVars = max s.numVars (Lit.span A)
  found_le : found ≤ s'.board.trail.progress A.length
  limit : ∃ k ≤ restarts * 2 ^ (s'.numVars + A.length + 1) + found,
    s'.limit = (LearntLimit.start s.options s.board.store.given.size).after s.options k

theorem Toils.found_lt {restarts found : Nat} (h : Toils A s restarts found s') (hs : Searching Φ A s') :
    found < 2 ^ (s'.numVars + A.length + 1) :=
  Nat.lt_of_le_of_lt h.found_le (hs.valid.shaped.trail.progress_lt_pow hs.guided)

/-- A round over few variables meets far fewer conflicts than the last ones are allowed. -/
theorem Toils.pow_le {restarts found : Nat} (h : Toils A s restarts found s')
    (hsize : max s.numVars (Lit.span A) + A.length ≤ 36) : 2 ^ (s'.numVars + A.length + 1) ≤ 2 ^ 37 :=
  Nat.pow_le_pow_right Nat.two_pos (by rw [h.vars]; omega)

theorem Searches.toils {restarts found : Nat} (hidle : Idle Φ s) (h : Searches A s restarts found s') :
    Toils A s restarts found s' := by
  induction h with
  | @start s₁ s₂ hok hvars hpoll =>
    have h₀ : Idle Φ { s with model := #[] } := hidle.same ⟨rfl, rfl, rfl, rfl, rfl, rfl⟩
    obtain ⟨-, hwide, hspan⟩ := h₀.ensureVars_gives.apply hvars
    obtain rfl : _ = s₂ := congrArg Prod.snd hpoll
    refine ⟨hwide.options, hspan, Nat.zero_le _, 0, Nat.zero_le _, ?_⟩
    show LearntLimit.start s₁.options s₁.board.store.given.size = _
    rw [hwide.options, hwide.given]
    rfl
  | @step restarts found found' allowance s₁ s₂ hs _ hstep ih =>
    have hsearch := hs.searching hidle
    have hstepped : Yields s₁.Overfull (s₁.step allowance A found) fun r => Stepped Φ A s₁ r.1 r.2.2 :=
      hsearch.step_yields
    have hcounts : Yields (fun _ => True) (s₁.step allowance A found) _ := step_counts s₁ found
    rw [hstep] at hstepped hcounts
    obtain ⟨hc, h₂, hbefore⟩ := hstepped
    obtain ⟨j, hj, rfl, -, hcounted, -⟩ := hcounts
    have hcounted := hcounted rfl
    have hlt : s₁.board.trail.progress A.length < s₂.board.trail.progress A.length :=
      hbefore.progress_lt hsearch.valid.shaped.trail hsearch.guided h₂.valid.shaped.trail h₂.guided hc.vars
    have hvars : s₂.numVars = s₁.numVars := hc.vars
    have hfound := ih.found_le
    obtain ⟨k, hk, hlimit⟩ := ih.limit
    refine ⟨hcounted.options.trans ih.options, hvars.trans ih.vars, by omega, k + j, ?_, ?_⟩
    · rw [hvars]
      omega
    · rw [hcounted.limit, hlimit, ih.options, LearntLimit.after_add]
  | @restart restarts found found' allowance s₁ s₂ s₃ hs _ hstep hpoll ih =>
    have hsearch := hs.searching hidle
    have hstepped : Yields s₁.Overfull (s₁.step allowance A found) fun r => Stepped Φ A s₁ r.1 r.2.2 :=
      hsearch.step_yields
    have hcounts : Yields (fun _ => True) (s₁.step allowance A found) _ := step_counts s₁ found
    rw [hstep] at hstepped hcounts
    obtain ⟨-, -, -, -, -, hrestart⟩ := hcounts
    obtain ⟨-, hcounted⟩ := hrestart rfl
    obtain rfl : _ = s₃ := congrArg Prod.snd hpoll
    have hvars : s₂.numVars = s₁.numVars := hstepped.1.vars
    have hfound := ih.found_lt hsearch
    obtain ⟨k, hk, hlimit⟩ := ih.limit
    refine ⟨hcounted.options.trans ih.options, hvars.trans ih.vars, Nat.zero_le _, k, ?_, hcounted.limit.trans ?_⟩
    · show k ≤ (restarts + 1) * 2 ^ (s₂.numVars + A.length + 1) + 0
      rw [hvars, Nat.succ_mul]
      omega
    · exact hlimit

/-- The number of conflicts allowed before the last restart that can be counted. -/
theorem allowance_last : ({} : Options).allowance (Luby.wordLimit - 2) = .ok 214748364800 := by
  have hexponent : Luby.exponent ((Luby.wordLimit - 2) % Luby.wordLimit) = .ok 31 :=
    Luby.exponent_last (by decide) (by decide)
  rw [Options.allowance, if_pos rfl, Luby.entry, hexponent]
  decide +kernel

/-- Over few variables a search never makes the last restart that can be counted. -/
theorem Searches.restarts_lt {restarts found : Nat} (hidle : Idle Φ s) (ho : s.options = {})
    (hsize : max s.numVars (Lit.span A) + A.length ≤ 36) (h : Searches A s restarts found s') :
    restarts + 1 < Luby.wordLimit := by
  induction h with
  | start _ _ _ => decide
  | step _ _ _ ih => exact ih
  | @restart restarts found found' allowance s₁ s₂ s₃ hs hallowance hstep hpoll ih =>
    by_contra hlast
    have hcounts : Yields (fun _ => True) (s₁.step allowance A found) _ := step_counts s₁ found
    rw [hstep] at hcounts
    obtain ⟨-, -, -, -, -, hrestart⟩ := hcounts
    have htoils := hs.toils hidle
    obtain rfl : restarts = Luby.wordLimit - 2 := by omega
    rw [htoils.options, ho, allowance_last] at hallowance
    have hallowed := (hrestart rfl).1
    rw [← Except.ok.inj hallowance] at hallowed
    have hfound := htoils.found_lt (hs.searching hidle)
    have hpow := htoils.pow_le hsize
    omega

/-- A solver with the usual options is not overworked by a search over few variables. -/
theorem Idle.not_overworked (h : Idle Φ s) (ho : s.options = {})
    (hsize : max s.numVars (Lit.span A) + A.length ≤ 36) (hgiven : s.board.store.given.size ≤ 2 ^ 32) :
    ¬ s.Overworked A := by
  rintro ⟨restarts, found, s', hs, hend⟩
  have hfew := hs.restarts_lt h ho hsize
  have htoils := hs.toils h
  have hfound := htoils.found_lt (hs.searching h)
  have hvars := htoils.vars
  rcases hend with hmany | hfull
  · omega
  · obtain ⟨k, hk, hlimit⟩ := htoils.limit
    have hpow := htoils.pow_le hsize
    have hmul : restarts * 2 ^ (s'.numVars + A.length + 1) ≤ 2 ^ 32 * 2 ^ 37 :=
      Nat.mul_le_mul (Nat.le_of_lt (Nat.lt_of_succ_lt hfew)) hpow
    have hcap := LearntLimit.toWord_cap_after_lt (k := k) hgiven (by omega)
    rw [hlimit, ho] at hfull
    change 2 ^ 64 ≤ _ + s'.numVars at hfull
    omega

end Solver

end Countermodels.Sat
