import Countermodels.Proofs.Sat.Moments

/-! Every search ends. A round is a run of steps, each step raises the progress of the trail, and the progress stays
below a number that only the variables and the assumptions decide. A step meets one conflict at most, so conflicts are
bounded by the same number, whatever is allowed and whatever is forgotten. -/

namespace Countermodels.Sat.Solver

open Number

variable {Φ : List (List Lit)} {A : List Lit} {s s' s'' : Solver} {allowance : Nat}

/-! A round is a run of steps. -/

/-- Steps that are left are made from where the first ones stopped. -/
theorem steps_add (m n found : Nat) (s : Solver) :
    s.steps allowance A (m + n) found = s.steps allowance A m found >>= fun r => match r with
      | (none, found, s) => s.steps allowance A n found
      | ended => .ok ended := by
  induction m generalizing found s with
  | zero => rw [Nat.zero_add]; rfl
  | succ m ih =>
    rw [Nat.succ_add, steps, steps, bind_assoc]
    congr 1
    funext r
    obtain ⟨_ | e, found, s⟩ := r
    · exact ih found s
    · rfl

theorem roundWithin_eq (fuel found : Nat) (s : Solver) :
    s.roundWithin allowance A fuel found = s.steps allowance A (fuel * stride) found >>= fun r => match r with
      | (some e, _, s) => .ok (e, s)
      | (none, _, _) => .error .bound := by
  induction fuel generalizing found s with
  | zero => rw [Nat.zero_mul]; rfl
  | succ fuel ih =>
    rw [roundWithin, Nat.succ_mul, Nat.add_comm, steps_add, bind_assoc]
    congr 1
    funext r
    obtain ⟨_ | e, found, s⟩ := r
    · exact ih found s
    · rfl

/-! What is counted. -/

/-- On the way from one solver to the other `k` conflicts were counted. -/
structure Counted (s : Solver) (k : Nat) (s' : Solver) : Prop where
  options : s'.options = s.options
  conflicts : s'.conflicts = s.conflicts + k
  limit : s'.limit = s.limit.after s.options k

theorem Counted.refl (s : Solver) : s.Counted 0 s := ⟨rfl, rfl, rfl⟩

theorem Counted.trans {j k : Nat} (h : s.Counted j s') (h' : s'.Counted k s'') : s.Counted (j + k) s'' where
  options := h'.options.trans h.options
  conflicts := by rw [h'.conflicts, h.conflicts, Nat.add_assoc]
  limit := by rw [h'.limit, h.limit, h.options, LearntLimit.after_add]

theorem yields_any {α : Type} (x : Except Fault α) : Yields (fun _ => True) x fun _ => True := by
  cases x <;> trivial

theorem analyze_counts (s : Solver) (id : Nat) :
    Yields (fun _ => True) (s.analyze id) fun r => s.Counted 0 r.2 := by
  rw [analyze_eq]
  refine (yields_any _).bind fun r _ => ?_
  unfold conclude
  refine (yields_any _).bind fun _ _ => (yields_any _).bind fun _ _ => ?_
  exact .pure ⟨rfl, rfl, rfl⟩

theorem foldlM_release_counts (ls : List Lit) (s : Solver) :
    Yields (fun _ => True) (ls.foldlM release s) fun s' => s.Counted 0 s' := by
  induction ls generalizing s with
  | nil => exact .pure (.refl s)
  | cons l ls ih =>
    rw [List.foldlM_cons, release, bind_assoc]
    refine (yields_any _).bind fun _ _ => (ih _).imp fun s' hs' => ?_
    exact ⟨hs'.options, hs'.conflicts, hs'.limit⟩

theorem backtrack_counts (s : Solver) (level : Nat) :
    Yields (fun _ => True) (s.backtrack level) fun s' => s.Counted 0 s' := by
  unfold backtrack
  refine (yields_any _).bind fun r _ => (foldlM_release_counts _ _).imp fun s' hs' => ?_
  exact ⟨hs'.options, hs'.conflicts, hs'.limit⟩

/-- Learning tells the limit of the conflict, which has been counted before. -/
theorem learn_counts (s : Solver) (id : Nat) :
    Yields (fun _ => True) (({ s with conflicts := s.conflicts + 1 } : Solver).learn id) fun s' => s.Counted 1 s' := by
  unfold learn
  refine (analyze_counts _ id).bind fun r hr => (backtrack_counts _ _).bind fun s' hs' => ?_
  have h := hr.trans hs'
  refine (yields_any _).bind fun b _ => .pure ⟨h.options, h.conflicts, ?_⟩
  show (s'.limit.onConflict s'.options).2 = _
  rw [h.limit, h.options]
  rfl

theorem simplify_counts (s : Solver) : Yields (fun _ => True) s.simplify fun s' => s.Counted 0 s' := by
  unfold simplify
  dsimp only
  split
  · exact (yields_any _).bind fun _ _ => .pure ⟨rfl, rfl, rfl⟩
  · exact .pure (.refl s)

theorem reduce_counts (s : Solver) : Yields (fun _ => True) s.reduce fun s' => s.Counted 0 s' := by
  unfold reduce
  refine (yields_any _).bind fun _ _ => ?_
  split
  · exact (yields_any _).bind fun _ _ => .pure ⟨rfl, rfl, rfl⟩
  · exact .pure (.refl s)

theorem decide_counts (s : Solver) (l : Lit) : Yields (fun _ => True) (s.decide l) fun s' => s.Counted 0 s' :=
  (yields_any _).bind fun _ _ => .pure ⟨rfl, rfl, rfl⟩

/-- Branching after the budget was asked, or was not. -/
theorem pick_counts {expired : Bool} {s₁ : Solver} (h₁ : s.Counted 0 s₁) : Yields (fun _ => True) (do
    if expired then return (some RoundEnd.interrupted, s₁)
    let (picked, order) ← s₁.order.pick s₁.board.trail.values
    let s := { s₁ with order }
    match picked with
    | none => return (some .sat, s)
    | some v => return (none, ← s.decide (.ofVar v (← Table.read s.phases v))) : Except Fault (Option RoundEnd × Solver))
    fun r => r.1 ≠ some .restart ∧ s.Counted 0 r.2 := by
  split
  · exact .pure ⟨by simp, h₁⟩
  refine (yields_any _).bind fun r _ => ?_
  obtain ⟨_ | v, order⟩ := r
  · exact .pure ⟨by simp, h₁.options, h₁.conflicts, h₁.limit⟩
  · refine (yields_any _).bind fun _ _ => (decide_counts _ _).bind fun s₂ h₂ => .pure ⟨by simp, ?_⟩
    exact h₁.trans ⟨h₂.options, h₂.conflicts, h₂.limit⟩

theorem branch_counts (s : Solver) :
    Yields (fun _ => True) s.branch fun r => r.1 ≠ some .restart ∧ s.Counted 0 r.2 := by
  rw [branch]
  dsimp only
  split
  · exact pick_counts ⟨rfl, rfl, rfl⟩
  · exact pick_counts ⟨rfl, rfl, rfl⟩

/-- A step counts one conflict at most, and none when it restarts, which it does only after all that were allowed. -/
theorem step_counts (s : Solver) (found : Nat) :
    Yields (fun _ => True) (s.step allowance A found) fun r => ∃ k ≤ 1, r.2.1 = found + k ∧
      r.2.2.conflicts = s.conflicts + k ∧ (r.1 = none → s.Counted k r.2.2) ∧
      (r.1 = some .restart → allowance ≤ found ∧ s.Counted 0 r.2.2) := by
  unfold step
  refine (yields_any _).bind fun r _ => ?_
  obtain ⟨_ | id, b⟩ := r
  · dsimp only
    split
    · next hfound =>
      refine (backtrack_counts _ 0).bind fun s₁ h₁ => .pure ⟨0, by omega, rfl, h₁.conflicts, (fun h => by cases h), ?_⟩
      exact fun _ => ⟨hfound, h₁.options, h₁.conflicts, h₁.limit⟩
    refine (simplify_counts _).bind fun s₁ h₁ => (reduce_counts s₁).bind fun s₂ h₂ => ?_
    have h := h₁.trans h₂
    refine (yields_any _).bind fun r _ => ?_
    obtain ⟨guess, t⟩ := r
    cases guess with
    | refuted => exact .pure ⟨0, by omega, rfl, h.conflicts, (fun h => by cases h), fun h => by cases h⟩
    | assume p =>
      refine (decide_counts _ p).bind fun s₃ h₃ => .pure ?_
      have h' := h.trans ⟨h₃.options, h₃.conflicts, h₃.limit⟩
      exact ⟨0, by omega, rfl, h'.conflicts, fun _ => ⟨h'.options, h'.conflicts, h'.limit⟩, fun h => by cases h⟩
    | branch =>
      refine (branch_counts _).bind fun r hr => .pure ?_
      obtain ⟨hno, h₃⟩ := hr
      have h' := h.trans ⟨h₃.options, h₃.conflicts, h₃.limit⟩
      exact ⟨0, by omega, rfl, h'.conflicts, fun _ => ⟨h'.options, h'.conflicts, h'.limit⟩, fun h => (hno h).elim⟩
  · dsimp only
    split
    · exact .pure ⟨1, Nat.le_refl _, rfl, rfl, (fun h => by cases h), fun h => by cases h⟩
    refine (learn_counts { s with board := b } id).bind fun s₁ h₁ => .pure ?_
    refine ⟨1, Nat.le_refl _, rfl, h₁.conflicts, fun _ => ⟨h₁.options, h₁.conflicts, h₁.limit⟩, fun h => ?_⟩
    split at h <;> cases h

/-- So steps count no more conflicts than they are. -/
theorem steps_counts {n found found' : Nat} (h : s.steps allowance A n found = .ok (none, found', s')) :
    ∃ k ≤ n, found' = found + k ∧ s.Counted k s' := by
  induction n generalizing s found with
  | zero =>
    cases h
    exact ⟨0, Nat.le_refl _, rfl, .refl _⟩
  | succ n ih =>
    have hcounts : Yields (fun _ => True) (s.step allowance A found) _ := step_counts s found
    rw [steps] at h
    cases hstep : s.step allowance A found with
    | error e =>
      rw [hstep] at h
      cases h
    | ok r =>
      rw [hstep] at h hcounts
      obtain ⟨_ | e, found₁, s₁⟩ := r
      · obtain ⟨j, hj, rfl, -, hcounted, -⟩ := hcounts
        obtain ⟨k, hk, rfl, hcounted'⟩ := ih h
        exact ⟨j + k, by omega, Nat.add_assoc .., (hcounted rfl).trans hcounted'⟩
      · cases h

/-! The last step. -/

/-- Some step is the last one, before the progress of the trail has used up what is left of its bound. -/
theorem Searching.exists_last {d : Nat} (h : Searching Φ A s) (found : Nat)
    (hd : 2 ^ (s.numVars + A.length + 1) ≤ s.board.trail.progress A.length + d) :
    ∃ n < d, ∃ found' s', s.steps allowance A n found = .ok (none, found', s') ∧ s.Carried s' ∧
      Yields s'.Overfull (s'.step allowance A found') fun r => r.1 ≠ none := by
  induction d generalizing s found with
  | zero => exact absurd (h.valid.shaped.trail.progress_lt_pow h.guided) (Nat.not_lt.2 hd)
  | succ d ih =>
    have hstepped : Yields s.Overfull (s.step allowance A found) fun r => Stepped Φ A s r.1 r.2.2 := h.step_yields
    cases hstep : s.step allowance A found with
    | error e =>
      rw [hstep] at hstepped
      exact ⟨0, Nat.succ_pos d, found, s, rfl, .refl s, by rw [hstep]; exact hstepped⟩
    | ok r =>
      rw [hstep] at hstepped
      obtain ⟨_ | e, found₁, s₁⟩ := r
      · obtain ⟨hc, h₁, hbefore⟩ := hstepped
        have hlt := hbefore.progress_lt h.valid.shaped.trail h.guided h₁.valid.shaped.trail h₁.guided hc.vars
        have hvars : s₁.numVars = s.numVars := hc.vars
        obtain ⟨n, hn, found₂, s₂, hsteps, hcarried, hlast⟩ := ih h₁ found₁ (by rw [hvars]; omega)
        refine ⟨n + 1, Nat.succ_lt_succ hn, found₂, s₂, ?_, hc.trans hcarried, hlast⟩
        rw [steps, hstep]
        exact hsteps
      · exact ⟨0, Nat.succ_pos d, found, s, rfl, .refl s, by rw [hstep]; exact Option.some_ne_none e⟩

/-- How a round ends that makes `n` steps: it returns, or it breaks off when there are more learnt clauses than the
machine can count or sort. -/
inductive Ends (s : Solver) (allowance : Nat) (A : List Lit) (n : Nat) : Prop
  | returns {e : RoundEnd} {found : Nat} {s' : Solver} (hsteps : s.steps allowance A n 0 = .ok (some e, found, s'))
      (hround : s.round allowance A = .ok (e, s')) (hfound : found ≤ n)
      (hconflicts : s'.conflicts = s.conflicts + found)
  | breaks {f : Fault} {k : Nat} (hsteps : s.steps allowance A n 0 = .error f)
      (hround : s.round allowance A = .error f) (hk : k < n)
      (hfault : f = .order ∧ ¬ Scales s.options.clauseDecay ∨
        f = .overflow ∧ 1 <<< 64 ≤ toWord (s.limit.after s.options k).cap + s.numVars)

/-- A round makes as many steps as it takes to end. -/
theorem round_eq_of_steps {n : Nat} (allowance : Nat) (hok : s.ok = true) (hn : n ≤ roundBound s.numVars A.length) :
    s.round allowance A = s.steps allowance A n 0 >>= fun r => match r with
      | (some e, _, s') => .ok (e, s')
      | (none, found, s') => s'.steps allowance A (roundBound s.numVars A.length * stride - n) found >>= fun r =>
        match r with
          | (some e, _, s') => .ok (e, s')
          | (none, _, _) => .error .bound := by
  have hle : n ≤ roundBound s.numVars A.length * stride := Nat.le_trans hn (Nat.le_mul_of_pos_right _ (by decide))
  rw [round, if_pos hok, roundWithin_eq, ← Nat.add_sub_cancel' hle, steps_add, bind_assoc, Nat.add_sub_cancel_left]
  congr 1
  funext r
  obtain ⟨_ | e, found, s'⟩ := r
  · rfl
  · rfl

theorem Searching.ends (h : Searching Φ A s) (allowance : Nat) :
    ∃ n ≤ (s.numVars + 2) ^ (s.numVars + A.length + 1), s.Ends allowance A n := by
  obtain ⟨n, hn, found, s₁, hsteps, hcarried, hlast⟩ := h.exists_last 0 (Nat.le_add_left ..)
  have hn : n + 1 ≤ (s.numVars + 2) ^ (s.numVars + A.length + 1) :=
    Nat.le_trans hn (Nat.pow_le_pow_left (Nat.le_add_left ..) _)
  have hbound : n + 1 ≤ roundBound s.numVars A.length := Nat.le_trans hn (pow_le_roundBound ..)
  obtain ⟨k, hk, hfound, hcounted⟩ := steps_counts hsteps
  have hnext : s.steps allowance A (n + 1) 0 = s₁.step allowance A found >>= fun r => .ok r := by
    rw [steps_add, hsteps, ok_bind]
    show s₁.steps allowance A 1 found = _
    rw [steps]
    congr 1
    funext r
    obtain ⟨_ | e, found, s'⟩ := r
    · rfl
    · rfl
  have hround := round_eq_of_steps allowance h.ok hbound
  refine ⟨n + 1, hn, ?_⟩
  have hcounts : Yields (fun _ => True) (s₁.step allowance A found) _ := step_counts s₁ found
  cases hstep : s₁.step allowance A found with
  | error f =>
    rw [hstep] at hnext hlast
    rw [hnext] at hround
    refine .breaks hnext hround (Nat.lt_succ_of_le hk) ?_
    rcases hlast with ⟨rfl, hscales⟩ | ⟨rfl, hfull⟩
    · exact .inl ⟨rfl, hcarried.options ▸ hscales⟩
    · refine .inr ⟨rfl, ?_⟩
      rw [hcounted.limit, hcarried.vars] at hfull
      exact hfull
  | ok r =>
    rw [hstep] at hnext hlast hcounts
    rw [hnext] at hround
    obtain ⟨_ | e, found₁, s₂⟩ := r
    · exact absurd rfl hlast
    · obtain ⟨j, hj, rfl, hconflicts, -⟩ := hcounts
      refine .returns hnext hround (by omega) ?_
      rw [hconflicts, hcounted.conflicts]
      omega

/-- A solver between two calls, or one that a call has come to while no level is open. -/
inductive Rests (s : Solver) : Solver → Prop
  | between : Rests s s
  | within {A : List Lit} {restarts found : Nat} {s' : Solver} (h : Searches A s restarts found s')
      (hroot : s'.board.trail.depth = 0) : Rests s s'

theorem Rests.idle (h : s.Rests s') (hidle : Idle Φ s) : Idle Φ s' := by
  cases h with
  | between => exact hidle
  | within h hroot => exact (h.searching hidle).idle hroot

/-- In every run of calls, each search ends after a number of steps that the variables and the assumptions bound,
and with it the conflicts that it meets. -/
theorem searches_end_within_bound (o : Options) (calls : List Call) :
    Yields (Strained o) (calls.foldlM after (new o)) fun s => ∀ s', s.Rests s' → s'.ok = true →
      ∀ (budget : Budget) (allowance : Nat) (A : List Lit), (∀ p ∈ A, p.var < s'.numVars) →
        ∃ n ≤ (s'.numVars + 2) ^ (s'.numVars + A.length + 1), ({ s' with budget } : Solver).Ends allowance A n := by
  refine ((idle_new o).run_yields calls).imp fun s hs s' hrests hok budget allowance A hA => ?_
  have hsearch : Searching _ A { s' with budget } :=
    ((hrests.idle hs.1).searching hok hA).same ⟨rfl, rfl, rfl, rfl, rfl, rfl⟩
  exact hsearch.ends allowance

/-- A solver that may keep more learnt clauses than a word can count, after a clause that fixes a literal. -/
def lavish : Except Fault Solver :=
  [Call.addClause [.positive 0], .addClause [.positive 1, .positive 2]].foldlM after (new { learntFactor := 1e30 })

theorem eq_error_of_bind_pure {α β : Type} {x : Except Fault α} {f : α → β} {e : Fault}
    (h : (x >>= fun a => pure (f a)) = .error e) : x = .error e := by
  cases x with
  | ok a => cases h
  | error e' =>
    cases h
    rfl

/-- A search can break off before its first decision: the cap is the largest word, and the literal that is fixed is one
too many. -/
theorem huge_cap_breaks_search : ∃ s s', lavish = .ok s ∧ s.Rests s' ∧ s'.ok = true ∧
    s'.round 100 [] = .error .overflow := by
  have hone : [Lit.positive 0].mergeSort (fun l m => l.code ≤ m.code) = [.positive 0] := List.mergeSort_singleton _
  have htwo : [Lit.positive 1, .positive 2].mergeSort (fun l m => l.code ≤ m.code) = [.positive 1, .positive 2] :=
    List.mergeSort_of_pairwise (by decide)
  have hready : (do
      let s ← lavish
      return (s.ok, s.budget.answers s.budget.polls, s.board.trail.depth)) = .ok (true, false, 0) := by
    simp only [lavish, List.foldlM, after, addClause, hone, htwo]
    decide +kernel
  have hround : (do
      let s ← lavish
      let s := { s with model := #[], limit := LearntLimit.start s.options s.board.store.given.size }
      let r ← s.poll.2.round 100 []
      return r.1) = .error .overflow := by
    simp only [lavish, List.foldlM, after, addClause, hone, htwo]
    decide +kernel
  revert hready hround
  cases lavish with
  | error e =>
    intro hready
    cases hready
  | ok s =>
    intro hready hround
    obtain ⟨hok, hanswer, hroot⟩ : s.ok = true ∧ s.budget.answers s.budget.polls = false ∧ s.board.trail.depth = 0 := by
      simpa using Except.ok.inj hready
    have hvars : ({ s with model := #[] } : Solver).ensureVars (Lit.span []) = .ok { s with model := #[] } := by
      rw [ensureVars, show Lit.span [] = 0 from rfl, Nat.zero_sub]
      rfl
    exact ⟨s, _, rfl, .within (.start hok hvars (Prod.ext hanswer rfl)) hroot, hok, eq_error_of_bind_pure hround⟩

end Countermodels.Sat.Solver
