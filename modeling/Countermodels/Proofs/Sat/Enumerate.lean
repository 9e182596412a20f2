import Countermodels.Proofs.Sat.Session

/-! Enumerations. Each search excludes the values that the essential literals had in the models before, so an
enumeration that is followed to its end has come by all values of these literals, and by each only once. -/

open Countermodels.Sat

namespace Countermodels

namespace Session

variable {n : Nat} {b : Budget} {s : Session} {l : Lit}

theorem value_of_neg (h : s.value l.neg = .holds) : s.value l = .fails := by
  rw [value] at h ⊢
  cases hsolver : s.solver with
  | error e => simp [hsolver] at h
  | ok solver =>
    simp only [hsolver, Solver.value, Lit.var_neg, Lit.negated_neg] at h ⊢
    revert h
    cases solver.model.getD l.var .free <;> cases l.negated <;> simp [Value.flip]

/-- A literal has the value that the assignment gives it. -/
theorem Shows.value_eq {σ : Nat → Bool} (h : s.Shows n σ) (hl : l.var < n) : s.value l = .ofBool (l.holds σ) := by
  have hpos := h l hl
  have hneg := h l.neg ((Lit.var_neg l).symm ▸ hl)
  cases hσ : l.holds σ with
  | true =>
    rw [hσ, holds, decide_eq_true_eq] at hpos
    rw [hpos]
    rfl
  | false =>
    rw [Lit.holds_neg, hσ, Bool.not_false, holds, decide_eq_true_eq] at hneg
    rw [value_of_neg hneg]
    rfl

theorem Satisfies.mono {Φ Ψ : List (List Lit)} {A : List Lit} (h : s.Satisfies Ψ A) (hle : Φ ⊆ Ψ) :
    s.Satisfies Φ A :=
  ⟨h.valued, fun c hc => h.clauses c (hle hc), h.assumptions⟩

/-- What can be done with a session. -/
inductive Call
  | fresh
  | add (lits : List Lit)
  | solve (assumptions : List Lit)

/-- The session after a call. -/
def after (s : Session) : Call → Except Fault Session
  | .fresh => .ok s.fresh.2
  | .add lits => .ok (s.add lits)
  | .solve assumptions => do return (← (assumptions.foldl (fun s l => s.assume l) s).solve).2

/-- Between two calls no assumption is pending, and no search is ever cut short. -/
structure Ready (s : Session) (n : Nat) (b : Budget) : Prop where
  stands : s.Stands n b
  calm : ∀ i, b.answers i = false
  clear : s.assumptions = #[]

theorem Stands.numVars_le (h : s.Stands n b) : s.numVars ≤ n := by
  rw [Stands] at h
  rw [numVars]
  cases hsolver : s.solver with
  | error e => exact Nat.zero_le n
  | ok solver =>
    rw [hsolver] at h
    have hs : Standing n b s solver := h
    exact Nat.le_of_eq hs.vars

theorem Stands.numVars_eq (h : s.Stands n b) (hw : ¬ s.Unwritable) : s.numVars = n := by
  rw [Stands] at h
  rw [numVars]
  cases hsolver : s.solver with
  | error f =>
    rw [hsolver] at h
    exact absurd h.2 hw
  | ok solver =>
    rw [hsolver] at h
    have hs : Standing n b s solver := h
    exact hs.vars

/-- A search from a session that is ready answers with yes or no. -/
theorem Ready.solve_yields (h : s.Ready n b) (A : List Lit) :
    Yields (A.foldl (fun s l => s.assume l) s).Breaks (A.foldl (fun s l => s.assume l) s).solve fun r =>
      ∃ n' b', r.2.Ready n' b' ∧ r.2.clauses = s.clauses ∧ (r.1 = .sat → ∃ σ, r.2.Shows n' σ) := by
  rw [Enumeration.assumeAll_eq, h.clear, Array.empty_append]
  refine (h.stands.suppose A.toArray).solve_wide.imp fun r hr => ?_
  obtain ⟨answer, s'⟩ := r
  obtain ⟨n', b', -, -, htold, -⟩ := hr
  refine ⟨n', b', ⟨htold.stands, fun i => htold.answers ▸ h.calm i, htold.assumptions⟩, htold.clauses, ?_⟩
  rintro rfl
  obtain ⟨σ, hshows, -⟩ := htold.tells
  exact ⟨σ, hshows⟩

/-- One of the calls on `s` is a search that breaks off. -/
def BreaksAmong (s : Session) (calls : List Call) (f : Fault) : Prop :=
  ∃ before A later s', calls = before ++ .solve A :: later ∧ before.foldlM Session.after s = .ok s' ∧
    (A.foldl (fun s l => s.assume l) s').Breaks f

/-- Each call leaves a session ready for the next. -/
theorem Ready.after (h : s.Ready n b) (call : Call) :
    Yields (s.BreaksAmong [call]) (s.after call) fun s' => ∃ n' b', s'.Ready n' b' := by
  cases call with
  | fresh =>
    refine ⟨n + 1, b, ?_, h.calm, h.clear⟩
    refine Yields.bind h.stands fun solver hs => (Yields.of_gives hs.idle.newVar_gives).bind fun r hr => .pure ?_
    obtain ⟨hidle, hwide, hsize⟩ := hr
    exact ⟨hidle, hwide.options.trans hs.options, hwide.budget.trans hs.budget, hs.vars ▸ hsize, hwide.given ▸ hs.given⟩
  | add lits =>
    obtain ⟨n', -, -, hstands⟩ := h.stands.add_wide lits
    exact ⟨n', b, hstands, h.calm, h.clear⟩
  | solve A =>
    refine ((h.solve_yields A).mono fun f hf => ?_).bind fun r hr => .pure ?_
    · exact ⟨[], A, [], s, rfl, rfl, hf⟩
    · obtain ⟨n', b', hready, -⟩ := hr
      exact ⟨n', b', hready⟩

theorem BreaksAmong.append {calls : List Call} {f : Fault} (h : s.BreaksAmong calls f) (more : List Call) :
    s.BreaksAmong (calls ++ more) f := by
  obtain ⟨before, A, later, s', rfl, hrun, hbreaks⟩ := h
  exact ⟨before, A, later ++ more, s', by simp, hrun, hbreaks⟩

theorem BreaksAmong.cons {call : Call} {calls : List Call} {f : Fault} {s' : Session} (hcall : s.after call = .ok s')
    (h : s'.BreaksAmong calls f) : s.BreaksAmong (call :: calls) f := by
  obtain ⟨before, A, later, s'', rfl, hrun, hbreaks⟩ := h
  refine ⟨call :: before, A, later, s'', rfl, ?_, hbreaks⟩
  rw [List.foldlM_cons, hcall]
  exact hrun

/-- A session stays ready through any calls. -/
theorem Ready.run (h : s.Ready n b) (calls : List Call) :
    Yields (s.BreaksAmong calls) (calls.foldlM Session.after s) fun s' => ∃ n' b', s'.Ready n' b' := by
  induction calls generalizing s n b with
  | nil => exact .pure ⟨n, b, h⟩
  | cons call calls ih =>
    have hcall := h.after call
    rw [List.foldlM_cons]
    cases hrun : s.after call with
    | error f =>
      rw [hrun] at hcall
      exact BreaksAmong.append hcall calls
    | ok s₁ =>
      rw [hrun] at hcall
      obtain ⟨n₁, b₁, h₁⟩ := hcall
      exact (ih h₁).mono fun f hf => hf.cons hrun

theorem ready_new : Ready {} 0 .unlimited := ⟨stands_new, fun _ => rfl, rfl⟩

end Session

namespace Enumeration

variable {n : Nat} {b : Budget} {s : Session} {e : Enumeration} {Φ : List (List Lit)} {A essential : List Lit}
  {σs : List (Nat → Bool)}

/-- The sessions in which at most `count` further models are seen. -/
def sessions : Nat → Enumeration → Session → Except Fault (List Session × Enumeration × Session)
  | 0, e, s => .ok ([], e, s)
  | count + 1, e, s => do
    let (found, e, s) ← e.next s
    if !found then return ([], e, s)
    let (ss, e', s') ← sessions count e s
    return (s :: ss, e', s')

theorem essential_next {r : Bool × Enumeration × Session} (h : e.next s = .ok r) : r.2.1.essential = e.essential := by
  unfold next at h
  split at h
  · rw [← Except.ok.inj h]
  · obtain ⟨⟨answer, s'⟩, -, h⟩ := bind_eq_ok.1 h
    dsimp only at h
    split at h
    · rw [← Except.ok.inj h]
    · rw [← Except.ok.inj h]

/-- The values of the essential literals are those in the sessions. -/
theorem take_eq_map_sessions (count : Nat) (e : Enumeration) (s : Session) :
    e.take count s = (e.sessions count s).map fun r => (r.1.map fun s' => e.essential.map s'.value, r.2) := by
  induction count generalizing e s with
  | zero => rfl
  | succ count ih =>
    rw [take, sessions]
    cases hnext : e.next s with
    | error f => rfl
    | ok r =>
      obtain ⟨found, e₁, s₁⟩ := r
      have hsame : e₁.essential = e.essential := essential_next hnext
      simp only [ok_bind]
      cases found with
      | false => rfl
      | true =>
        simp only [Bool.not_true, Bool.false_eq_true, if_false]
        rw [ih, hsame]
        cases e₁.sessions count s₁ <;> rfl

/-- The values of some literals under an assignment. -/
def valuesBy (essential : List Lit) (σ : Nat → Bool) : List Value := essential.map fun l => .ofBool (l.holds σ)

theorem valuesBy_eq_iff {σ τ : Nat → Bool} :
    valuesBy essential σ = valuesBy essential τ ↔ ∀ l ∈ essential, l.holds σ = l.holds τ := by
  rw [valuesBy, valuesBy, List.map_inj_left]
  refine forall₂_congr fun l _ => ⟨fun h => ?_, fun h => by rw [h]⟩
  revert h
  cases l.holds σ <;> cases l.holds τ <;> simp [Value.ofBool]

theorem length_le_of_nodup (h : (σs.map (valuesBy essential)).Nodup) : σs.length ≤ 2 ^ essential.length := by
  have hdiffer : σs.Pairwise (Differ essential) := by
    refine (List.pairwise_map.1 h).imp fun {σ τ} hne => ?_
    rw [Ne, valuesBy_eq_iff] at hne
    simpa [Differ] using hne
  exact length_le_of_differ hdiffer

/-- An assignment makes all clauses and all assumptions true. -/
def Meets (Φ : List (List Lit)) (A : List Lit) (σ : Nat → Bool) : Prop :=
  Models Φ σ ∧ ∀ l ∈ A, l.holds σ = true

/-- An enumeration under way, in which what the assignments `σs` say of the essential literals is excluded. -/
structure Underway (Φ : List (List Lit)) (A essential : List Lit) (σs : List (Nat → Bool)) (n : Nat) (b : Budget)
    (s : Session) (e : Enumeration) : Prop where
  ready : s.Ready n b
  running : e.stoppedBy = none
  essential_eq : e.essential = essential
  assumptions_eq : e.assumptions = A
  known : ∀ l ∈ essential, l.var < n
  base : Φ ⊆ s.clauses.toList
  excludes : ∀ σ, Models (s.clauses.toList ++ e.excluded.toList) σ ↔
    Models Φ σ ∧ valuesBy essential σ ∉ σs.map (valuesBy essential)

/-- What a search of an enumeration under way comes to. -/
def Advances (Φ : List (List Lit)) (A essential : List Lit) (σs : List (Nat → Bool)) :
    Bool × Enumeration × Session → Prop
  | (true, e, s) => ∃ τ, Meets Φ A τ ∧ valuesBy essential τ ∉ σs.map (valuesBy essential) ∧ s.Satisfies Φ A ∧
      essential.map s.value = valuesBy essential τ ∧ ∃ n b, Underway Φ A essential (τ :: σs) n b s e
  | (false, e, _) => e.stoppedBy = some .unsat ∧
      ∀ σ, Meets Φ A σ → valuesBy essential σ ∈ σs.map (valuesBy essential)

theorem Underway.next_yields (h : Underway Φ A essential σs n b s e) :
    Yields (e.query s).Breaks (e.next s) (Advances Φ A essential σs) := by
  obtain ⟨hready, hrunning, rfl, rfl, hknown, hbase, hexcludes⟩ := h
  refine (next_wide hready.stands hready.clear hrunning).imp fun r hr => ?_
  obtain ⟨found, e', s'⟩ := r
  obtain ⟨n', b', hle, -, hcontinued, hsat⟩ := hr
  dsimp only at hcontinued hsat
  have hknown' : ∀ l ∈ e.essential, l.var < n' := fun l hl => Nat.lt_of_lt_of_le (hknown l hl) hle
  cases found with
  | true =>
    obtain ⟨rfl, τ, hshows, hτ, hassumed⟩ := hcontinued.found rfl
    obtain ⟨hmodels, hnew⟩ := (hexcludes τ).1 hτ
    refine ⟨τ, ⟨hmodels, hassumed⟩, hnew, (hsat rfl).mono (List.Subset.trans hbase (List.subset_append_left ..)), ?_,
      n', b',
      ⟨hcontinued.stands, fun i => hcontinued.answers ▸ hready.calm i, hcontinued.assumptions⟩, hrunning, rfl, rfl,
      hknown', ?_, fun σ => ?_⟩
    · exact List.map_congr_left fun l hl => hshows.value_eq (hknown' l hl)
    · rw [hcontinued.clauses]
      exact List.Subset.trans hbase (List.subset_append_left ..)
    · -- the new clause is true just where an essential literal has another value than under `τ`
      have hdiffer : Lit.anyHolds (s'.refutation e.essential) σ = true ↔
          valuesBy e.essential σ ≠ valuesBy e.essential τ := by
        rw [Session.anyHolds_refutation hshows hknown', Ne, valuesBy_eq_iff]
        simp
      have hold := hexcludes σ
      rw [Models] at hold ⊢
      rw [hcontinued.clauses, resume, Option.toList_some, List.forall_mem_append, hold, List.forall_mem_singleton, hdiffer,
        List.map_cons, List.mem_cons]
      tauto
  | false =>
    obtain ⟨answer, hstopped, hwhy⟩ := hcontinued.exhausted rfl
    rcases hwhy with ⟨rfl, hnone⟩ | ⟨-, i, hi⟩
    · refine ⟨hstopped, fun σ hσ => ?_⟩
      by_contra hnew
      exact hnone σ ((hexcludes σ).2 ⟨hσ.1, hnew⟩) hσ.2
    · rw [hready.calm i] at hi
      cases hi

/-- An enumeration at its end: it has come once by all values that the essential literals have in assignments with
a property, and all its sessions made the clauses and the assumptions true. -/
structure Drained (Φ : List (List Lit)) (A essential : List Lit) (P : (Nat → Bool) → Prop)
    (r : List Session × Enumeration × Session) : Prop where
  nodup : (r.1.map fun s => essential.map s.value).Nodup
  mem_iff : ∀ v, v ∈ r.1.map (fun s => essential.map s.value) ↔ ∃ σ, P σ ∧ valuesBy essential σ = v
  satisfies : ∀ s ∈ r.1, s.Satisfies Φ A
  stopped : r.2.1.stoppedBy = some .unsat

/-- One of the first `count` searches of an enumeration breaks off. -/
def BreaksOff (count : Nat) (e : Enumeration) (s : Session) (f : Fault) : Prop :=
  ∃ k < count, ∃ e' s', e.Reaches s k e' s' ∧ (e'.query s').Breaks f

theorem Familiar.not_breaksOff {count : Nat} (h : e.Familiar n s) (hn : n + e.assumptions.length ≤ 36)
    (hsize : s.clauses.size + count ≤ 2 ^ 32) (f : Fault) : ¬ BreaksOff count e s f := by
  rintro ⟨k, hk, e', s', hreach, hbreaks⟩
  exact hreach.not_overworked h hn (by omega) hbreaks.overworked

/-- An enumeration under way comes to its end. -/
theorem Underway.sessions_yields {e₀ : Enumeration} {s₀ : Session} {k count total : Nat}
    (h : Underway Φ A essential σs n b s e) (hreach : e₀.Reaches s₀ k e s) (htotal : k + count = total)
    (hσs : (σs.map (valuesBy essential)).Nodup) (hcount : 2 ^ essential.length < count + σs.length) :
    Yields (BreaksOff total e₀ s₀) (e.sessions count s) (Drained Φ A essential fun σ =>
      Meets Φ A σ ∧ valuesBy essential σ ∉ σs.map (valuesBy essential)) := by
  induction count generalizing k σs n b s e with
  | zero =>
    have := length_le_of_nodup hσs
    omega
  | succ count ih =>
    rw [sessions]
    have hadvances := h.next_yields
    cases hnext : e.next s with
    | error f =>
      rw [hnext] at hadvances
      exact ⟨k, by omega, e, s, hreach, hadvances⟩
    | ok r =>
    rw [hnext] at hadvances
    obtain ⟨found, e₁, s₁⟩ := r
    have hr : Advances Φ A essential σs (found, e₁, s₁) := hadvances
    cases found with
    | false =>
      obtain ⟨hstopped, hall⟩ := hr
      refine .pure ⟨List.nodup_nil, fun v => ?_, (fun s hs => by cases hs), hstopped⟩
      constructor
      · intro hv
        cases hv
      · rintro ⟨σ, ⟨hσ, hnew⟩, -⟩
        exact (hnew (hall σ hσ)).elim
    | true =>
      obtain ⟨τ, hτ, hnew, hsat, hvalues, n₁, b₁, h₁⟩ := hr
      have hnodup : ((τ :: σs).map (valuesBy essential)).Nodup := List.nodup_cons.2 ⟨hnew, hσs⟩
      have hreach₁ := hreach.next h.running hnext rfl
      refine (ih h₁ hreach₁ (by omega) hnodup (by simp only [List.length_cons]; omega)).bind fun r hr => .pure ?_
      obtain ⟨ss, e₂, s₂⟩ := r
      simp only [List.map_cons, List.mem_cons, not_or] at hr
      refine ⟨?_, fun v => ?_, ?_, hr.stopped⟩
      · rw [List.map_cons, List.nodup_cons, hr.mem_iff, hvalues]
        refine ⟨?_, hr.nodup⟩
        rintro ⟨σ, ⟨-, hne, -⟩, heq⟩
        exact hne heq
      · rw [List.map_cons, List.mem_cons, hr.mem_iff, hvalues]
        constructor
        · rintro (rfl | ⟨σ, ⟨hσ, -, hnew⟩, rfl⟩)
          · exact ⟨τ, ⟨hτ, hnew⟩, rfl⟩
          · exact ⟨σ, ⟨hσ, hnew⟩, rfl⟩
        · rintro ⟨σ, ⟨hσ, hnew⟩, rfl⟩
          by_cases heq : valuesBy essential σ = valuesBy essential τ
          · exact .inl heq
          · exact .inr ⟨σ, ⟨hσ, heq, hnew⟩, rfl⟩
      · exact List.forall_mem_cons.2 ⟨hsat, hr.satisfies⟩

theorem Drained.length_le_one {P : (Nat → Bool) → Prop} {r : List Session × Enumeration × Session}
    (h : Drained Φ A [] P r) : r.1.length ≤ 1 := by
  have hnodup := h.nodup
  simp only [List.map_nil, List.map_const'] at hnodup
  simpa using List.nodup_replicate.1 hnodup

theorem Drained.perm {P : (Nat → Bool) → Prop} {r : List Session × Enumeration × Session} {vs : List (List Value)}
    (h : Drained Φ A essential P r) (hvs : vs.Nodup) (hiff : ∀ v, v ∈ vs ↔ ∃ σ, P σ ∧ valuesBy essential σ = v) :
    (r.1.map fun s => essential.map s.value).Perm vs :=
  (List.perm_ext_iff_of_nodup h.nodup hvs).2 fun v => (h.mem_iff v).trans (hiff v).symm

/-- What an enumeration with an end comes to, unless one of its searches breaks off. -/
def EndsWith (Φ : List (List Lit)) (P : (Nat → Bool) → Prop) (e : Enumeration) (s : Session) : Prop :=
  ∀ count > 2 ^ e.essential.length,
    e.take count s = (e.sessions count s).map (fun r => (r.1.map fun s' => e.essential.map s'.value, r.2)) ∧
    Yields (BreaksOff count e s) (e.sessions count s) fun r =>
      Drained Φ e.assumptions e.essential P r ∧ (e.essential = [] → r.1.length ≤ 1)

theorem Underway.endsWith (h : Underway Φ A essential σs n b s e) (hσs : (σs.map (valuesBy essential)).Nodup) :
    e.EndsWith Φ (fun σ => Meets Φ A σ ∧ valuesBy essential σ ∉ σs.map (valuesBy essential)) s := by
  intro count hcount
  obtain ⟨rfl, rfl⟩ := And.intro h.essential_eq h.assumptions_eq
  refine ⟨take_eq_map_sessions count e s, ?_⟩
  refine (h.sessions_yields .start (Nat.zero_add count) hσs (Nat.lt_add_right _ hcount)).imp fun r hr => ⟨hr, fun hnil => ?_⟩
  rw [hnil] at hr
  exact hr.length_le_one

/-- An enumeration from a session after any calls, without search limits, that is followed to its end. It comes once
by all values that the essential literals have in assignments that make the clauses and the assumptions true, and
then by no others; the number of rounds that it takes is bounded, and it breaks off only with one of its searches, when
that is too much for the machine. After a search that found a model under the same assumptions, it can leave out what
that model says. -/
theorem all_essential_values_listed_once (calls : List Session.Call) :
    Yields (Session.BreaksAmong {} calls) (calls.foldlM Session.after {}) fun s => ∀ A essential : List Lit,
      ((∀ l ∈ essential, l.var < s.numVars) →
        EndsWith s.clauses.toList (Meets s.clauses.toList A) { essential, assumptions := A } s) ∧
      ∀ s', (A.foldl (fun s l => s.assume l) s).solve = .ok (.sat, s') → (∀ l ∈ essential, l.var < s'.numVars) →
        EndsWith s.clauses.toList
          (fun σ => Meets s.clauses.toList A σ ∧ valuesBy essential σ ≠ essential.map s'.value)
          (resume { essential, assumptions := A } s') s' := by
  refine (Session.ready_new.run calls).imp fun s hs A essential => ?_
  obtain ⟨n, b, hready⟩ := hs
  constructor
  · intro hknown
    have hunderway : Underway s.clauses.toList A essential [] n b s { essential, assumptions := A } :=
      ⟨hready, rfl, rfl, rfl, fun l hl => Nat.lt_of_lt_of_le (hknown l hl) hready.stands.numVars_le, List.Subset.refl _,
        fun σ => by simp⟩
    simpa using hunderway.endsWith (by simp)
  · intro s' hsolve hknown
    have hyields := hready.solve_yields A
    rw [hsolve] at hyields
    obtain ⟨n', b', hready', hclauses, hsome⟩ := hyields
    obtain ⟨τ, hshows⟩ := hsome rfl
    dsimp only at hready' hclauses hshows
    have hknown' : ∀ l ∈ essential, l.var < n' := fun l hl =>
      Nat.lt_of_lt_of_le (hknown l hl) hready'.stands.numVars_le
    have hvalues : essential.map s'.value = valuesBy essential τ :=
      List.map_congr_left fun l hl => hshows.value_eq (hknown' l hl)
    have hunderway : Underway s.clauses.toList A essential [τ] n' b' s' (resume { essential, assumptions := A } s') := by
      refine ⟨hready', rfl, rfl, rfl, hknown', by rw [hclauses]; exact List.Subset.refl _, fun σ => ?_⟩
      rw [hclauses, Models, resume, Option.toList_some, List.forall_mem_append, List.forall_mem_singleton,
        Session.anyHolds_refutation hshows hknown', List.map_singleton, List.mem_singleton, valuesBy_eq_iff, Models]
      simp
    rw [hvalues]
    simpa using hunderway.endsWith (by simp)

/-- Two variables, one of which must be true. -/
def either : Session := (({} : Session).fresh.2.fresh.2).add [.positive 0, .positive 1]

theorem numVars_either : either.numVars = 2 := by
  have hsort : [Lit.positive 0, .positive 1].mergeSort (fun l m => l.code ≤ m.code) = [.positive 0, .positive 1] :=
    List.mergeSort_of_pairwise (by decide)
  simp only [either, Session.add, Session.numVars, Solver.addClause, hsort]
  decide +kernel

theorem familiar_either {n : Nat} {b : Budget} (h : either.Ready n b) :
    Familiar 2 { essential := [.positive 0, .positive 1] } either := by
  have hclause : ∀ c ∈ either.clauses.toList, c = [.positive 0, .positive 1] := fun c hc => List.mem_singleton.1 hc
  have hknown : ∀ l ∈ [Lit.positive 0, .positive 1], l.var < 2 := by decide
  have hwords : ¬ either.Unwritable := by
    rintro ⟨c, hc, hwide⟩
    obtain rfl := hclause c hc
    cases hwide
  obtain rfl : 2 = n := numVars_either.symm.trans (h.stands.numVars_eq hwords)
  refine ⟨⟨b, h.stands⟩, h.clear, fun c hc => ?_, hknown, List.forall_mem_nil _⟩
  obtain rfl := hclause c hc
  exact hknown

theorem values_either (v : List Value) : v ∈ [[.holds, .holds], [.holds, .fails], [.fails, .holds]] ↔
    ∃ σ, Meets either.clauses.toList [] σ ∧ valuesBy [.positive 0, .positive 1] σ = v := by
  have hmeets : ∀ σ : Nat → Bool, Lit.anyHolds [.positive 0, .positive 1] σ = true → Meets either.clauses.toList [] σ :=
    fun σ hσ => ⟨List.forall_mem_singleton.2 hσ, List.forall_mem_nil _⟩
  constructor
  · intro hv
    simp only [List.mem_cons, List.not_mem_nil, or_false] at hv
    rcases hv with rfl | rfl | rfl
    · exact ⟨fun _ => true, hmeets _ rfl, rfl⟩
    · exact ⟨fun v => v = 0, hmeets _ rfl, rfl⟩
    · exact ⟨fun v => v = 1, hmeets _ rfl, rfl⟩
  · rintro ⟨σ, ⟨hσ, -⟩, rfl⟩
    have hone : Lit.anyHolds [.positive 0, .positive 1] σ = true := hσ _ (List.mem_singleton_self _)
    simp only [Lit.anyHolds, valuesBy, List.any_cons, List.any_nil, List.map_cons, List.map_nil] at hone ⊢
    revert hone
    cases (Lit.positive 0).holds σ <;> cases (Lit.positive 1).holds σ <;> decide

/-- All values with which one of two variables is true are listed. -/
theorem all_essential_values_listed_once_either : ∃ r,
    [Session.Call.fresh, .fresh, .add [.positive 0, .positive 1]].foldlM Session.after {} = .ok either ∧
    ({ essential := [.positive 0, .positive 1] } : Enumeration).take 5 either = .ok r ∧
    r.1.Perm [[.holds, .holds], [.holds, .fails], [.fails, .holds]] ∧ r.2.1.stoppedBy = some .unsat := by
  have hlisted := all_essential_values_listed_once [.fresh, .fresh, .add [.positive 0, .positive 1]]
  have hready := Session.ready_new.run [.fresh, .fresh, .add [.positive 0, .positive 1]]
  have hcalls : [Session.Call.fresh, .fresh, .add [.positive 0, .positive 1]].foldlM Session.after {} = .ok either := rfl
  rw [hcalls] at hlisted hready
  obtain ⟨n, b, hready⟩ := hready
  have hfamiliar := familiar_either hready
  obtain ⟨htake, hends⟩ := (hlisted [] [.positive 0, .positive 1]).1 (numVars_either ▸ hfamiliar.essential) 5 (by decide)
  obtain ⟨r, hr⟩ := hends.returns (hfamiliar.not_breaksOff (by decide) (by decide))
  rw [hr] at htake hends
  obtain ⟨hdrained, -⟩ := hends
  refine ⟨_, rfl, htake, hdrained.perm (by decide) values_either, hdrained.stopped⟩

end Enumeration

end Countermodels
