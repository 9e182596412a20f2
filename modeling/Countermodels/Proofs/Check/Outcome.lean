import Countermodels.Proofs.Check.Iterate

/-! How a check comes out. With a footing for its theory, a check finds a countermodel if the clauses of the theory
describe one, and otherwise says whether they describe a model at all; only the deadline and numbers that are too
large for a machine keep it from that. -/

open Countermodels.Sat

namespace Countermodels

/-- A check of the problem breaks off in one of its searches, which the formula that it writes makes too long. -/
def Check.Overstrained (theory : Theory) (p : Problem) (d : Deadline) (f : Failure) : Prop :=
  ∃ e₀ goal e, Encoding.build theory p.settings p.letters d = .ok e₀ ∧ Check.writeGoal p e₀ = .ok goal e ∧
    f.IsFault (Check.Breaks p e goal)

/-- How many variables and clauses the formula has that a check writes. -/
def Check.size? (theory : Theory) (p : Problem) (d : Deadline) : Option (Nat × Nat) :=
  match Encoding.build theory p.settings p.letters d with
  | .error _ => none
  | .ok e =>
    match Check.writeGoal p e with
    | .error _ _ => none
    | .ok _ e => some (e.draft.cnf.numVars, e.draft.cnf.clauses.size)

/-- A check tells whether there are models and whether there are countermodels among them. -/
structure Check.Exact (p : Problem) (models countermodels : Prop) (result : Except Failure Report) : Prop where
  countermodel_iff : (∃ r, result = .ok r ∧ r.verdict = .countermodel) ↔ countermodels
  noCountermodel_iff : (∃ r, result = .ok r ∧ r.verdict = .noCountermodel) ↔ models ∧ ¬ countermodels
  infeasible_iff : result = .error (.refused (.infeasibleFrame (.noFrame p.settings.n))) ↔ ¬ models

/-- The letters of a problem are those of its formulas. -/
theorem Problem.over_letters {theory : Theory} {p : Problem}
    (h : ∀ f ∈ p.premises ++ p.conclusions, ∀ op ∈ f.operators, op ∈ theory.primitives) :
    p.Over theory p.letters := fun f hf =>
  ⟨h f hf, fun _ ha => Atom.mem_sorted.2 (List.mem_flatMap.2 ⟨f, hf, ha⟩)⟩

namespace Footing

variable {theory : Theory} {p : Problem} {g : Footing theory p.settings p.letters} {d : Deadline} {e : Encoding}
  {goal : Lit}

/-- The result of a check is right. -/
def Settles (g : Footing theory p.settings p.letters) (d : Deadline) : Except Failure Report → Prop
  | .ok r =>
    r.verdict = .countermodel ∧ (∃ σs, g.Listed d σs r.models r.stop) ∨
    r.verdict = .noCountermodel ∧ r.stop = none ∧ (∃ σ, g.start.satisfiedBy σ) ∧
      ∀ σ, g.start.satisfiedBy σ → ¬ (g.model σ).Refutes p
  | .error f =>
    f = .refused (.infeasibleFrame (.noFrame p.settings.n)) ∧ (∀ σ, ¬ g.start.satisfiedBy σ) ∨
    d.Late f ∨ Check.Overstrained theory p d f

theorem Written.late (hw : g.Written d e goal) (h : ∃ i, e.draft.deadline.budget.answers i = true) :
    d.Late e.draft.deadline.error := by
  have hsame := g.same_deadline hw.valid
  refine ⟨?_, hsame.answers ▸ h⟩
  rw [Deadline.error, Deadline.error, hsame.maxTime]

theorem Settles.bind {α : Type} {x : Except Failure α} {P : α → Prop} {k : α → Except Failure Report}
    (hx : Yields (Check.Overstrained theory p d) x P) (hk : ∀ a, P a → g.Settles d (k a)) : g.Settles d (x >>= k) := by
  cases x with
  | ok a => exact hk a hx
  | error f => exact .inr (.inr hx)

theorem Settles.stats {s : Session} (hs : ∃ solver, s.solver = .ok solver) {k : Stats → Except Failure Report}
    (hk : ∀ stats, g.Settles d (k stats)) : g.Settles d (Failure.ofFault s.stats >>= k) := by
  obtain ⟨solver, hsolver⟩ := hs
  rw [Session.stats, hsolver]
  exact hk _

/-- A result that is right tells what there is, unless the deadline has come or the check broke off. -/
theorem Settles.exact {result : Except Failure Report} {models countermodels : Prop} (h : g.Settles d result)
    (hmodels : (∃ σ, g.start.satisfiedBy σ) ↔ models)
    (hcountermodels : (∃ σ, g.start.satisfiedBy σ ∧ (g.model σ).Refutes p) ↔ countermodels) :
    Check.Exact p models countermodels result ∨
      ∃ f, result = .error f ∧ (d.Late f ∨ Check.Overstrained theory p d f) := by
  have hle : countermodels → models := fun hc => by
    obtain ⟨σ, hσ, -⟩ := hcountermodels.2 hc
    exact hmodels.1 ⟨σ, hσ⟩
  cases result with
  | ok r =>
    rcases h with ⟨hverdict, σs, hlisted⟩ | ⟨hverdict, -, hsome, hnone⟩
    · obtain ⟨σ, hσ⟩ := List.exists_mem_of_length_pos hlisted.pos
      have hc := hcountermodels.1 ⟨σ, hlisted.start σ hσ, hlisted.refutes σ hσ⟩
      exact .inl ⟨by simp [hverdict, hc], by simp [hverdict, hc], by simp [hle hc]⟩
    · have hm := hmodels.1 hsome
      have hc : ¬ countermodels := fun hc => by
        obtain ⟨σ, hσ, hrefutes⟩ := hcountermodels.2 hc
        exact hnone σ hσ hrefutes
      exact .inl ⟨by simp [hverdict, hc], by simp [hverdict, hm, hc], by simp [hm]⟩
  | error f =>
    rcases h with ⟨rfl, hnone⟩ | hfail
    · have hm : ¬ models := fun hm => by
        obtain ⟨σ, hσ⟩ := hmodels.2 hm
        exact hnone σ hσ
      exact .inl ⟨by simp [mt hle hm], by simp [hm], by simp [hm]⟩
    · exact .inr ⟨f, rfl, hfail⟩

/-- The first search of an encoding has ended with an answer. -/
structure Searched (g : Footing theory p.settings p.letters) (d : Deadline) (e : Encoding) (goal : Lit) (answer : Answer)
    (s : Session) : Prop where
  solved : (Check.aimed e goal).solve = .ok (answer, s)
  stands : ∃ b, b.answers = d.budget.answers ∧ s.Stands e.draft.cnf.numVars b
  clauses : s.clauses.toList = e.draft.cnf.clauses.toList
  clear : s.assumptions = #[]
  sat : answer = .sat → ∃ σ, g.Opened d e goal σ s
  unsat : answer = .unsat → ∀ σ, g.start.satisfiedBy σ → ¬ (g.model σ).Refutes p
  unknown : answer = .unknown → ∃ i, d.budget.answers i = true

theorem Written.aimed_stands (hw : g.Written d e goal) :
    (Check.aimed e goal).Stands e.draft.cnf.numVars e.draft.deadline.budget :=
  ((Session.stands_load hw.fits).limit e.draft.deadline.budget).assume goal

theorem clauses_aimed (e : Encoding) (goal : Lit) : (Check.aimed e goal).clauses.toList = e.draft.cnf.clauses.toList :=
  Session.clauses_load _

theorem assumptions_aimed (e : Encoding) (goal : Lit) : (Check.aimed e goal).assumptions.toList = [goal] := by
  simp [Check.aimed, Session.assume, Session.limit, Session.assumptions_load]

/-- An encoding is searched for a model that meets the goal. -/
theorem Written.first_yields (hw : g.Written d e goal) :
    Yields (Check.aimed e goal).Breaks (Check.aimed e goal).solve fun r => g.Searched d e goal r.1 r.2 := by
  have hsame := g.same_deadline hw.valid
  have hassumptions := assumptions_aimed e goal
  have hmodels : ∀ σ, Models (Check.aimed e goal).clauses.toList σ ↔ e.draft.cnf.satisfiedBy σ := fun σ => by
    rw [clauses_aimed, Cnf.satisfiedBy_iff]
  have htold := hw.aimed_stands.solve (hassumptions ▸ List.forall_mem_singleton.2 hw.known)
  cases hsolve : (Check.aimed e goal).solve with
  | error f =>
    rw [hsolve] at htold
    exact htold
  | ok r =>
    rw [hsolve] at htold
    obtain ⟨answer, s⟩ := r
    obtain ⟨b, hstands, hlive, hkept, hclear, hanswers, htells⟩ := htold
    have hbudget : ∃ b, b.answers = d.budget.answers ∧ s.Stands e.draft.cnf.numVars b :=
      ⟨b, hanswers.trans hsame.answers, hstands⟩
    have hclauses : s.clauses.toList = e.draft.cnf.clauses.toList := hkept ▸ clauses_aimed e goal
    refine ⟨hsolve, hbudget, hclauses, hclear, ?_, ?_, ?_⟩
    · rintro rfl
      obtain ⟨σ, hshows, hσ, hmet⟩ := htells
      exact ⟨σ, hsolve, hbudget, hlive, hclauses, hclear, hshows, (hmodels σ).1 hσ,
        hmet goal (hassumptions ▸ List.mem_singleton_self _)⟩
    · rintro rfl σ hσ hrefutes
      obtain ⟨τ, hτ, -⟩ := hw.exists_hits hσ hrefutes
      exact htells τ ((hmodels τ).2 hτ.satisfied) (hassumptions ▸ List.forall_mem_singleton.2 hτ.met)
    · rintro rfl
      exact hsame.answers ▸ htells

/-- The searches of an encoding come out right. -/
theorem Written.answer_settles {e₀ : Encoding} (hw : g.Written d e goal)
    (hbuild : Encoding.build theory p.settings p.letters d = .ok e₀) (hgoal : Check.writeGoal p e₀ = .ok goal e) :
    g.Settles d (Check.answer p e goal) := by
  have hsame := g.same_deadline hw.valid
  have hstrain : ∀ {α : Type} {x : Except Failure α} {P : α → Prop},
      Yields (Failure.IsFault (Check.Breaks p e goal)) x P → Yields (Check.Overstrained theory p d) x P :=
    fun hx => hx.mono fun f hf => ⟨e₀, goal, e, hbuild, hgoal, hf⟩
  have hasked : ∀ {s : Session} {P : Answer × Session → Prop}, Check.Asks p e goal s → Yields s.Breaks s.solve P →
      Yields (Check.Overstrained theory p d) (Failure.ofFault s.solve) P :=
    fun hs hx => hstrain (hx.mono fun f hf => ⟨_, hs, hf⟩).ofFault
  refine .bind (hasked .goal hw.first_yields) fun r hfirst => ?_
  obtain ⟨answer, s⟩ := r
  cases answer with
  | unknown => exact .inr (.inl (hw.late (hsame.answers ▸ hfirst.unknown rfl)))
  | sat =>
    obtain ⟨σ, hopened⟩ := hfirst.sat rfl
    simp only [hw.extract_eq hopened.showing hopened.hits.satisfied, ok_bind, hw.verify_eq hopened.hits]
    refine .bind (hstrain (iterate_yields hw hopened)) fun r hr => ?_
    exact .stats hr.1 fun _ => .inl ⟨rfl, hr.2⟩
  | unsat =>
    have hclauses := hfirst.clauses
    have hclear := hfirst.clear
    dsimp only at hclauses hclear
    obtain ⟨b, hanswers, hstands⟩ := hfirst.stands
    refine .bind (hasked (.frame hfirst.solved) (hstands.solve (by simp [hclear]))) fun r hr => ?_
    obtain ⟨answer, s'⟩ := r
    obtain ⟨b', -, hlive, -, -, -, htells⟩ := hr
    dsimp only at hlive htells
    cases answer with
    | unknown => exact .inr (.inl (hw.late (hsame.answers ▸ hanswers ▸ htells)))
    | sat =>
      obtain ⟨σ, -, hσ, -⟩ := htells
      have hstart := hw.start_of_satisfied (Cnf.satisfiedBy_iff.2 (hclauses ▸ hσ))
      exact .stats hlive fun _ => .inr ⟨rfl, rfl, ⟨σ, hstart⟩, hfirst.unsat rfl⟩
    | unsat =>
      refine .inl ⟨rfl, fun σ hσ => ?_⟩
      obtain ⟨τ, -, hτ, -⟩ := hw.complete σ hσ
      refine htells τ (hclauses ▸ Cnf.satisfiedBy_iff.1 hτ) ?_
      simp [hclear]

/-- With a footing, a check comes out right. -/
theorem prepared_settles (g : Footing theory p.settings p.letters) (hp : p.Over theory p.letters)
    (hn : p.settings.n ≠ 0) (clock : Nat → Nat) (interrupt : Bool) :
    g.Settles (.start clock p.settings.maxTime interrupt) (Check.prepared theory p clock interrupt) := by
  simp only [Check.prepared, if_neg hn]
  generalize Deadline.start clock p.settings.maxTime interrupt = d
  rcases g.builds d with ⟨e₀, hbuild, hvalid, hstart⟩ | ⟨f, hbuild, hlate⟩
  · rw [hbuild, ok_bind]
    rcases (writeGoal_aims hvalid hp).outcome with ⟨goal, e, hgoal, -, haims⟩ | ⟨f, e, hgoal, hlate⟩
    · rw [hgoal]
      exact (haims.written hp hstart).answer_settles hbuild hgoal
    · rw [hgoal]
      exact .inr (.inl hlate)
  · rw [hbuild]
    exact .inr (.inl hlate)

/-! A check of a small problem does not break off. -/

/-- What a check writes can be searched. -/
theorem written_of_run (g : Footing theory p.settings p.letters) (hp : p.Over theory p.letters) {e₀ : Encoding}
    (hbuild : Encoding.build theory p.settings p.letters d = .ok e₀) (hgoal : Check.writeGoal p e₀ = .ok goal e) :
    g.Written d e goal := by
  rcases g.builds d with ⟨e₁, hbuild₁, hvalid, hstart⟩ | ⟨f, hbuild₁, -⟩
  · obtain rfl := Except.ok.inj (hbuild₁.symm.trans hbuild)
    rcases (writeGoal_aims hvalid hp).outcome with ⟨goal₁, e₂, hrun, -, haims⟩ | ⟨f, e₂, hrun, -⟩
    · obtain ⟨rfl, rfl⟩ := EStateM.Result.ok.inj (hrun.symm.trans hgoal)
      exact haims.written hp hstart
    · cases hrun.symm.trans hgoal
  · cases hbuild₁.symm.trans hbuild

/-- No search of an encoding over few variables is too much for the machine. -/
theorem Written.not_breaks (hw : g.Written d e goal) (hvars : e.draft.cnf.numVars ≤ 35)
    (hsize : e.draft.cnf.clauses.size + p.settings.iterate ≤ 2 ^ 32) (f : Fault) : ¬ Check.Breaks p e goal f := by
  rintro ⟨s, hasks, hbreaks⟩
  have hknown : ∀ c ∈ e.draft.cnf.clauses.toList, ∀ l ∈ c, l.var < e.draft.cnf.numVars := fun c hc => hw.fits.known c hc
  have hgoal : ∀ l ∈ [goal], l.var < e.draft.cnf.numVars := List.forall_mem_singleton.2 hw.known
  have hcount : ∀ {s : Session}, s.clauses.toList = e.draft.cnf.clauses.toList →
      s.clauses.size = e.draft.cnf.clauses.size := fun h => by simpa using congrArg List.length h
  have hfirst := hw.first_yields
  refine absurd hbreaks.overworked ?_
  cases hasks with
  | goal =>
    have hassumptions := assumptions_aimed e goal
    refine hw.aimed_stands.not_overworked (hassumptions ▸ hgoal) (clauses_aimed e goal ▸ hknown) ?_ ?_
    · rw [← Array.length_toList, hassumptions, List.length_singleton]
      omega
    · rw [hcount (clauses_aimed e goal)]
      omega
  | @frame s hsolve =>
    rw [hsolve] at hfirst
    obtain ⟨-, ⟨b, -, hstands⟩, hclauses, hclear, -⟩ := hfirst
    dsimp only at hclauses hclear
    refine hstands.not_overworked (by simp [hclear]) (hclauses ▸ hknown) ?_ ?_
    · rw [hclear, List.size_toArray, List.length_nil]
      omega
    · rw [hcount hclauses]
      omega
  | @further s s' k e' hsolve hreach hk =>
    rw [hsolve] at hfirst
    obtain ⟨-, ⟨b, -, hstands⟩, hclauses, hclear, -⟩ := hfirst
    dsimp only at hclauses hclear
    have hessential : ∀ l ∈ e.essential, l.var < e.draft.cnf.numVars := g.essential_eq hw.valid ▸ hw.essential_lt
    have hfamiliar : (Check.others e goal s).Familiar e.draft.cnf.numVars s :=
      Enumeration.familiar_resume hstands hclear (hclauses ▸ hknown) hessential hgoal
    refine hreach.not_overworked hfamiliar ?_ ?_
    · rw [Check.others, Enumeration.resume, List.length_singleton]
      omega
    · rw [hcount hclauses]
      omega

/-- A check of a small problem does not break off, and while there is time it does not give up. -/
theorem not_fails (g : Footing theory p.settings p.letters) (hp : p.Over theory p.letters) (hopen : d.Open)
    {vars clauses : Nat} (hsize : Check.size? theory p d = some (vars, clauses)) (hvars : vars ≤ 35)
    (hclauses : clauses + p.settings.iterate ≤ 2 ^ 32) (f : Failure) : ¬ (d.Late f ∨ Check.Overstrained theory p d f) := by
  rintro (hlate | ⟨e₀, goal, e, hbuild, hgoal, x, -, hbreaks⟩)
  · exact hopen.not_late f hlate
  · rw [Check.size?, hbuild] at hsize
    simp only [hgoal, Option.some.injEq, Prod.mk.injEq] at hsize
    obtain ⟨rfl, rfl⟩ := hsize
    exact (g.written_of_run hp hbuild hgoal).not_breaks hvars hclauses x hbreaks

end Footing

end Countermodels
