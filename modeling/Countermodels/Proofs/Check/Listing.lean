import Countermodels.Proofs.Check.Outcome

/-! The list of countermodels in a report. Assignments that differ in an essential literal describe models of
different shape, so no model that is found is passed over, and the list has no shape twice. If it is shorter than it
should be because there are no others, then every countermodel that the clauses describe has the shape of one in it. -/

open Countermodels.Sat

namespace Countermodels

/-- A report lists countermodels of different shapes, not more than were asked for, and says why if there are fewer. -/
structure Report.Counted (r : Report) (p : Problem) : Prop where
  refutes : ∀ m ∈ r.models, m.Refutes p
  distinct : r.models.Pairwise fun m k => m.sameShape k = false
  pos : 1 ≤ r.models.length
  le : r.models.length ≤ p.settings.iterate
  stop_eq_none_iff : r.stop = none ↔ r.models.length = p.settings.iterate
  exhausted : ∀ requested found, r.stop = some (.iterationExhausted requested found) →
    requested = p.settings.iterate ∧ found = r.models.length

/-- If some member of a list has a property, and no two different ones have it, then exactly one has it. -/
theorem countP_eq_one {α : Type} {R : α → α → Prop} {P : α → Bool} {xs : List α} (hpair : xs.Pairwise R)
    (honce : ∀ x ∈ xs, ∀ y ∈ xs, P x = true → P y = true → ¬ R x y) (hsome : ∃ x ∈ xs, P x = true) :
    xs.countP P = 1 := by
  induction xs with
  | nil => simp at hsome
  | cons x xs ih =>
    rw [List.pairwise_cons] at hpair
    cases hx : P x with
    | true =>
      have hnone : xs.countP P = 0 := List.countP_eq_zero.2 fun y hy hPy =>
        honce x List.mem_cons_self y (List.mem_cons_of_mem _ hy) hx hPy (hpair.1 y hy)
      rw [List.countP_cons_of_pos hx, hnone]
    | false =>
      rw [List.countP_cons_of_neg (by simp [hx])]
      refine ih hpair.2 (fun y hy z hz => honce y (List.mem_cons_of_mem _ hy) z (List.mem_cons_of_mem _ hz)) ?_
      simpa [hx] using hsome

namespace Check

/-- The search for further models after the first one, with `skip` in the place of what is done with a model that has
the shape of an earlier one. -/
def iterateElse (skip : Found → Except Failure Found) (e : Encoding) (p : Problem) (goal : Lit) (first : Countermodel)
    (deadline : Deadline) (s : Session) : Except Failure (List Countermodel × Option CheckError × Session) := do
  let requested := p.settings.iterate
  if requested ≤ 1 then return ([first], none, s)
  let essential := e.essential
  let enumeration := ({ essential, assumptions := [goal] } : Enumeration).resume s
  let found ← searchElse skip e p (searchBound essential) { models := [first], enumeration, session := s }
  let models := found.models.reverse
  let stop :=
    if models.length < requested then
      some (if found.enumeration.stoppedBy = some .unknown then .timeout deadline.maxTime
        else .iterationExhausted requested models.length)
    else none
  return (models, stop, found.session)

/-- A check that gives a report has built an encoding over at least one atomic state. -/
theorem build_of_prepared {theory : Theory} {p : Problem} {clock : Nat → Nat} {interrupt : Bool} {r : Report}
    (h : prepared theory p clock interrupt = .ok r) : p.settings.n ≠ 0 ∧
      ∃ e, Encoding.build theory p.settings p.letters (.start clock p.settings.maxTime interrupt) = .ok e := by
  rw [prepared] at h
  split at h
  · cases h
  · next hn =>
    cases hbuild : Encoding.build theory p.settings p.letters (.start clock p.settings.maxTime interrupt) with
    | ok e => exact ⟨hn, e, rfl⟩
    | error f =>
      rw [hbuild] at h
      cases h

end Check

namespace Footing

variable {theory : Theory} {p : Problem} {g : Footing theory p.settings p.letters} {d : Deadline} {e : Encoding}
  {goal : Lit} {σ τ : Nat → Bool} {σs : List (Nat → Bool)} {models : List Countermodel} {stop : Option CheckError}

theorem sameShape_eq_false_iff (hσ : g.start.satisfiedBy σ) (hτ : g.start.satisfiedBy τ) :
    (g.model σ).sameShape (g.model τ) = false ↔ Differ g.essential σ τ := by
  rw [← Bool.not_eq_true, sameShape_iff_not_differ hσ hτ, not_not]

/-- A report of countermodels, or of a search that was broken off, lists what was found. -/
theorem listed_of_prepared (g : Footing theory p.settings p.letters) (hp : p.Over theory p.letters) {clock : Nat → Nat}
    {interrupt : Bool} {r : Report} (hrun : Check.prepared theory p clock interrupt = .ok r)
    (hreport : r.verdict = .countermodel ∨ r.stop ≠ none) :
    ∃ σs, g.Listed (.start clock p.settings.maxTime interrupt) σs r.models r.stop := by
  have hsettles := g.prepared_settles hp (Check.build_of_prepared hrun).1 clock interrupt
  rw [hrun] at hsettles
  rcases hsettles with ⟨-, hlisted⟩ | ⟨hverdict, hstop, -⟩
  · exact hlisted
  · simp [hverdict, hstop] at hreport

/-- Assignments that differ in an essential literal describe models of different shape. -/
theorem Written.extracts_differ (hw : g.Written d e goal) (hσ : e.draft.cnf.satisfiedBy σ)
    (hτ : e.draft.cnf.satisfiedBy τ) (hdiffer : ∃ l ∈ e.essential, l.holds σ ≠ l.holds τ) :
    ∃ m k, e.extractBy (·.holds σ) = .ok m ∧ e.extractBy (·.holds τ) = .ok k ∧ m.sameShape k = false := by
  have hread : ∀ υ, e.draft.cnf.satisfiedBy υ → e.extractBy (·.holds υ) = .ok (g.model υ) := fun υ hυ =>
    g.extracts hw.valid (g.sat_of_satisfiedBy hw.le hυ).1 fun _ _ => rfl
  refine ⟨g.model σ, g.model τ, hread σ hσ, hread τ hτ, ?_⟩
  apply (sameShape_eq_false_iff (hw.start_of_satisfied hσ) (hw.start_of_satisfied hτ)).2
  rwa [Differ, ← g.essential_eq hw.valid]

/-- It makes no difference what is done with a model that has the shape of an earlier one: there is none. -/
theorem Written.iterateElse_eq (hw : g.Written d e goal) {s : Session} {first : Countermodel}
    (hrun : (Check.aimed e goal).solve = .ok (.sat, s)) (hfirst : e.extract s = .ok first)
    (skip : Check.Found → Except Failure Check.Found) :
    Check.iterateElse skip e p goal first e.draft.deadline s = Check.iterate e p goal first e.draft.deadline s := by
  have hyields := hw.first_yields
  rw [hrun] at hyields
  obtain ⟨σ, hopened⟩ := hyields.sat rfl
  rw [hw.extract_eq hopened.showing hopened.hits.satisfied] at hfirst
  obtain rfl := Except.ok.inj hfirst
  have hsame : ∀ fuel, Check.searchElse skip e p fuel _ = Check.search e p fuel _ := fun _ =>
    searchElse_eq hw skip (hopened.collected hw)
  rw [Check.others] at hsame
  unfold Check.iterateElse Check.iterate
  dsimp only
  rw [hsame]

namespace Listed

/-- What is listed is a list of distinct countermodels, as long as it says. -/
theorem counted {r : Report} (h : g.Listed d σs r.models r.stop) (hiterate : 1 ≤ p.settings.iterate) :
    r.Counted p := by
  have hlength : r.models.length = σs.length := by rw [h.models_eq, List.length_map]
  refine ⟨?_, ?_, ?_, ?_, ?_, ?_⟩
  · rw [h.models_eq]
    exact List.forall_mem_map.2 h.refutes
  · rw [h.models_eq, List.pairwise_map]
    exact h.differ.imp_of_mem fun hσ hτ hdiffer => (sameShape_eq_false_iff (h.start _ hσ) (h.start _ hτ)).2 hdiffer
  · exact hlength ▸ h.pos
  · have hstop := h.stop
    omega
  · rcases h.stop with ⟨hstop, hfull⟩ | ⟨hless, ⟨hstop, -⟩ | ⟨hstop, -⟩⟩
    · rw [hstop, hlength]
      exact iff_of_true rfl (by omega)
    all_goals
      rw [hstop, hlength]
      exact iff_of_false (Option.some_ne_none _) (by omega)
  · intro requested found hstopped
    rcases h.stop with ⟨hstop, -⟩ | ⟨-, ⟨hstop, -⟩ | ⟨hstop, -⟩⟩
    all_goals
      rw [hstop] at hstopped
      cases hstopped
    exact ⟨rfl, hlength.symm⟩

/-- If a list was broken off because there are no others, every countermodel that the clauses describe has the shape of
exactly one in it. -/
theorem countP_eq_one (h : g.Listed d σs models stop) {requested found : Nat}
    (hstopped : stop = some (.iterationExhausted requested found)) (hτ : g.start.satisfiedBy τ)
    (hrefutes : (g.model τ).Refutes p) : models.countP (·.sameShape (g.model τ)) = 1 := by
  have hsame : ∀ σ ∈ σs, (g.model σ).sameShape (g.model τ) = true → ¬ Differ g.essential σ τ := fun σ hσ =>
    (sameShape_iff_not_differ (h.start σ hσ) hτ).1
  have hsome : ∃ σ ∈ σs, ¬ Differ g.essential τ σ := by
    rcases h.stop with ⟨hstop, -⟩ | ⟨-, ⟨-, hall⟩ | ⟨hstop, -⟩⟩
    · rw [hstop] at hstopped
      cases hstopped
    · exact hall τ hτ hrefutes
    · rw [hstop] at hstopped
      cases hstopped
  obtain ⟨σ, hσ, hnot⟩ := hsome
  rw [h.models_eq, List.countP_map]
  refine Countermodels.countP_eq_one h.differ (fun υ hυ ω hω hυτ hωτ => ?_) ⟨σ, hσ, ?_⟩
  · exact not_differ_trans (hsame υ hυ hυτ) (mt Differ.symm (hsame ω hω hωτ))
  · exact (sameShape_iff_not_differ (h.start σ hσ) hτ).2 (mt Differ.symm hnot)

end Listed

end Footing

end Countermodels
