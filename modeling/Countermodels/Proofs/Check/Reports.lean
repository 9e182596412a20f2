import Countermodels.Proofs.Check.Listing
import Countermodels.Proofs.History.Exactness
import Countermodels.Proofs.Truthmaker.Exactness

/-! What reports say of countermodels, in both theories. -/

open Countermodels.Sat

namespace Countermodels

/-- A number of times that is accepted is one that an encoding can be built for. -/
theorem History.timed_of_requireM {settings : Settings} {m : Nat} (h : settings.requireM = .ok m) : Timed settings m := by
  rw [Settings.requireM] at h
  cases hm : settings.m with
  | none =>
    rw [hm] at h
    cases h
  | some k =>
    simp only [hm, Settings.positive] at h
    split at h
    · cases h
    · split at h
      · cases h
      · next hpos hle =>
        obtain rfl := Except.ok.inj h
        exact ⟨hm, by omega, by omega⟩

theorem History.exists_timed_of_build {settings : Settings} {letters : List Atom} {d : Deadline} {e : Encoding}
    (h : Encoding.build .bimodal settings letters d = .ok e) : ∃ m, Timed settings m := by
  cases hm : settings.requireM with
  | ok m => exact ⟨m, timed_of_requireM hm⟩
  | error f =>
    rw [Encoding.build, Encoder.build, hm] at h
    cases h

/-- An encoding that can be built has a footing. -/
theorem exists_footing_of_build {theory : Theory} {settings : Settings} {letters : List Atom} {d : Deadline} {e : Encoding}
    (h : Encoding.build theory settings letters d = .ok e) : Nonempty (Footing theory settings letters) := by
  cases theory with
  | counterfactual => exact ⟨Truthmaker.footing settings letters⟩
  | bimodal =>
    obtain ⟨m, hm⟩ := History.exists_timed_of_build h
    exact ⟨History.footing hm letters⟩

/-- A report that an argument has countermodels lists only countermodels, of different shapes, and as many as were
asked for unless it says why there are fewer. Assignments that differ in an essential literal describe models of
different shapes; so whatever were done with a model that has the shape of an earlier one, it would make no difference. -/
theorem reported_countermodels_distinct_and_counted (theory : Theory) (p : Problem)
    (hp : ∀ f ∈ p.premises ++ p.conclusions, ∀ op ∈ f.operators, op ∈ theory.primitives)
    (hiterate : 1 ≤ p.settings.iterate) (clock : Nat → Nat) (interrupt : Bool) :
    (∀ r, Check.prepared theory p clock interrupt = .ok r → r.verdict = .countermodel → r.Counted p) ∧
    ∀ d e₀ goal e, Encoding.build theory p.settings p.letters d = .ok e₀ → Check.writeGoal p e₀ = .ok goal e →
      (∀ σ τ, e.draft.cnf.satisfiedBy σ → e.draft.cnf.satisfiedBy τ → (∃ l ∈ e.essential, l.holds σ ≠ l.holds τ) →
        ∃ m k, e.extractBy (·.holds σ) = .ok m ∧ e.extractBy (·.holds τ) = .ok k ∧ m.sameShape k = false) ∧
      ∀ s first, (Check.aimed e goal).solve = .ok (.sat, s) → e.extract s = .ok first →
        ∀ skip, Check.iterateElse skip e p goal first e.draft.deadline s =
          Check.iterate e p goal first e.draft.deadline s := by
  have hover : p.Over theory p.letters := Problem.over_letters hp
  constructor
  · intro r hrun hverdict
    obtain ⟨-, e, hbuild⟩ := Check.build_of_prepared hrun
    obtain ⟨g⟩ := exists_footing_of_build hbuild
    obtain ⟨σs, hlisted⟩ := g.listed_of_prepared hover hrun (.inl hverdict)
    exact hlisted.counted hiterate
  · intro d e₀ goal e hbuild hgoal
    obtain ⟨g⟩ := exists_footing_of_build hbuild
    have hw := g.written_of_run hover hbuild hgoal
    exact ⟨fun σ τ hσ hτ hdiffer => hw.extracts_differ hσ hτ hdiffer,
      fun s first hsolve hfirst skip => hw.iterateElse_eq hsolve hfirst skip⟩

/-- An argument that an admissible model refutes is found to have countermodels, if the check does not fail. -/
theorem History.countermodel_reported {p : Problem} {m : Nat} {B : Model} (hp : p.Over .bimodal p.letters)
    (hn : p.settings.n ≠ 0) (hm : Timed p.settings m) (hB : B.Admissible p.settings m p.letters)
    (hrefutes : (Countermodel.history B).Refutes p) {clock : Nat → Nat} {interrupt : Bool}
    (hfails : ∀ f, ¬ ((Deadline.start clock p.settings.maxTime interrupt).Late f ∨
      Check.Overstrained .bimodal p (.start clock p.settings.maxTime interrupt) f)) :
    ∃ r, Check.prepared .bimodal p clock interrupt = .ok r ∧ r.verdict = .countermodel := by
  have hsettles := (footing hm p.letters).prepared_settles hp hn clock interrupt
  rcases hsettles.exact (exists_start_iff hm) (exists_start_refutes_iff hm hp) with hexact | ⟨f, -, hf⟩
  · exact hexact.countermodel_iff.2 ⟨B, hB, hrefutes⟩
  · exact (hfails f hf).elim

theorem History.foretold_reported {iterate : Nat} (hiterate : iterate ≤ 2 ^ 31) :
    ∃ r, Check.prepared .bimodal (foretold iterate) (fun _ => 0) false = .ok r ∧ r.verdict = .countermodel :=
  countermodel_reported (Problem.over_letters (foretold_primitive iterate)) Nat.one_ne_zero (foretold_timed iterate)
    (resting_admissible iterate) (resting_refutes iterate) (foretold_not_fails hiterate)

/-- Three models in which a letter is true at all later times but not now are asked for. -/
theorem reported_countermodels_distinct_and_counted_foretold :
    (∃ r, Check.prepared .bimodal (History.foretold 3) (fun _ => 0) false = .ok r ∧ r.verdict = .countermodel ∧
      r.Counted (History.foretold 3)) ∧
    ∃ e₀ goal e, Encoding.build .bimodal (History.foretold 3).settings (History.foretold 3).letters .never = .ok e₀ ∧
      Check.writeGoal (History.foretold 3) e₀ = .ok goal e ∧
      ∀ σ τ, e.draft.cnf.satisfiedBy σ → e.draft.cnf.satisfiedBy τ → (∃ l ∈ e.essential, l.holds σ ≠ l.holds τ) →
        ∃ m k, e.extractBy (·.holds σ) = .ok m ∧ e.extractBy (·.holds τ) = .ok k ∧ m.sameShape k = false := by
  have hreport := reported_countermodels_distinct_and_counted .bimodal (History.foretold 3) (History.foretold_primitive 3)
    (by decide) (fun _ => 0) false
  constructor
  · obtain ⟨r, hrun, hverdict⟩ := History.foretold_reported (show 3 ≤ 2 ^ 31 by decide)
    exact ⟨r, hrun, hverdict, hreport.1 r hrun hverdict⟩
  · have hopen : Deadline.never.Open := fun _ => rfl
    have hover := Problem.over_letters (History.foretold_primitive 3)
    rcases (History.footing (History.foretold_timed 3) (History.foretold 3).letters).builds .never with
      ⟨e₀, hbuild, hvalid, -⟩ | ⟨f, -, hlate⟩
    · rcases (Footing.writeGoal_aims hvalid hover).outcome with ⟨goal, e, hgoal, -⟩ | ⟨f, e, -, hlate⟩
      · exact ⟨e₀, goal, e, hbuild, hgoal, (hreport.2 .never e₀ goal e hbuild hgoal).1⟩
      · exact (hopen.not_late f hlate).elim
    · exact (hopen.not_late f hlate).elim

/-- Some models stand for all countermodels. A countermodel with histories has the shape of exactly one of them; one with
truthmakers has, once its atomic states are renamed, the possible states and the propositions of one of them. -/
def Check.Exhausts (theory : Theory) (p : Problem) (models : List Countermodel) : Prop :=
  match theory with
  | .bimodal => ∀ m (B : History.Model), p.settings.m = some m → B.Admissible p.settings m p.letters →
      (Countermodel.history B).Refutes p → models.countP (·.sameShape (.history B)) = 1
  | .counterfactual => ∀ M : Truthmaker.Model, M.Admissible p.settings p.letters → (Countermodel.truthmaker M).Refutes p →
      ∃ (π : Equiv.Perm (Fin M.space.n)) (K : Truthmaker.Model), .truthmaker K ∈ models ∧
        M.possible.permute π = K.possible ∧ M.valuation.map (fun q => (q.1, q.2.permute π)) = K.valuation

/-- A report that there are no other countermodels than those it lists is right. -/
def Check.Complete (theory : Theory) (p : Problem) (result : Except Failure Report) : Prop :=
  ∀ r requested found, result = .ok r → r.stop = some (.iterationExhausted requested found) →
    Check.Exhausts theory p r.models

theorem History.exhausts_of_listed {p : Problem} {m : Nat} (hm : Timed p.settings m) {d : Deadline}
    (hp : p.Over .bimodal p.letters) {σs : List (Nat → Bool)} {models : List Countermodel} {stop : Option CheckError}
    (h : (footing hm p.letters).Listed d σs models stop) {requested found : Nat}
    (hstop : stop = some (.iterationExhausted requested found)) : Check.Exhausts .bimodal p models := by
  intro k B hk hB hrefutes
  obtain rfl := Option.some.inj (hm.m_eq.symm.trans hk)
  obtain ⟨σ, C, hσ, hmodel, hshape, hiff⟩ := exists_start_listing hm hB
  have hone := h.countP_eq_one hstop hσ (hmodel ▸ (hiff p hp).2 hrefutes)
  have hsame : ∀ K : Countermodel, K.sameShape (.history B) = K.sameShape (.history C) := by
    intro K
    cases K with
    | truthmaker K => rfl
    | history K => simp only [Countermodel.sameShape, hshape]
  simp only [hsame]
  rwa [hmodel] at hone

theorem Truthmaker.exhausts_of_listed {p : Problem} {d : Deadline} (hp : p.Over .counterfactual p.letters)
    {σs : List (Nat → Bool)} {models : List Countermodel} {stop : Option CheckError}
    (h : (footing p.settings p.letters).Listed d σs models stop) {requested found : Nat}
    (hstop : stop = some (.iterationExhausted requested found)) : Check.Exhausts .counterfactual p models := by
  intro M hM hrefutes
  obtain ⟨π, σ, hσ, hdesc⟩ := exists_start_image hM
  have hmodel : (footing p.settings p.letters).model σ = .truthmaker (M.permute π) := congrArg Countermodel.truthmaker hdesc
  have hone := h.countP_eq_one hstop hσ (hmodel ▸ (refutes_permute hM π hp).2 hrefutes)
  have hpos : 0 < models.countP (·.sameShape ((footing p.settings p.letters).model σ)) := by
    rw [hone]
    exact Nat.one_pos
  obtain ⟨K, hK, hsame⟩ := List.countP_pos_iff.1 hpos
  rw [hmodel] at hsame
  cases K with
  | history K => cases hsame
  | truthmaker K =>
    have hshape : K.shape = (M.permute π).shape := of_decide_eq_true hsame
    obtain ⟨hpossible, hvaluation⟩ := Prod.mk.inj hshape
    exact ⟨π, K, hK, hpossible.symm, hvaluation.symm⟩

/-- If a check says that there are no other countermodels, then there are none: with histories, every admissible
countermodel has the shape of exactly one in the report; with truthmakers, atomic states can be renamed such that it
has the possible states and the propositions of one in the report. -/
theorem exhausted_search_lists_all_countermodels (theory : Theory) (p : Problem)
    (hp : ∀ f ∈ p.premises ++ p.conclusions, ∀ op ∈ f.operators, op ∈ theory.primitives) (clock : Nat → Nat)
    (interrupt : Bool) : Check.Complete theory p (Check.prepared theory p clock interrupt) := by
  have hover : p.Over theory p.letters := Problem.over_letters hp
  intro r requested found hrun hstop
  have hstopped : r.stop ≠ none := by simp [hstop]
  cases theory with
  | counterfactual =>
    obtain ⟨σs, hlisted⟩ := (Truthmaker.footing p.settings p.letters).listed_of_prepared hover hrun (.inr hstopped)
    exact Truthmaker.exhausts_of_listed hover hlisted hstop
  | bimodal =>
    intro m B hm hB
    obtain ⟨-, e, hbuild⟩ := Check.build_of_prepared hrun
    obtain ⟨k, htimed⟩ := History.exists_timed_of_build hbuild
    obtain rfl := Option.some.inj (htimed.m_eq.symm.trans hm)
    obtain ⟨σs, hlisted⟩ := (History.footing htimed p.letters).listed_of_prepared hover hrun (.inr hstopped)
    exact History.exhausts_of_listed htimed hover hlisted hstop _ B hm hB

/-- When more models are asked for than there can be, all of them are found; one of them has the shape of the model that
rests at the null state. -/
theorem exhausted_search_lists_all_countermodels_resting :
    ∃ r found, Check.prepared .bimodal (History.foretold (2 ^ 20)) (fun _ => 0) false = .ok r ∧
      r.stop = some (.iterationExhausted (2 ^ 20) found) ∧
      r.models.countP (·.sameShape (.history History.resting)) = 1 := by
  have hover := Problem.over_letters (History.foretold_primitive (2 ^ 20))
  obtain ⟨r, hrun, hverdict⟩ := History.foretold_reported (show 2 ^ 20 ≤ 2 ^ 31 by decide)
  obtain ⟨σs, hlisted⟩ :=
    (History.footing (History.foretold_timed (2 ^ 20)) _).listed_of_prepared hover hrun (.inl hverdict)
  have hlength := length_le_of_differ hlisted.differ
  have hessential : (History.footing (History.foretold_timed (2 ^ 20)) [⟨'B', rfl⟩]).essential.length = 14 := by
    decide +kernel
  rw [History.letters_foretold, hessential] at hlength
  rcases hlisted.stop with ⟨-, hfull⟩ | ⟨-, ⟨hstop, -⟩ | ⟨-, i, hi⟩⟩
  · change σs.length = max 1 (2 ^ 20) at hfull
    omega
  · refine ⟨r, σs.length, hrun, hstop, ?_⟩
    exact exhausted_search_lists_all_countermodels .bimodal _ (History.foretold_primitive (2 ^ 20)) _ false r _ _ hrun hstop
      1 History.resting rfl (History.resting_admissible (2 ^ 20)) (History.resting_refutes (2 ^ 20))
  · cases hi

end Countermodels
