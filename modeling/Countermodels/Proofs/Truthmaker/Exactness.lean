import Countermodels.Proofs.Check.Outcome
import Countermodels.Proofs.Truthmaker.Footing

/-! Checks in the theory of truthmakers tell whether there are admissible models and countermodels. -/

namespace Countermodels.Truthmaker

variable {settings : Settings} {letters : List Atom} {σ : Nat → Bool}

theorem described_admissible (hσ : (footing settings letters).start.satisfiedBy σ) :
    (described settings letters σ).Admissible settings letters :=
  (opening_describes settings letters).sound σ ((footing settings letters).holds_of_start hσ).1.1

/-- The clauses describe a model if there is an admissible one. -/
theorem exists_start_iff : (∃ σ, (footing settings letters).start.satisfiedBy σ) ↔
    ∃ m : Model, m.Admissible settings letters := by
  constructor
  · rintro ⟨σ, hσ⟩
    exact ⟨_, described_admissible hσ⟩
  · rintro ⟨m, hm⟩
    obtain ⟨π, σ, hσ, -⟩ := exists_start_image hm
    exact ⟨σ, hσ⟩

/-- The clauses describe a countermodel if there is an admissible one. -/
theorem exists_start_refutes_iff {p : Problem} (hp : p.Over .counterfactual letters) :
    (∃ σ, (footing settings letters).start.satisfiedBy σ ∧ ((footing settings letters).model σ).Refutes p) ↔
      ∃ m : Model, m.Admissible settings letters ∧ (Countermodel.truthmaker m).Refutes p := by
  constructor
  · rintro ⟨σ, hσ, hrefutes⟩
    exact ⟨_, described_admissible hσ, hrefutes⟩
  · rintro ⟨m, hm, hrefutes⟩
    obtain ⟨π, σ, hσ, hdesc⟩ := exists_start_image hm
    refine ⟨σ, hσ, ?_⟩
    show (Countermodel.truthmaker (described settings letters σ)).Refutes p
    rwa [hdesc, refutes_permute hm π hp]

/-- A check in the theory of truthmakers finds a countermodel just if an admissible model refutes the argument, finds
none just if there are admissible models and none of them does, and finds its frame infeasible just if there are no
admissible models. It gives up only if a question about the time is answered with yes; and it breaks off only with one
of its searches, when that makes more restarts than a word of 32 bits can count, has more learnt clauses to keep than a
word of 64 bits can count, or is over a literal that is no word. -/
theorem check_tells_admissible_countermodels (p : Problem)
    (hp : ∀ f ∈ p.premises ++ p.conclusions, ∀ op ∈ f.operators, op ∈ Theory.counterfactual.primitives)
    (hn : 1 ≤ p.settings.n) (clock : Nat → Nat) (interrupt : Bool) :
    Check.Exact p (∃ m : Model, m.Admissible p.settings p.letters)
      (∃ m : Model, m.Admissible p.settings p.letters ∧ (Countermodel.truthmaker m).Refutes p)
      (Check.prepared .counterfactual p clock interrupt) ∨
    ∃ f, Check.prepared .counterfactual p clock interrupt = .error f ∧
      ((Deadline.start clock p.settings.maxTime interrupt).Late f ∨
        Check.Overstrained .counterfactual p (.start clock p.settings.maxTime interrupt) f) := by
  have hover := Problem.over_letters hp
  exact ((footing p.settings p.letters).prepared_settles hover (by omega) clock interrupt).exact exists_start_iff
    (exists_start_refutes_iff hover)

/-- The argument from nothing to the negation of a letter. -/
def denial : Problem := ⟨[], [.unary .neg (.atom splitLetter)], { n := 2, nonNull := true }⟩

theorem denial_refuted : (Countermodel.truthmaker split).Refutes denial :=
  ⟨by simp [denial], fun _ => ⟨_, List.mem_singleton_self _, rfl⟩⟩

theorem size_denial :
    Check.size? .counterfactual denial (.start (fun _ => 0) denial.settings.maxTime false) = some (34, 108) := by
  cbv

/-- A countermodel to the denial of a letter is found. -/
theorem check_tells_admissible_countermodels_split :
    ∃ r, Check.prepared .counterfactual denial (fun _ => 0) false = .ok r ∧ r.verdict = .countermodel := by
  have hprimitive : ∀ f ∈ denial.premises ++ denial.conclusions, ∀ op ∈ f.operators,
      op ∈ Theory.counterfactual.primitives := by decide +kernel
  have hletters : denial.letters = [⟨'A', rfl⟩] := by decide +kernel
  have hadmissible : split.Admissible denial.settings denial.letters := by
    rw [hletters]
    exact { split_admissible with
      allows := fun q hq => { split_admissible.allows q hq with contingent := fun h => by cases h } }
  have hexact := (check_tells_admissible_countermodels denial hprimitive (by decide) (fun _ => 0) false).resolve_right (by
    rintro ⟨f, -, hfails⟩
    exact (footing denial.settings denial.letters).not_fails (Problem.over_letters hprimitive) (fun _ => rfl) size_denial
      (by decide) (by decide) f hfails)
  exact hexact.countermodel_iff.2 ⟨split, hadmissible, denial_refuted⟩

end Countermodels.Truthmaker
