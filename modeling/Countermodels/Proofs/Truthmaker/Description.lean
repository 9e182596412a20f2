import Countermodels.Proofs.Truthmaker.Footing

/-! Which assignments the clauses admit. The literals for possible states, for the world of evaluation and for the contents
of letters say all about a model; the other variables, those for worlds and those that help to count, follow from them
or can be chosen to fit. So values of these literals can be extended to a satisfying assignment if and only if they
describe an admissible model. -/

namespace Countermodels.Truthmaker

namespace Frame

variable {f : Frame} {n : Nat} {σ τ : Nat → Bool} {v : Valuation ContentLits}

/-- The literals whose values describe a model. -/
def modelLits (f : Frame) (v : Valuation ContentLits) : List Lit :=
  f.eval.lits ++ (f.possible.toList ++ v.meanings.flatMap ContentLits.lits)

/-- Two assignments describe one model just if all its literals agree. -/
theorem reading_eq_iff (hn : f.space.n < 32) (hf : f.Known n) (hv : ∀ p ∈ v, p.2.Tabled f.space n)
    (hσ : f.eval.Chosen σ) (hτ : f.eval.Chosen τ) :
    f.reading v σ = f.reading v τ ↔ ∀ l ∈ f.modelLits v, l.holds σ = l.holds τ := by
  have heval : f.chosen σ = f.chosen τ ↔ f.eval.value? σ = f.eval.value? τ := by
    obtain ⟨a, -, hvalue, -⟩ := hσ.value_spec hf.regular
    obtain ⟨b, -, hvalue', -⟩ := hτ.value_spec hf.regular
    rw [chosen, chosen, hvalue, hvalue', Option.getD_some, Option.getD_some, Option.some.injEq]
  have hmodel : f.reading v σ = f.reading v τ ↔
      f.chosen σ = f.chosen τ ∧ (f.reading v σ).shape = (f.reading v τ).shape := by
    rw [Model.shape, Model.shape, Prod.mk.injEq]
    simp only [reading, Model.mk.injEq, true_and]
    tauto
  rw [hmodel, heval, hσ.value?_eq_iff hτ hf.regular, shape_reading_eq_iff hn hf hv, modelLits, ← List.forall_mem_append]

end Frame

/-- The clauses of a frame with contents for letters admit just the admissible models. Values of the literals for possible
states, the world of evaluation, verifiers and falsifiers can be extended to a satisfying assignment if and only if one
state is chosen for evaluation and the model that they describe is admissible, and each admissible model is described.
In a satisfying assignment an encoder finds this model, and the literals for worlds hold of its worlds. -/
theorem opening_admits_admissible (settings : Settings) (letters : List Atom) :
    let f := (opening settings letters {}).1.1
    let v := (opening settings letters {}).1.2
    let clauses := (opening settings letters {}).2
    (∀ σ, (∃ τ, clauses.satisfiedBy τ ∧ ∀ l ∈ f.modelLits v, l.holds τ = l.holds σ) ↔
      f.eval.Chosen σ ∧ (f.reading v σ).Admissible settings letters) ∧
    (∀ m : Model, m.Admissible settings letters → ∃ τ, clauses.satisfiedBy τ ∧ f.reading v τ = m) ∧
    ∀ τ, clauses.satisfiedBy τ →
      (∀ e : Encoder, e.frame = f → e.valuation = v → e.extract (·.holds τ) = .ok (f.reading v τ)) ∧
      ∀ s ∈ f.space.states, (f.isWorld s).holds τ = true ↔ (f.reading v τ).isWorld s = true := by
  intro f v clauses
  have hd : Describing settings letters f v clauses := opening_describing settings letters
  refine ⟨fun σ => ⟨?_, ?_⟩, hd.complete, fun τ hτ => ⟨?_, fun s hs => ?_⟩⟩
  · rintro ⟨τ, hτ, hagree⟩
    have hreal := hd.realized τ hτ
    have hchosen : f.eval.Chosen σ := hreal.chosen.congr fun l hl => hagree l (List.mem_append_left _ hl)
    have hread := (Frame.reading_eq_iff (hreal.n_lt hd.known) hd.known hd.tabled hreal.chosen hchosen).2 hagree
    exact ⟨hchosen, hread ▸ hd.sound τ hτ⟩
  · rintro ⟨hchosen, hadmissible⟩
    -- the model is described by some satisfying assignment, and its description leaves no choice
    obtain ⟨τ, hτ, hread⟩ := hd.complete _ hadmissible
    have hreal := hd.realized τ hτ
    exact ⟨τ, hτ, (Frame.reading_eq_iff (hreal.n_lt hd.known) hd.known hd.tabled hreal.chosen hchosen).1 hread⟩
  · intro e he hv
    rw [← he, ← hv]
    exact extract_eq_reading (he ▸ hd.realized τ hτ) (he ▸ hd.known)
  · exact ((hd.realized τ hτ).isWorld_iff hd.known hs).symm

end Countermodels.Truthmaker
