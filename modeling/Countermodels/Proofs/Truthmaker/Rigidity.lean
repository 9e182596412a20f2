import Countermodels.Proofs.Check.Support

/-! What may be shared between states. Two tests on the form of a formula tell whether its truth, or its content, is found
once for all states or at each of them. They look at different things: a modal operator fixes the truth of what stands
under it but not the content around it, and a sentence letter has one content and many truth values. Both tests are right
in every model, and also of the way in which an evaluation gives up. -/

namespace Countermodels.Truthmaker

variable {f : Formula}

/-- In every model, whatever is possible in it and whatever its letters mean: a formula over the primitive operators that
is rigid is evaluated alike at all states, and one without counterfactuals has one content at all of them. As long as the
states of the space can be counted, there is such a truth value and such a content. -/
theorem rigid_truths_and_fixed_contents (m : Model) (hf : ∀ op ∈ f.operators, op ∈ Theory.counterfactual.primitives) :
    (f.isRigid = true → (∀ w u, m.isTrue f w = m.isTrue f u) ∧
      (m.space.n < 64 → ∃ t, ∀ w, m.isTrue f w = .ok t)) ∧
    (f.isWorldDependent = false → (∀ w u, m.content f w = m.content f u) ∧
      (m.space.n < 64 → ∃ c, ∀ w, m.content f w = .ok c)) := by
  constructor
  · intro hrigid
    have hsame : ∀ w u, m.isTrue f w = m.isTrue f u := Model.truth_rigid hrigid
    refine ⟨hsame, fun hn => ?_⟩
    obtain ⟨t, ht⟩ := (Model.evaluates_of_primitive hn hf .null).1
    exact ⟨t, fun w => (hsame w .null).trans ht⟩
  · intro hfixed
    have hsame : ∀ w u, m.content f w = m.content f u := Model.content_fixed hfixed
    refine ⟨hsame, fun hn => ?_⟩
    obtain ⟨c, hc⟩ := (Model.evaluates_of_primitive hn hf .null).2
    exact ⟨c, fun w => (hsame w .null).trans hc⟩

/-- At a world and at an impossible state. That `A` might be such that it would fail if it failed is rigid, though a
counterfactual occurs in it; that `A` holds and cannot fail has one content, though it is not rigid. -/
theorem rigid_truths_and_fixed_contents_split :
    let a := Formula.atom splitLetter
    let f := Formula.unary .diamond (.binary .boxRight (.unary .neg a) (.unary .neg a))
    let g := Formula.binary .and a (.unary .box a)
    (∀ op ∈ f.operators, op ∈ Theory.counterfactual.primitives) ∧ f.isRigid = true ∧ f.isWorldDependent = true ∧
      split.isTrue f ⟨1⟩ = .ok true ∧ split.isTrue f ⟨3⟩ = .ok true ∧
      (∀ op ∈ g.operators, op ∈ Theory.counterfactual.primitives) ∧ g.isWorldDependent = false ∧ g.isRigid = false ∧
      split.content g ⟨1⟩ = split.content g ⟨3⟩ ∧ ∃ c, split.content g ⟨3⟩ = .ok c := by
  intro a f g
  have hf : f.Over Theory.counterfactual.primitives [splitLetter] := by
    simp only [a, f, Formula.over_unary, Formula.over_binary, Formula.over_atom]
    decide
  have hg : g.Over Theory.counterfactual.primitives [splitLetter] := by
    simp only [a, g, Formula.over_unary, Formula.over_binary, Formula.over_atom]
    decide
  have hrigid : f.isRigid = true := rfl
  have hfixed : g.isWorldDependent = false := by cbv
  have htrue : split.isTrue f ⟨1⟩ = .ok true := by cbv
  have hshared := ((rigid_truths_and_fixed_contents split hf.1).1 hrigid).1 ⟨3⟩ ⟨1⟩
  obtain ⟨hsame, hreturns⟩ := (rigid_truths_and_fixed_contents split hg.1).2 hfixed
  obtain ⟨c, hc⟩ := hreturns (by decide)
  exact ⟨hf.1, hrigid, by cbv, htrue, hshared.trans htrue, hg.1, hfixed, rfl, hsame ⟨1⟩ ⟨3⟩, c, hc ⟨3⟩⟩

end Countermodels.Truthmaker
