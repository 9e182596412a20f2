import Countermodels.Proofs.Truthmaker.Counterfactual

/-! Imposing a state on a world, as a whole. What is possible in the space can be imposed on every world of the space, and
nothing else can; a part of a world leaves the world alone; and more and more of a world can be imposed until nothing but
the world itself remains. Of the model no more is asked than that the parts of possible states are possible. The worlds
are those that the space has: a maximal state that the space does not list is an alternative to nothing. -/

namespace Countermodels.Truthmaker

namespace Model

variable {m : Model} {u w x : State}

theorem alternatives_ascending (w x : State) : (m.alternatives w x).Pairwise (· < ·) :=
  (m.possible.ascending.filter _).filter _

/-- What can be imposed is possible and belongs to the space, because it is part of a world. -/
theorem possible_of_mem_alternatives (hm : m.PartClosed) (hu : u ∈ m.alternatives w x) :
    x ∈ m.possible ∧ x ∈ m.space.states := by
  obtain ⟨hworld, hxu, -⟩ := mem_alternatives.1 hu
  obtain ⟨hn, hsize⟩ := StateSpace.mem_states.1 (mem_worlds.1 hworld).1
  exact ⟨hm u (possible_of_mem_worlds hworld) x hxu, StateSpace.mem_states.2 ⟨hn, StateSpace.lt_of_isPartOf hxu hsize⟩⟩

theorem alternatives_ne_nil_iff (hm : m.PartClosed) (hw : w ∈ m.worlds) :
    m.alternatives w x ≠ [] ↔ x ∈ m.possible ∧ x ∈ m.space.states := by
  constructor
  · intro hne
    obtain ⟨u, hu⟩ := List.exists_mem_of_ne_nil _ hne
    exact possible_of_mem_alternatives hm hu
  · rintro ⟨hx, hspace⟩
    obtain ⟨u, hu⟩ := exists_alternative (mem_worlds.1 hw).1 hx hspace
    exact List.ne_nil_of_mem hu

/-- A world has itself as its only maximal part that is compatible with a part of it. -/
theorem eq_of_mem_alternatives (hw : w ∈ m.worlds) (hx : x.isPartOf w = true) (hu : u ∈ m.alternatives w x) :
    u = w := by
  obtain ⟨-, hmax⟩ := isWorld_iff.1 (mem_worlds.1 hw).2
  obtain ⟨huw, -, z, hz, hzu⟩ := mem_alternatives.1 hu
  obtain ⟨hcompatible, hzmax⟩ := mem_maximalCompatibleParts.1 hz
  have hwz : w = z := hzmax w (mem_compatibleParts_self hw hx) (mem_compatibleParts.1 hcompatible).1
  exact hmax u (possible_of_mem_worlds huw) (hwz ▸ hzu) (mem_worlds.1 huw).1

theorem alternatives_eq_self (hw : w ∈ m.worlds) (hx : x.isPartOf w = true) : m.alternatives w x = [w] := by
  have hset : StateSet.mk (m.alternatives w x) (alternatives_ascending w x) = .singleton w := by
    ext u
    rw [StateSet.mem_singleton]
    refine ⟨eq_of_mem_alternatives hw hx, ?_⟩
    rintro rfl
    exact mem_alternatives_self hw hx
  exact congrArg StateSet.elems hset

end Model

variable {m : Model} {w : State}

/-- In a model where the parts of possible states are possible, for a world of the space and any state: there is an
alternative just if the state is possible and belongs to the space; all alternatives are worlds that have the state as a
part; the world is the only one if the state is part of it; every world of the space results from imposing it whole; and
an alternative stays one while more of it is imposed. -/
theorem alternatives_keep_what_is_compatible (hm : m.PartClosed) (hw : w ∈ m.worlds) (x : State) :
    m.counting (m.alternatives w x) = .ok (m.alternatives w x) ∧
    (m.alternatives w x ≠ [] ↔ x ∈ m.possible ∧ x ∈ m.space.states) ∧
    (∀ u ∈ m.alternatives w x, u ∈ m.worlds ∧ x.isPartOf u = true) ∧
    (x.isPartOf w = true → m.alternatives w x = [w]) ∧
    (∀ u ∈ m.worlds, u ∈ m.alternatives w u) ∧
    ∀ u ∈ m.alternatives w x, ∀ y, x.isPartOf y = true → y.isPartOf u = true → u ∈ m.alternatives w y := by
  have hn := Model.n_lt_of_mem_worlds hw
  refine ⟨Model.counting_eq (by omega) _, Model.alternatives_ne_nil_iff hm hw, fun u hu => ?_,
    Model.alternatives_eq_self hw, fun u hu => Model.mem_alternatives_world (Model.mem_worlds.1 hw).1 hu,
    fun u hu y => Model.alternatives_mono hm hu⟩
  obtain ⟨hworld, hxu, -⟩ := Model.mem_alternatives.1 hu
  exact ⟨hworld, hxu⟩

/-- A state that goes together with each of two others, which exclude each other. -/
def bridged : Model where
  space := ⟨3⟩
  possible := ⟨[⟨0⟩, ⟨1⟩, ⟨2⟩, ⟨3⟩, ⟨4⟩, ⟨6⟩], by decide⟩
  evalWorld := ⟨3⟩
  valuation := []

theorem bridged_partClosed : bridged.PartClosed := fun s hs t ht => by
  have hparts : ∀ s ∈ bridged.possible.elems, ∀ t ∈ s.parts, t ∈ bridged.possible := by decide +kernel
  exact hparts s hs t (State.mem_parts.2 ht)

/-- One of the two is imposed on the world of the other: the state between them is kept, and it may be imposed as well. -/
theorem alternatives_keep_what_is_compatible_bridged :
    bridged.PartClosed ∧ ⟨3⟩ ∈ bridged.worlds ∧ bridged.maximalCompatibleParts ⟨3⟩ ⟨4⟩ = [⟨2⟩] ∧
      bridged.alternatives ⟨3⟩ ⟨4⟩ = [⟨6⟩] ∧ ⟨6⟩ ∈ bridged.worlds ∧ bridged.alternatives ⟨3⟩ ⟨1⟩ = [⟨3⟩] ∧
      ⟨6⟩ ∈ bridged.alternatives ⟨3⟩ ⟨6⟩ ∧ bridged.alternatives ⟨3⟩ ⟨5⟩ = [] := by
  have hworld : ⟨3⟩ ∈ bridged.worlds := by decide
  have hparts : bridged.maximalCompatibleParts ⟨3⟩ ⟨4⟩ = [⟨2⟩] := by decide +kernel
  have halternatives : bridged.alternatives ⟨3⟩ ⟨4⟩ = [⟨6⟩] := by decide +kernel
  have hmem : ⟨6⟩ ∈ bridged.alternatives ⟨3⟩ ⟨4⟩ := halternatives ▸ List.mem_singleton_self _
  obtain ⟨-, -, hworlds, -, -, hmono⟩ := alternatives_keep_what_is_compatible bridged_partClosed hworld ⟨4⟩
  obtain ⟨-, -, -, hself, -⟩ := alternatives_keep_what_is_compatible bridged_partClosed hworld ⟨1⟩
  obtain ⟨-, hpossible, -⟩ := alternatives_keep_what_is_compatible bridged_partClosed hworld ⟨5⟩
  have hexcluded : ¬ (⟨5⟩ ∈ bridged.possible ∧ ⟨5⟩ ∈ bridged.space.states) := by decide
  exact ⟨bridged_partClosed, hworld, hparts, halternatives, (hworlds _ hmem).1, hself (by decide),
    hmono _ hmem ⟨6⟩ (by decide) (by decide), not_not.1 fun hne => hexcluded (hpossible.1 hne)⟩

/-- A maximal state that the space does not list has no alternatives, not even for its parts: in a space too wide to have
states, and outside a space. Nor is there one for a possible state outside the space. -/
theorem alternatives_fail_outside_space :
    (.null ∈ wide.possible ∧ wide.PartClosed ∧ wide.isWorld .null = true ∧ wide.alternatives .null .null = []) ∧
    .null ∈ outlying.possible ∧ outlying.PartClosed ∧
      outlying.isWorld ⟨2⟩ = true ∧ outlying.alternatives ⟨2⟩ .null = [] ∧
      .null ∈ outlying.worlds ∧ ⟨2⟩ ∈ outlying.possible ∧ outlying.alternatives .null ⟨2⟩ = [] :=
  ⟨⟨wide_lawful.null, wide_lawful.part, by decide, by decide +kernel⟩, outlying_lawful.null, outlying_lawful.part,
    by decide, by decide +kernel, by decide, by decide, by decide +kernel⟩

end Countermodels.Truthmaker
