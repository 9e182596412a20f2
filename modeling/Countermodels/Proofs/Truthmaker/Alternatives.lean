import Countermodels.Proofs.Truthmaker.Proposition

/-! Alternatives to a world. A state is imposed on a world, and the alternatives keep as much of the world as is
compatible with it. Two facts about finite orders carry this module: every possible state of the space is part of a
world, and every possible state is compatible with a maximal part of any state. What is more than this comes from
comparing maximal parts: imposing what a world already has changes nothing, every world is the alternative that results
from imposing it whole, and an alternative is still one when more of it is imposed. -/

namespace Countermodels.Truthmaker.Model

variable {m : Model} {s u w x y : State}

/-- A member of a list of states is part of one that is part of no other. -/
theorem exists_maximal {ss : List State} (hs : s ∈ ss) :
    ∃ t ∈ ss, s.isPartOf t = true ∧ ∀ u ∈ ss, t.isPartOf u = true → u = t := by
  -- of the states around `s`, the one with the largest number has no other around it
  have hmem : ∀ t, t ∈ ss.toFinset.filter (fun t => s.isPartOf t = true) ↔ t ∈ ss ∧ s.isPartOf t = true := by simp
  obtain ⟨t, ht, hmax⟩ := Finset.exists_max_image (ss.toFinset.filter fun t => s.isPartOf t = true) State.bits
    ⟨s, (hmem s).2 ⟨hs, State.isPartOf_refl s⟩⟩
  obtain ⟨htss, hst⟩ := (hmem t).1 ht
  refine ⟨t, htss, hst, fun u hu htu => ?_⟩
  have hle : u.bits ≤ t.bits := hmax u ((hmem u).2 ⟨hu, State.isPartOf_trans hst htu⟩)
  exact congrArg State.mk (Nat.le_antisymm hle (State.bits_le_of_isPartOf htu))

theorem possible_of_mem_worlds (hw : w ∈ m.worlds) : w ∈ m.possible := (isWorld_iff.1 (mem_worlds.1 hw).2).1

/-- Every possible state of the space is part of a world. -/
theorem exists_world (hs : s ∈ m.possible) (hspace : s ∈ m.space.states) : ∃ u ∈ m.worlds, s.isPartOf u = true := by
  have hmem : ∀ t, t ∈ m.possible.elems.filter m.space.contains ↔ t ∈ m.possible ∧ t ∈ m.space.states := fun t => by
    rw [List.mem_filter, StateSpace.contains_iff, StateSet.mem_def]
  obtain ⟨u, hu, hsu, hmax⟩ := exists_maximal ((hmem s).2 ⟨hs, hspace⟩)
  obtain ⟨hpossible, hstates⟩ := (hmem u).1 hu
  refine ⟨u, mem_worlds.2 ⟨hstates, isWorld_iff.2 ⟨hpossible, fun t ht hut hts => ?_⟩⟩, hsu⟩
  exact hmax t ((hmem t).2 ⟨ht, hts⟩) hut

/-- Something of every state can be kept when a possible state is imposed on it, and as much as possible. -/
theorem exists_maximalCompatiblePart (w : State) (hx : x ∈ m.possible) : ∃ z, z ∈ m.maximalCompatibleParts w x := by
  have hnull : .null ∈ m.compatibleParts w x :=
    mem_compatibleParts.2 ⟨State.null_isPartOf w, (State.null_fusion x).symm ▸ hx⟩
  obtain ⟨z, hz, -, hmax⟩ := exists_maximal hnull
  exact ⟨z, mem_maximalCompatibleParts.2 ⟨hz, hmax⟩⟩

/-- There is an alternative for every possible state of the space. -/
theorem exists_alternative (hw : w ∈ m.space.states) (hx : x ∈ m.possible) (hspace : x ∈ m.space.states) :
    ∃ u, u ∈ m.alternatives w x := by
  obtain ⟨z, hz⟩ := exists_maximalCompatiblePart w hx
  obtain ⟨hzw, hzx⟩ := mem_compatibleParts.1 (mem_maximalCompatibleParts.1 hz).1
  obtain ⟨hn, hwn⟩ := StateSpace.mem_states.1 hw
  have hfusion : z.fusion x ∈ m.space.states := StateSpace.mem_states.2
    ⟨hn, StateSpace.fusion_lt (StateSpace.lt_of_isPartOf hzw hwn) (StateSpace.mem_states.1 hspace).2⟩
  obtain ⟨u, hu, hpart⟩ := exists_world hzx hfusion
  obtain ⟨hzu, hxu⟩ := State.fusion_isPartOf.1 hpart
  exact ⟨u, mem_alternatives.2 ⟨hu, hxu, z, hz, hzu⟩⟩

/-- All of a world is compatible with its parts. -/
theorem mem_compatibleParts_self (hw : w ∈ m.worlds) (hx : x.isPartOf w = true) : w ∈ m.compatibleParts w x := by
  have hfusion : w.fusion x = w :=
    State.isPartOf_antisymm (State.fusion_isPartOf.2 ⟨State.isPartOf_refl w, hx⟩) (State.isPartOf_fusion_left w x)
  rw [mem_compatibleParts, hfusion]
  exact ⟨State.isPartOf_refl w, possible_of_mem_worlds hw⟩

/-- A world is its own alternative for its parts. -/
theorem mem_alternatives_self (hw : w ∈ m.worlds) (hx : x.isPartOf w = true) : w ∈ m.alternatives w x := by
  have hcompatible := mem_compatibleParts_self hw hx
  refine mem_alternatives.2 ⟨hw, hx, w, mem_maximalCompatibleParts.2 ⟨hcompatible, fun y hy hwy => ?_⟩, State.isPartOf_refl w⟩
  exact State.isPartOf_antisymm (mem_compatibleParts.1 hy).1 hwy

/-- Every world results from imposing it whole. -/
theorem mem_alternatives_world (hw : w ∈ m.space.states) (hu : u ∈ m.worlds) : u ∈ m.alternatives w u := by
  obtain ⟨hspace, hworld⟩ := mem_worlds.1 hu
  obtain ⟨hpossible, hmax⟩ := isWorld_iff.1 hworld
  obtain ⟨v, hv⟩ := exists_alternative hw hpossible hspace
  -- the alternative has the world as a part, so it is the world
  obtain ⟨hvw, huv, -⟩ := mem_alternatives.1 hv
  exact hmax v (possible_of_mem_worlds hvw) huv (mem_worlds.1 hvw).1 ▸ hv

/-- An alternative is one also when more of it is imposed. -/
theorem alternatives_mono (hm : m.PartClosed) (hu : u ∈ m.alternatives w x) (hxy : x.isPartOf y = true)
    (hyu : y.isPartOf u = true) : u ∈ m.alternatives w y := by
  obtain ⟨hworld, -, z, hz, hzu⟩ := mem_alternatives.1 hu
  obtain ⟨hcompatible, hmax⟩ := mem_maximalCompatibleParts.1 hz
  have hpossible : z.fusion y ∈ m.possible :=
    hm u (possible_of_mem_worlds hworld) _ (State.fusion_isPartOf.2 ⟨hzu, hyu⟩)
  have hzy : z ∈ m.compatibleParts w y := mem_compatibleParts.2 ⟨(mem_compatibleParts.1 hcompatible).1, hpossible⟩
  -- what is compatible with more is compatible with less
  refine mem_alternatives.2 ⟨hworld, hyu, z, mem_maximalCompatibleParts.2 ⟨hzy, fun v hv hzv => hmax v ?_ hzv⟩, hzu⟩
  obtain ⟨hvw, hvy⟩ := mem_compatibleParts.1 hv
  have hpart : (v.fusion x).isPartOf (v.fusion y) = true := State.fusion_isPartOf.2
    ⟨State.isPartOf_fusion_left v y, State.isPartOf_trans hxy (State.isPartOf_fusion_right v y)⟩
  exact mem_compatibleParts.2 ⟨hvw, hm _ hvy _ hpart⟩

end Countermodels.Truthmaker.Model
