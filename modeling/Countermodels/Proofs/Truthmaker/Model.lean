import Countermodels.Proofs.State.Parts
import Countermodels.Truthmaker.Model

/-! Worlds and alternatives, one atomic state at a time. Where parts of possible states are possible, a
possible state is maximal as soon as no atomic state can be added to it. -/

namespace Countermodels.Truthmaker

namespace Model

variable {m : Model} {s t u w x z : State}

/-- The possible states belong to the space, and so do their parts. -/
structure Hereditary (m : Model) : Prop where
  mem_states : ∀ s ∈ m.possible, s ∈ m.space.states
  part : ∀ s ∈ m.possible, ∀ t, t.isPartOf s = true → t ∈ m.possible

theorem isPossible_iff : m.isPossible s = true ↔ s ∈ m.possible := by
  rw [isPossible, decide_eq_true_eq]

theorem isWorld_iff : m.isWorld s = true ↔
    s ∈ m.possible ∧ ∀ t ∈ m.possible, s.isPartOf t = true → t ∈ m.space.states → t = s := by
  rw [isWorld, Bool.and_eq_true, isPossible_iff, List.all_eq_true]
  refine and_congr_right fun _ => forall₂_congr fun t _ => ?_
  rw [Bool.or_eq_true, decide_eq_true_eq, Bool.not_eq_true', ← Bool.not_eq_true, Bool.and_eq_true,
    StateSpace.contains_iff]
  tauto

/-- A world is a possible state to which no atomic state can be added. -/
theorem isWorld_iff_extensions (hm : m.Hereditary) : m.isWorld s = true ↔
    s ∈ m.possible ∧ ∀ e ∈ m.space.extensions s, s.fusion e ∉ m.possible := by
  rw [isWorld_iff]
  refine and_congr_right fun hs => ⟨fun h e he hse => ?_, fun h t ht hst _ => ?_⟩
  · obtain ⟨i, hi, hsi, rfl⟩ := StateSpace.mem_extensions.1 he
    have heq := h _ hse (State.isPartOf_fusion_left _ _) (hm.mem_states _ hse)
    have hbit : (s.fusion ⟨1 <<< i⟩).bits.testBit i = true := by
      rw [State.testBit_fusion, State.testBit_atom]
      simp
    rw [heq, hsi] at hbit
    cases hbit
  · by_contra hne
    have htn := (StateSpace.mem_states.1 (hm.mem_states t ht)).2
    obtain ⟨i, hi, hsi, -, hpart⟩ := StateSpace.exists_extension htn hst fun he => hne he.symm
    exact h _ (StateSpace.mem_extensions.2 ⟨i, hi, hsi, rfl⟩) (hm.part t ht _ hpart)

theorem mem_worlds : u ∈ m.worlds ↔ u ∈ m.space.states ∧ m.isWorld u = true := by
  rw [worlds, List.mem_filter, Bool.and_eq_true, StateSpace.contains_iff]
  exact ⟨fun h => h.2, fun h => ⟨(isWorld_iff.1 h.2).1, h⟩⟩

theorem mem_compatibleParts :
    z ∈ m.compatibleParts w x ↔ z.isPartOf w = true ∧ z.fusion x ∈ m.possible := by
  rw [compatibleParts, List.mem_filter, State.mem_parts, isPossible_iff]

theorem mem_maximalCompatibleParts : z ∈ m.maximalCompatibleParts w x ↔
    z ∈ m.compatibleParts w x ∧ ∀ y ∈ m.compatibleParts w x, z.isPartOf y = true → y = z := by
  rw [maximalCompatibleParts, List.mem_filter, Bool.not_eq_true', List.any_eq_false]
  refine and_congr_right fun _ => forall₂_congr fun y _ => ?_
  rw [State.isProperPartOf_iff, not_and, not_not, eq_comm (a := y)]

/-- A compatible part is maximal as soon as no atomic state of the whole can be added to it. -/
theorem mem_maximalCompatibleParts_iff (hm : m.Hereditary) (hw : w.bits < m.space.size) :
    z ∈ m.maximalCompatibleParts w x ↔ z.isPartOf w = true ∧ z.fusion x ∈ m.possible ∧
      ∀ e ∈ m.space.atoms, e.isPartOf w = true → e.isPartOf z = false →
        (z.fusion e).fusion x ∉ m.possible := by
  rw [mem_maximalCompatibleParts, mem_compatibleParts, and_assoc]
  refine and_congr_right fun hz => and_congr_right fun _ => ⟨fun h e he hew hez hex => ?_, fun h y hy hzy => ?_⟩
  · have hy := mem_compatibleParts.2 ⟨State.fusion_isPartOf.2 ⟨hz, hew⟩, hex⟩
    have heq := h _ hy (State.isPartOf_fusion_left _ _)
    have hpart := State.isPartOf_fusion_right z e
    rw [heq, hez] at hpart
    cases hpart
  · obtain ⟨hyw, hyx⟩ := mem_compatibleParts.1 hy
    by_contra hne
    have hyn := StateSpace.lt_of_isPartOf hyw hw
    obtain ⟨i, hi, hzi, hyi, hpart⟩ := StateSpace.exists_extension hyn hzy fun he => hne he.symm
    have hiw : (State.mk (1 <<< i)).isPartOf w = true :=
      State.isPartOf_trans (State.atom_isPartOf.2 hyi) hyw
    have hiz : (State.mk (1 <<< i)).isPartOf z = false := by
      rw [← Bool.not_eq_true, State.atom_isPartOf, hzi]
      simp
    exact h _ (StateSpace.mem_atoms.2 ⟨i, hi, rfl⟩) hiw hiz
      (hm.part _ hyx _ (State.fusion_mono_left x hpart))

theorem mem_alternatives : u ∈ m.alternatives w x ↔ u ∈ m.worlds ∧ x.isPartOf u = true ∧
    ∃ z ∈ m.maximalCompatibleParts w x, z.isPartOf u = true := by
  rw [alternatives, List.mem_filter, Bool.and_eq_true, List.any_eq_true]

theorem counting_eq {α : Type} (hn : m.space.n < 64) (r : α) : m.counting r = .ok r := by
  rw [counting, StateSpace.count_eq hn]
  rfl

end Model

end Countermodels.Truthmaker
