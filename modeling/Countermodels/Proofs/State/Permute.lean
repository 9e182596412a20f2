import Countermodels.Proofs.State.Parts

/-! Permutations of the atomic states. They act on states, and on sets of states of one space; an exchange
of two bits is a permutation. -/

namespace Countermodels

variable {space : StateSpace} {π ρ : Equiv.Perm (Fin space.n)} {s t : State} {i j : Nat}

namespace State

/-- The state that has an atomic state as a part just if the other has the one it comes from. -/
def permute (π : Equiv.Perm (Fin space.n)) (s : State) : State :=
  ⟨Nat.ofBits fun i => s.bits.testBit (π.symm i)⟩

theorem testBit_permute_fin (π : Equiv.Perm (Fin space.n)) (s : State) (i : Fin space.n) :
    (s.permute π).bits.testBit i = s.bits.testBit (π.symm i) := by
  rw [permute, Nat.testBit_ofBits_lt _ _ i.isLt]

theorem permute_lt (π : Equiv.Perm (Fin space.n)) (s : State) : (s.permute π).bits < space.size := by
  rw [StateSpace.size_eq]
  exact Nat.ofBits_lt_two_pow _

/-- States of a space are equal if their parts are. -/
theorem ext_fin (hs : s.bits < space.size) (ht : t.bits < space.size)
    (h : ∀ i : Fin space.n, s.bits.testBit i = t.bits.testBit i) : s = t := by
  refine ext_bits fun i => ?_
  by_cases hi : i < space.n
  · exact h ⟨i, hi⟩
  · have hout : ∀ {u : State}, u.bits < space.size → u.bits.testBit i = false := fun {u} hu => by
      by_contra hbit
      exact hi (StateSpace.testBit_lt hu (by simpa using hbit))
    rw [hout hs, hout ht]

theorem isPartOf_iff_fin (hs : s.bits < space.size) :
    s.isPartOf t = true ↔ ∀ i : Fin space.n, s.bits.testBit i = true → t.bits.testBit i = true := by
  rw [isPartOf_iff]
  exact ⟨fun h i => h i, fun h i hi => h ⟨i, StateSpace.testBit_lt hs hi⟩ hi⟩

@[simp] theorem permute_fusion (π : Equiv.Perm (Fin space.n)) (s t : State) :
    (s.fusion t).permute π = (s.permute π).fusion (t.permute π) :=
  ext_fin (permute_lt π _) (StateSpace.fusion_lt (permute_lt π _) (permute_lt π _)) fun i => by
    simp only [testBit_fusion, testBit_permute_fin]

@[simp] theorem permute_null (π : Equiv.Perm (Fin space.n)) : null.permute π = null :=
  ext_fin (permute_lt π _) space.size_pos fun i => by simp [testBit_permute_fin]

theorem permute_mul (π ρ : Equiv.Perm (Fin space.n)) (s : State) :
    s.permute (ρ * π) = (s.permute π).permute ρ :=
  ext_fin (permute_lt _ _) (permute_lt _ _) fun i => by
    simp only [testBit_permute_fin]
    rfl

theorem permute_one (hs : s.bits < space.size) : s.permute (1 : Equiv.Perm (Fin space.n)) = s :=
  ext_fin (permute_lt _ _) hs fun i => by
    rw [testBit_permute_fin]
    rfl

theorem permute_inv_permute (π : Equiv.Perm (Fin space.n)) (hs : s.bits < space.size) :
    (s.permute π⁻¹).permute π = s := by
  rw [← permute_mul, mul_inv_cancel, permute_one hs]

theorem permute_permute_inv (π : Equiv.Perm (Fin space.n)) (hs : s.bits < space.size) :
    (s.permute π).permute π⁻¹ = s := by
  rw [← permute_mul, inv_mul_cancel, permute_one hs]

theorem permute_inj (hs : s.bits < space.size) (ht : t.bits < space.size) :
    s.permute π = t.permute π ↔ s = t :=
  ⟨fun h => by rw [← permute_permute_inv π hs, h, permute_permute_inv π ht], fun h => h ▸ rfl⟩

theorem isPartOf_permute (hs : s.bits < space.size) :
    (s.permute π).isPartOf (t.permute π) = s.isPartOf t := by
  rw [Bool.eq_iff_iff, isPartOf_iff_fin (permute_lt π s), isPartOf_iff_fin hs]
  simp only [testBit_permute_fin]
  exact ⟨fun h i => by simpa using h (π i), fun h i => h (π.symm i)⟩

theorem overlaps_iff : s.overlaps t = true ↔ ∃ i, s.bits.testBit i = true ∧ t.bits.testBit i = true := by
  have hbits : ∀ i, (s.bits &&& t.bits).testBit i = true ↔ s.bits.testBit i = true ∧ t.bits.testBit i = true :=
    fun i => by rw [Nat.testBit_and, Bool.and_eq_true]
  rw [overlaps, bne_iff_ne]
  constructor
  · intro h
    obtain ⟨i, hi⟩ := Nat.exists_testBit_of_ne_zero h
    exact ⟨i, (hbits i).1 hi⟩
  · rintro ⟨i, hi⟩ h
    have hbit := (hbits i).2 hi
    rw [h, Nat.zero_testBit] at hbit
    cases hbit

theorem overlaps_permute (hs : s.bits < space.size) :
    (s.permute π).overlaps (t.permute π) = s.overlaps t := by
  rw [Bool.eq_iff_iff, overlaps_iff, overlaps_iff]
  constructor
  · rintro ⟨i, hi⟩
    have hlt := StateSpace.testBit_lt (permute_lt π s) hi.1
    have hbit := fun u : State => testBit_permute_fin π u ⟨i, hlt⟩
    exact ⟨π.symm ⟨i, hlt⟩, (hbit s).symm.trans hi.1, (hbit t).symm.trans hi.2⟩
  · rintro ⟨i, hi⟩
    have hlt := StateSpace.testBit_lt hs hi.1
    refine ⟨π ⟨i, hlt⟩, ?_, ?_⟩ <;> rw [testBit_permute_fin, Equiv.symm_apply_apply]
    exacts [hi.1, hi.2]

theorem testBit_swapBits (s : State) (i j k : Nat) : (s.swapBits i j).bits.testBit k =
    if k = i then s.bits.testBit j else if k = j then s.bits.testBit i else s.bits.testBit k := by
  have hdiffer : ∀ e, ((((s.bits >>> i) ^^^ (s.bits >>> j)) &&& 1) <<< e).testBit k =
      (decide (k = e) && (s.bits.testBit i != s.bits.testBit j)) := by
    intro e
    rw [Nat.testBit_shiftLeft, Nat.testBit_and, Nat.testBit_xor]
    by_cases hk : k = e
    · subst hk
      simp
    · by_cases hle : k ≥ e
      · have hone : Nat.testBit 1 (k - e) = false := by
          rw [← Bool.not_eq_true, Nat.testBit_one_eq_true_iff_self_eq_zero]
          omega
        simp [hk, hone]
      · simp [hk, hle]
  show (s.bits ^^^ (_ ||| _)).testBit k = _
  rw [Nat.testBit_xor, Nat.testBit_or, hdiffer, hdiffer]
  by_cases hi : k = i
  · subst hi
    cases s.bits.testBit k <;> cases s.bits.testBit j <;> simp
  · by_cases hj : k = j
    · subst hj
      cases s.bits.testBit k <;> cases s.bits.testBit i <;> simp [hi]
    · simp [hi, hj]

/-- An exchange of two bits is a permutation. -/
theorem swapBits_eq_permute (hs : s.bits < space.size) (a b : Fin space.n) :
    s.swapBits a b = s.permute (Equiv.swap a b) := by
  have hlt : (s.swapBits a b).bits < space.size := by
    rw [StateSpace.size_eq]
    refine Nat.lt_pow_two_of_testBit _ fun k hk => ?_
    rw [testBit_swapBits, if_neg (by omega), if_neg (by omega)]
    by_contra hbit
    have := StateSpace.testBit_lt hs (i := k) (by simpa using hbit)
    omega
  refine ext_fin hlt (permute_lt _ _) fun k => ?_
  rw [testBit_permute_fin, testBit_swapBits, Equiv.symm_swap, Equiv.swap_apply_def]
  simp only [Fin.val_inj]
  split_ifs <;> rfl

end State

namespace StateSet

/-- The images of the members. -/
def permute (π : Equiv.Perm (Fin space.n)) (a : StateSet) : StateSet :=
  ofList (a.elems.map (State.permute π))

variable {a : StateSet}

theorem mem_permute : t ∈ a.permute π ↔ ∃ s ∈ a, s.permute π = t := by
  rw [permute, mem_ofList, List.mem_map]
  rfl

theorem permute_mem_permute (ha : ∀ s ∈ a, s ∈ space.states) (hs : s.bits < space.size) :
    s.permute π ∈ a.permute π ↔ s ∈ a := by
  rw [mem_permute]
  constructor
  · rintro ⟨t, ht, heq⟩
    exact (State.permute_inj (StateSpace.mem_states.1 (ha t ht)).2 hs).1 heq ▸ ht
  · exact fun h => ⟨s, h, rfl⟩

theorem permute_located (ha : ∀ s ∈ a, s ∈ space.states) : ∀ t ∈ a.permute π, t ∈ space.states := by
  intro t ht
  obtain ⟨s, hs, rfl⟩ := mem_permute.1 ht
  exact StateSpace.mem_states.2 ⟨(StateSpace.mem_states.1 (ha s hs)).1, State.permute_lt π s⟩

theorem permute_mul (π ρ : Equiv.Perm (Fin space.n)) (a : StateSet) :
    a.permute (ρ * π) = (a.permute π).permute ρ := by
  ext t
  simp only [mem_permute, exists_exists_and_eq_and, State.permute_mul]

end StateSet

end Countermodels
