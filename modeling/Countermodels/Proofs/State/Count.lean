import Countermodels.Proofs.State.Parts

/-! How many parts a state has, and in how many ways it is a fusion. The parts come in ascending order, so none
comes twice. Read as sets of bits they are the subsets of a finite set, and what can be fused with one of them to the
whole state are the sets between the rest of the state and the state. -/

namespace Countermodels.State

variable {s a : State}

/-! ### Order -/

/-- Going down collects the parts in ascending order, before all that were found above. -/
theorem pairwise_partsBelow {whole part : Nat} {found : List State} (hfound : found.Pairwise (· < ·))
    (habove : ∀ t ∈ found, part < t.bits) : (partsBelow whole part found).Pairwise (· < ·) := by
  fun_induction partsBelow whole part found with
  | case1 found => exact List.pairwise_cons.2 ⟨habove, hfound⟩
  | case2 part found hne ih =>
    have hle : (part - 1) &&& whole ≤ part - 1 := Nat.and_le_left
    refine ih (List.pairwise_cons.2 ⟨habove, hfound⟩) fun t ht => ?_
    rcases List.mem_cons.1 ht with rfl | ht
    · show (part - 1) &&& whole < part
      omega
    · have := habove t ht
      omega

theorem pairwise_parts (s : State) : s.parts.Pairwise (· < ·) :=
  pairwise_partsBelow List.Pairwise.nil fun t ht => by simp at ht

theorem nodup_parts (s : State) : s.parts.Nodup := (pairwise_parts s).imp StateSet.ne_of_lt_bits

theorem nodup_decompositions (s : State) : s.decompositions.Nodup := by
  refine List.nodup_flatMap.2 ⟨fun a _ => ?_, (nodup_parts s).imp fun {a a'} hne => ?_⟩
  · exact ((nodup_parts s).filter _).map (Prod.mk_right_injective a)
  · intro p hp hp'
    obtain ⟨b, -, rfl⟩ := List.mem_map.1 hp
    obtain ⟨b', -, heq⟩ := List.mem_map.1 hp'
    exact hne (congrArg Prod.fst heq).symm

/-! ### States as sets of bits -/

/-- The places of the ones of a state. -/
def bitSet (s : State) : Finset ℕ := s.bits.bitIndices.toFinset

@[simp] theorem mem_bitSet {i : ℕ} : i ∈ s.bitSet ↔ s.bits.testBit i = true := by simp [bitSet]

theorem bitSet_injective : Function.Injective bitSet := by
  intro s t h
  refine ext_bits fun i => ?_
  rw [Bool.eq_iff_iff, ← mem_bitSet, h, mem_bitSet]

theorem bitSet_surjective : Function.Surjective bitSet := fun A =>
  ⟨⟨∑ i ∈ A, 2 ^ i⟩, Finset.toFinset_bitIndices_sum_two_pow A⟩

theorem isPartOf_iff_bitSet : a.isPartOf s = true ↔ a.bitSet ⊆ s.bitSet := by
  simp only [isPartOf_iff, Finset.subset_iff, mem_bitSet]

theorem countOnes_eq_length (n : Nat) : countOnes n = n.bitIndices.length := by
  induction n using Nat.strong_induction_on with
  | _ n ih =>
    rw [countOnes]
    split
    · next h => simp [h]
    · next h =>
      rw [ih (n / 2) (by omega)]
      -- the lowest bit counts or not, and all others move down by one place
      rcases Nat.mod_two_eq_zero_or_one n with hlow | hlow
      · conv_rhs => rw [← Nat.div_add_mod n 2, hlow, Nat.add_zero, Nat.bitIndices_two_mul, List.length_map]
        omega
      · conv_rhs => rw [← Nat.div_add_mod n 2, hlow, Nat.bitIndices_two_mul_add_one, List.length_cons, List.length_map]
        omega

theorem size_eq_card (s : State) : s.size = s.bitSet.card := by
  rw [size, countOnes_eq_length, bitSet, List.toFinset_card_of_nodup Nat.bitIndices_nodup]

/-! ### Counting -/

/-- A sum over the parts of a state is one over the subsets of its bits. -/
theorem sum_parts (s : State) (f : Finset ℕ → ℕ) :
    (s.parts.map fun a => f a.bitSet).sum = ∑ A ∈ s.bitSet.powerset, f A := by
  rw [← List.sum_toFinset _ (nodup_parts s)]
  refine Finset.sum_bij (fun a _ => a.bitSet) (fun a ha => ?_) (fun a _ b _ h => bitSet_injective h) (fun A hA => ?_)
    fun a _ => rfl
  · rw [List.mem_toFinset, mem_parts] at ha
    exact Finset.mem_powerset.2 (isPartOf_iff_bitSet.1 ha)
  · obtain ⟨a, rfl⟩ := bitSet_surjective A
    refine ⟨a, ?_, rfl⟩
    rw [List.mem_toFinset, mem_parts]
    exact isPartOf_iff_bitSet.2 (Finset.mem_powerset.1 hA)

theorem length_parts (s : State) : s.parts.length = 2 ^ s.size := by
  have hsum := sum_parts s fun _ => 1
  rw [List.map_const', List.sum_replicate, smul_eq_mul, Nat.mul_one, Finset.sum_const, smul_eq_mul, Nat.mul_one] at hsum
  rw [hsum, Finset.card_powerset, size_eq_card]

theorem testBit_rest (s a c : State) (i : ℕ) : ((s.without a).fusion c).bits.testBit i =
    (s.bits.testBit i && !a.bits.testBit i || c.bits.testBit i) := by
  rw [testBit_fusion, testBit_without]

/-- What can be fused with a part to the whole state is the rest of the state with a part of the part. -/
theorem fusion_eq_iff {b : State} (ha : a.isPartOf s = true) :
    a.fusion b = s ↔ ∃ c, c.isPartOf a = true ∧ (s.without a).fusion c = b := by
  constructor
  · rintro rfl
    refine ⟨a.common b, (isPartOf_common.1 (isPartOf_refl _)).1, ext_bits fun i => ?_⟩
    rw [testBit_rest, testBit_common, testBit_fusion]
    cases a.bits.testBit i <;> simp
  · rintro ⟨c, hc, rfl⟩
    refine ext_bits fun i => ?_
    have hai := isPartOf_iff.1 ha i
    have hci := isPartOf_iff.1 hc i
    rw [testBit_fusion, testBit_rest]
    grind

/-- Different parts of a part make a difference beside the rest. -/
theorem rest_fusion_inj {c c' : State} (hc : c.isPartOf a = true) (hc' : c'.isPartOf a = true)
    (h : (s.without a).fusion c = (s.without a).fusion c') : c = c' := by
  refine ext_bits fun i => ?_
  have hbit := congrArg (fun t : State => t.bits.testBit i) h
  have hci := isPartOf_iff.1 hc i
  have hci' := isPartOf_iff.1 hc' i
  simp only [testBit_rest] at hbit
  grind

theorem fillings_perm (ha : a.isPartOf s = true) :
    (s.parts.filter fun b => a.fusion b = s).Perm (a.parts.map (s.without a).fusion) := by
  have hnodup : (a.parts.map (s.without a).fusion).Nodup :=
    (nodup_parts a).map_on fun c hc c' hc' => rest_fusion_inj (mem_parts.1 hc) (mem_parts.1 hc')
  refine (List.perm_ext_iff_of_nodup ((nodup_parts s).filter _) hnodup).2 fun b => ?_
  simp only [List.mem_filter, List.mem_map, mem_parts, decide_eq_true_eq, ← fusion_eq_iff ha, and_iff_right_iff_imp]
  rintro rfl
  exact isPartOf_fusion_right a b

theorem length_decompositions (s : State) : s.decompositions.length = 3 ^ s.size := by
  rw [decompositions, List.length_flatMap]
  have hparts : (s.parts.map fun a => ((s.parts.filter fun b => a.fusion b = s).map fun b => (a, b)).length) =
      s.parts.map fun a => 2 ^ a.bitSet.card := by
    refine List.map_congr_left fun a ha => ?_
    rw [List.length_map, (fillings_perm (mem_parts.1 ha)).length_eq, List.length_map, length_parts, size_eq_card]
  have hpow := Finset.sum_pow_mul_eq_add_pow 2 1 s.bitSet
  simp only [one_pow, mul_one] at hpow
  rw [hparts, sum_parts s fun A => 2 ^ A.card, hpow, size_eq_card]

/-- The parts of a state are listed in ascending order, one for each choice of atomic states from it; the pairs whose
fusion it is are listed once each, one for each way to put every atomic state into the first, the second or both. -/
theorem parts_and_decompositions_are_exact (s : State) :
    (s.parts.Pairwise (· < ·) ∧ (∀ t, t ∈ s.parts ↔ t.fusion s = s) ∧ s.parts.length = 2 ^ s.size) ∧
    s.decompositions.Nodup ∧ (∀ a b, (a, b) ∈ s.decompositions ↔ a.fusion b = s) ∧
    s.decompositions.length = 3 ^ s.size := by
  refine ⟨⟨pairwise_parts s, fun t => ?_, length_parts s⟩, nodup_decompositions s, fun a b => mem_decompositions,
    length_decompositions s⟩
  rw [mem_parts, isPartOf, beq_iff_eq, fusion]
  exact ⟨congrArg mk, congrArg bits⟩

end Countermodels.State
