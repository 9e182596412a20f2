import Countermodels.State.Set
import Countermodels.State.Word
import Mathlib

/-! Parts of states. A state is the set of its bits: to be a part is to be a subset, and a fusion is a
union. A state can be taken apart, and built up, one atomic state at a time. -/

namespace Countermodels

namespace State

theorem ext_bits {s t : State} (h : ∀ i, s.bits.testBit i = t.bits.testBit i) : s = t := by
  obtain ⟨s⟩ := s
  obtain ⟨t⟩ := t
  exact congrArg mk (Nat.eq_of_testBit_eq h)

@[simp] theorem testBit_fusion (s t : State) (i : Nat) :
    (s.fusion t).bits.testBit i = (s.bits.testBit i || t.bits.testBit i) := Nat.testBit_or ..

@[simp] theorem testBit_common (s t : State) (i : Nat) :
    (s.common t).bits.testBit i = (s.bits.testBit i && t.bits.testBit i) := Nat.testBit_and ..

@[simp] theorem testBit_without (s t : State) (i : Nat) :
    (s.without t).bits.testBit i = (s.bits.testBit i && !t.bits.testBit i) := by
  simp only [without, Nat.testBit_xor, Nat.testBit_and]
  cases s.bits.testBit i <;> cases t.bits.testBit i <;> rfl

@[simp] theorem testBit_null (i : Nat) : null.bits.testBit i = false := Nat.zero_testBit i

theorem testBit_atom (i j : Nat) : (1 <<< i).testBit j = decide (i = j) := by
  rw [Nat.one_shiftLeft, Nat.testBit_two_pow]

theorem isPartOf_iff {s t : State} :
    s.isPartOf t = true ↔ ∀ i, s.bits.testBit i = true → t.bits.testBit i = true := by
  rw [isPartOf, beq_iff_eq]
  constructor
  · intro h i hi
    rw [← h, Nat.testBit_or, hi, Bool.true_or]
  · intro h
    refine Nat.eq_of_testBit_eq fun i => ?_
    rw [Nat.testBit_or]
    cases hi : s.bits.testBit i with
    | false => rw [Bool.false_or]
    | true => rw [h i hi, Bool.true_or]

@[simp] theorem isPartOf_refl (s : State) : s.isPartOf s = true := isPartOf_iff.2 fun _ h => h

@[simp] theorem null_isPartOf (s : State) : null.isPartOf s = true :=
  isPartOf_iff.2 fun i h => by simp at h

theorem isPartOf_trans {s t u : State} (h : s.isPartOf t = true) (h' : t.isPartOf u = true) :
    s.isPartOf u = true := isPartOf_iff.2 fun i hi => isPartOf_iff.1 h' i (isPartOf_iff.1 h i hi)

theorem bits_le_of_isPartOf {s t : State} (h : s.isPartOf t = true) : s.bits ≤ t.bits := by
  rw [isPartOf, beq_iff_eq] at h
  exact h ▸ Nat.left_le_or

theorem isPartOf_antisymm {s t : State} (h : s.isPartOf t = true) (h' : t.isPartOf s = true) : s = t :=
  congrArg mk (Nat.le_antisymm (bits_le_of_isPartOf h) (bits_le_of_isPartOf h'))

theorem fusion_isPartOf {s t u : State} :
    (s.fusion t).isPartOf u = true ↔ s.isPartOf u = true ∧ t.isPartOf u = true := by
  simp only [isPartOf_iff, testBit_fusion, Bool.or_eq_true, or_imp, forall_and]

theorem isPartOf_common {s t u : State} :
    s.isPartOf (t.common u) = true ↔ s.isPartOf t = true ∧ s.isPartOf u = true := by
  simp only [isPartOf_iff, testBit_common, Bool.and_eq_true, imp_and, forall_and]

theorem isPartOf_fusion_left (s t : State) : s.isPartOf (s.fusion t) = true :=
  (fusion_isPartOf.1 (isPartOf_refl _)).1

theorem isPartOf_fusion_right (s t : State) : t.isPartOf (s.fusion t) = true :=
  (fusion_isPartOf.1 (isPartOf_refl _)).2

theorem fusion_mono_left {s t : State} (u : State) (h : s.isPartOf t = true) :
    (s.fusion u).isPartOf (t.fusion u) = true :=
  fusion_isPartOf.2 ⟨isPartOf_trans h (isPartOf_fusion_left t u), isPartOf_fusion_right t u⟩

theorem fusion_comm (s t : State) : s.fusion t = t.fusion s := ext_bits fun i => by simp [Bool.or_comm]

theorem fusion_assoc (s t u : State) : (s.fusion t).fusion u = s.fusion (t.fusion u) :=
  ext_bits fun i => by simp [Bool.or_assoc]

theorem fusion_fusion_fusion_comm (s t u v : State) :
    (s.fusion t).fusion (u.fusion v) = (s.fusion u).fusion (t.fusion v) :=
  ext_bits fun i => by simp only [testBit_fusion, Bool.or_assoc, Bool.or_left_comm]

@[simp] theorem fusion_self (s : State) : s.fusion s = s := ext_bits fun i => by simp

@[simp] theorem null_fusion (s : State) : null.fusion s = s := ext_bits fun i => by simp

theorem atom_isPartOf {i : Nat} {s : State} :
    (mk (1 <<< i)).isPartOf s = true ↔ s.bits.testBit i = true := by
  rw [isPartOf_iff]
  simp only [testBit_atom, decide_eq_true_eq]
  exact ⟨fun h => h i rfl, fun h j hj => hj ▸ h⟩

theorem isProperPartOf_iff {s t : State} :
    s.isProperPartOf t = true ↔ s.isPartOf t = true ∧ s ≠ t := by
  rw [isProperPartOf, Bool.and_eq_true, bne_iff_ne]
  refine and_congr_right fun _ => not_congr ⟨fun h => ?_, fun h => h ▸ rfl⟩
  exact congrArg mk h

/-- A proper part lacks some atomic state of the whole. -/
theorem exists_testBit_of_ne {s t : State} (h : s.isPartOf t = true) (hne : s ≠ t) :
    ∃ i, t.bits.testBit i = true ∧ s.bits.testBit i = false := by
  by_contra hall
  refine hne (isPartOf_antisymm h (isPartOf_iff.2 fun i hi => ?_))
  by_contra hs
  exact hall ⟨i, hi, by simpa using hs⟩

/-- What passes from a state to the state without one of its atomic states passes to every part. -/
theorem part_induction {P : State → Prop}
    (step : ∀ s i, P s → s.bits.testBit i = true → P (s.without ⟨1 <<< i⟩)) {s t : State} (hs : P s)
    (h : t.isPartOf s = true) : P t := by
  induction hk : s.bits using Nat.strong_induction_on generalizing s with
  | _ k ih =>
    by_cases hts : t = s
    · exact hts ▸ hs
    obtain ⟨i, hi, hti⟩ := exists_testBit_of_ne h hts
    have hless : (s.without ⟨1 <<< i⟩).isPartOf s = true := isPartOf_iff.2 fun j hj => by simp_all
    have hne : (s.without ⟨1 <<< i⟩).bits ≠ s.bits := fun he => by
      have := congrArg (·.testBit i) he
      simp [hi] at this
    have hle := bits_le_of_isPartOf hless
    refine ih _ (by omega) (step s i hs hi) (isPartOf_iff.2 fun j hj => ?_) rfl
    have hij : i ≠ j := fun he => by simp [← he, hti] at hj
    simp [testBit_without, -Nat.testBit_shiftLeft, testBit_atom, isPartOf_iff.1 h j hj, hij]

/-- Going down from one part of a state, the next number cut to the state is its next part. -/
theorem le_pred_and {whole part t : Nat} (hp : part ||| whole = whole) (ht : t ||| whole = whole)
    (hlt : t < part) : t ≤ (part - 1) &&& whole := by
  induction part using Nat.strong_induction_on generalizing whole t with
  | _ part ih =>
    have hp2 : part / 2 ||| whole / 2 = whole / 2 := by rw [← Nat.or_div_two, hp]
    have ht2 : t / 2 ||| whole / 2 = whole / 2 := by rw [← Nat.or_div_two, ht]
    have htm : t % 2 = 1 → whole % 2 = 1 := fun h => by
      have := Nat.or_mod_two_eq_one (a := t) (b := whole)
      rw [ht] at this
      exact this.2 (.inl h)
    have hdiv := @Nat.and_div_two (part - 1) whole
    have hmod := Nat.and_mod_two_eq_one (a := part - 1) (b := whole)
    rcases Nat.mod_two_eq_zero_or_one part with he | ho
    · have hpred : (part - 1) / 2 = part / 2 - 1 := by omega
      have hbelow := ih (part / 2) (by omega) hp2 ht2 (by omega)
      rw [hpred] at hdiv
      omega
    · have hpred : (part - 1) / 2 = part / 2 := by omega
      have hsame : part / 2 &&& whole / 2 = part / 2 := by
        rw [← hp2]
        refine Nat.eq_of_testBit_eq fun i => ?_
        rw [Nat.testBit_and, Nat.testBit_or]
        cases (part / 2).testBit i <;> rfl
      rw [hpred, hsame] at hdiv
      omega

theorem mem_partsBelow {whole part : Nat} {found : List State} {t : State}
    (hp : part ||| whole = whole) :
    t ∈ partsBelow whole part found ↔ t.bits ≤ part ∧ t.bits ||| whole = whole ∨ t ∈ found := by
  fun_induction partsBelow whole part found with
  | case1 found =>
    rw [List.mem_cons]
    refine or_congr_left ⟨fun h => h ▸ ⟨Nat.le_refl _, hp⟩, fun h => ?_⟩
    exact congrArg mk (Nat.le_zero.1 h.1)
  | case2 part found hne ih =>
    have hnext : (part - 1) &&& whole ||| whole = whole := by
      refine Nat.eq_of_testBit_eq fun i => ?_
      rw [Nat.testBit_or, Nat.testBit_and]
      cases whole.testBit i <;> simp
    have hle : (part - 1) &&& whole ≤ part - 1 := Nat.and_le_left
    rw [ih hnext, List.mem_cons]
    constructor
    · rintro (⟨h, ht⟩ | rfl | h)
      · exact .inl ⟨by omega, ht⟩
      · exact .inl ⟨Nat.le_refl _, hp⟩
      · exact .inr h
    · rintro (⟨h, ht⟩ | h)
      · rcases Nat.lt_or_eq_of_le h with hlt | heq
        · exact .inl ⟨le_pred_and hp ht hlt, ht⟩
        · exact .inr (.inl (congrArg mk heq))
      · exact .inr (.inr h)

@[simp] theorem mem_parts {s t : State} : t ∈ s.parts ↔ t.isPartOf s = true := by
  rw [parts, mem_partsBelow (Nat.or_self _), isPartOf, beq_iff_eq]
  simp only [List.not_mem_nil, or_false, and_iff_right_iff_imp]
  exact fun h => h ▸ Nat.left_le_or

@[simp] theorem mem_decompositions {s a b : State} : (a, b) ∈ s.decompositions ↔ a.fusion b = s := by
  simp only [decompositions, List.mem_flatMap, List.mem_map, List.mem_filter, mem_parts,
    decide_eq_true_eq, Prod.mk.injEq]
  constructor
  · rintro ⟨x, -, y, ⟨-, hy⟩, rfl, rfl⟩
    exact hy
  · rintro rfl
    exact ⟨a, isPartOf_fusion_left a b, b, ⟨isPartOf_fusion_right a b, rfl⟩, rfl, rfl⟩

end State

namespace StateSpace

variable {space : StateSpace} {s t : State}

theorem size_eq (space : StateSpace) : space.size = 2 ^ space.n := Nat.one_shiftLeft _

/-- A machine counts the states right, as long as their number is a word. -/
theorem count_eq (hn : space.n < 64) : space.count = .ok space.size := if_pos hn

theorem size_pos (space : StateSpace) : 0 < space.size := by
  rw [size_eq]
  positivity

theorem fusion_lt (hs : s.bits < space.size) (ht : t.bits < space.size) :
    (s.fusion t).bits < space.size := by
  rw [size_eq] at *
  exact Nat.or_lt_two_pow hs ht

theorem lt_of_isPartOf (h : s.isPartOf t = true) (ht : t.bits < space.size) : s.bits < space.size :=
  Nat.lt_of_le_of_lt (State.bits_le_of_isPartOf h) ht

theorem testBit_lt (hs : s.bits < space.size) {i : Nat} (hi : s.bits.testBit i = true) :
    i < space.n := by
  by_contra h
  rw [size_eq] at hs
  have hle : 2 ^ space.n ≤ 2 ^ i := Nat.pow_le_pow_right (by omega) (by omega)
  rw [Nat.testBit_lt_two_pow (Nat.lt_of_lt_of_le hs hle)] at hi
  cases hi

theorem atom_lt {i : Nat} (hi : i < space.n) : 1 <<< i < space.size := by
  rw [size_eq, Nat.one_shiftLeft]
  exact Nat.pow_lt_pow_right (by omega) hi

@[simp] theorem mem_states : s ∈ space.states ↔ space.n < 32 ∧ s.bits < space.size := by
  rw [states]
  split
  · next h =>
    simp only [h, List.mem_map, List.mem_range, true_and]
    exact ⟨fun hs => by obtain ⟨k, hk, rfl⟩ := hs; exact hk, fun hs => ⟨s.bits, hs, rfl⟩⟩
  · next h => simp [h]

theorem nodup_states (space : StateSpace) : space.states.Nodup := by
  rw [states]
  split
  · exact List.nodup_range.map fun i j h => by simpa using h
  · exact List.nodup_nil

theorem contains_iff : space.contains s = true ↔ s ∈ space.states := by
  rw [mem_states, contains, Bool.and_eq_true, decide_eq_true_eq, decide_eq_true_eq]

theorem mem_atoms : s ∈ space.atoms ↔ ∃ i < space.n, s = ⟨1 <<< i⟩ := by
  simp only [atoms, List.mem_map, List.mem_range, eq_comm]

theorem mem_extensions :
    s ∈ space.extensions t ↔ ∃ i < space.n, t.bits.testBit i = false ∧ s = ⟨1 <<< i⟩ := by
  rw [extensions, List.mem_filter, mem_atoms]
  constructor
  · rintro ⟨⟨i, hi, rfl⟩, h⟩
    refine ⟨i, hi, ?_, rfl⟩
    rw [Bool.not_eq_true', ← Bool.not_eq_true, State.atom_isPartOf] at h
    simpa using h
  · rintro ⟨i, hi, h, rfl⟩
    refine ⟨⟨i, hi, rfl⟩, ?_⟩
    rw [Bool.not_eq_true', ← Bool.not_eq_true, State.atom_isPartOf, h]
    simp

/-- A state that is a proper part of another in the space can be extended by an atomic state within the
other. -/
theorem exists_extension (ht : t.bits < space.size) (h : s.isPartOf t = true) (hne : s ≠ t) :
    ∃ i < space.n, s.bits.testBit i = false ∧ t.bits.testBit i = true ∧
      (s.fusion ⟨1 <<< i⟩).isPartOf t = true := by
  obtain ⟨i, hi, hs⟩ := State.exists_testBit_of_ne h hne
  exact ⟨i, testBit_lt ht hi, hs, hi, State.fusion_isPartOf.2 ⟨h, State.atom_isPartOf.2 hi⟩⟩

end StateSpace

namespace StateSet

variable {s : State} {a b : StateSet}

theorem ne_of_lt_bits {s t : State} (h : s < t) : s ≠ t := by
  rintro rfl
  exact Nat.lt_irrefl _ h

@[ext] theorem ext_mem (h : ∀ s, s ∈ a ↔ s ∈ b) : a = b := by
  obtain ⟨as, ha⟩ := a
  obtain ⟨bs, hb⟩ := b
  have hperm : as.Perm bs := by
    refine (List.perm_ext_iff_of_nodup ?_ ?_).2 h
    · exact List.nodup_iff_pairwise_ne.2 (ha.imp ne_of_lt_bits)
    · exact List.nodup_iff_pairwise_ne.2 (hb.imp ne_of_lt_bits)
  have heq : as = bs := hperm.eq_of_pairwise (fun x y _ _ hxy hyx => absurd hxy (Nat.lt_asymm hyx)) ha hb
  subst heq
  rfl

theorem mem_def : s ∈ a ↔ s ∈ a.elems := Iff.rfl

@[simp] theorem mem_singleton {t : State} : s ∈ singleton t ↔ s = t := List.mem_singleton

@[simp] theorem mem_filter {p : State → Bool} : s ∈ a.filter p ↔ s ∈ a ∧ p s = true := List.mem_filter

@[simp] theorem mem_union : s ∈ a.union b ↔ s ∈ a ∨ s ∈ b := by
  rw [union, mem_ofList, List.mem_append, mem_def, mem_def]

@[simp] theorem mem_fusions : s ∈ a.fusions b ↔ ∃ x ∈ a, ∃ y ∈ b, x.fusion y = s := by
  rw [fusions, mem_ofList, List.mem_flatMap]
  simp only [List.mem_map, mem_def]

@[simp] theorem mem_ofSpace {space : StateSpace} : s ∈ ofSpace space ↔ s ∈ space.states := mem_ofList

end StateSet

end Countermodels
