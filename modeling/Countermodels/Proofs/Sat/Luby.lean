import Countermodels.Proofs.Gives
import Countermodels.Sat.Schedule

/-! The exponents of the Luby sequence. A block has length `2 ^ (e + 1) - 1`, ends with its exponent `e`, and before
that is the block of the exponent below, twice. The index of an entry may be read in any block that reaches it, so
descending through the blocks computes the recursive definition of the sequence; up to the last index no number
leaves its word. -/

namespace Countermodels.Sat.Luby

variable {index e : Nat}

/-- The length of the block with an exponent. -/
def length (exponent : Nat) : Nat := 2 ^ (exponent + 1) - 1

theorem length_succ (exponent : Nat) : length (exponent + 1) = 2 * length exponent + 1 := by
  have := Nat.one_le_two_pow (n := exponent + 1)
  rw [length, length, Nat.pow_succ]
  omega

theorem length_add_one (exponent : Nat) : length exponent + 1 = 2 ^ (exponent + 1) :=
  Nat.sub_add_cancel Nat.one_le_two_pow

theorem length_pos (exponent : Nat) : 0 < length exponent := by
  have := Nat.one_le_two_pow (n := exponent)
  rw [length, Nat.pow_succ]
  omega

/-! ### The first block that reaches an index -/

/-- Doubling stops at a block that reaches the index, before a length leaves its word. -/
theorem block_gives {size exponent : Nat} (hindex : index + 1 < wordLimit) (hsize : size = length exponent)
    (hword : size < wordLimit) :
    Gives (block index size exponent) fun r => r.1 = length r.2 ∧ index < r.1 ∧ r.1 < wordLimit := by
  fun_induction block index size exponent with
  | case1 size exponent _ hfits ih => exact ih (by rw [hsize, length_succ]) hfits
  | case2 size exponent hlt hfull =>
    -- a block that is too short for a word is one of at most 31 bits, and the next one still fits
    have hpow : 2 ^ (exponent + 1) < 2 ^ 32 := by
      rw [length] at hsize
      change index + 1 < 2 ^ 32 at hindex
      omega
    have hle := Nat.pow_le_pow_right (n := 2) (by decide) (Nat.succ_le_of_lt ((Nat.pow_lt_pow_iff_right (by decide)).1 hpow))
    rw [hsize, ← length_succ, length] at hfull
    change ¬ _ < 2 ^ 32 at hfull
    omega
  | case3 size exponent hle => exact .ok ⟨hsize, by omega, hword⟩

/-- The exponent of a block whose length is a word. -/
theorem lt_of_length_lt (h : length e < wordLimit) : e < 32 := by
  have hpow : 2 ^ (e + 1) ≤ 2 ^ 32 := by
    rw [← length_add_one]
    exact h
  have := (Nat.pow_le_pow_iff_right (by decide)).1 hpow
  omega

/-! ### Descending through the blocks -/

/-- The last entry of a block has its exponent. -/
theorem within_last (h : index + 1 = length e) : within index (length e) e = .ok e := by
  rw [within, if_pos (by omega)]

/-- Before its last entry, a block is the block below, twice. -/
theorem within_succ (h : index < 2 * length e) :
    within index (length (e + 1)) (e + 1) = within (index % length e) (length e) e := by
  have hpos := length_pos e
  have hhalf : (length (e + 1) - 1) / 2 = length e := by
    rw [length_succ]
    omega
  rw [within.eq_def, if_neg (by rw [length_succ]; omega)]
  simp only [hhalf, Nat.add_sub_cancel]
  rw [if_neg (by omega)]

/-- The entry at an index is the same in all blocks that reach it. -/
theorem within_add (h : index < length e) (d : Nat) :
    within index (length (e + d)) (e + d) = within index (length e) e := by
  induction d with
  | zero => rfl
  | succ d ih =>
    have hlong : index < length (e + d) := by
      have hmono : 2 ^ (e + 1) ≤ 2 ^ (e + d + 1) := Nat.pow_le_pow_right (by decide) (by omega)
      rw [length] at h ⊢
      omega
    rw [← Nat.add_assoc, within_succ (by omega), Nat.mod_eq_of_lt hlong, ih]

theorem within_gives (h : index < length e) : Gives (within index (length e) e) fun r => r ≤ e := by
  induction e generalizing index with
  | zero => exact .of_eq (within_last (by have := show length 0 = 1 from rfl; omega)) le_rfl
  | succ e ih =>
    by_cases hlast : index + 1 = length (e + 1)
    · exact .of_eq (within_last hlast) le_rfl
    · rw [length_succ] at h hlast
      rw [within_succ (by omega)]
      exact (ih (Nat.mod_lt _ (length_pos e))).imp fun r hr => Nat.le_succ_of_le hr

/-! ### The exponent at an index -/

/-- The computation finds a block of word length that reaches the index, and reads the entry in it. -/
theorem exponent_reads (hindex : index + 1 < wordLimit) : ∃ top, block index 1 0 = .ok (length top, top) ∧
    index < length top ∧ length top < wordLimit ∧ exponent index = within index (length top) top := by
  obtain ⟨⟨size, top⟩, hblock, hsize, hlt, hword⟩ := block_gives hindex (show 1 = length 0 from rfl) (by decide)
  obtain rfl : size = length top := hsize
  refine ⟨top, hblock, hlt, hword, ?_⟩
  rw [exponent, if_neg (Nat.not_le.2 hindex), hblock]
  rfl

theorem exponent_gives (hindex : index + 1 < wordLimit) : Gives (exponent index) fun _ => True := by
  obtain ⟨top, -, hlt, -, hread⟩ := exponent_reads hindex
  rw [hread]
  exact (within_gives hlt).imp fun _ _ => trivial

/-- The exponent at an index can be read in any block that reaches it. -/
theorem exponent_eq_within (hindex : index + 1 < wordLimit) (h : index < length e) :
    exponent index = within index (length e) e := by
  obtain ⟨top, -, hlt, -, hread⟩ := exponent_reads hindex
  rw [hread]
  rcases Nat.le_total top e with hle | hle
  · obtain ⟨d, rfl⟩ := Nat.exists_eq_add_of_le hle
    exact (within_add hlt d).symm
  · obtain ⟨d, rfl⟩ := Nat.exists_eq_add_of_le hle
    exact within_add h d

theorem exponent_last (hindex : index + 1 < wordLimit) (h : index + 1 = length e) : exponent index = .ok e := by
  have hlt : index < length e := by omega
  rw [exponent_eq_within hindex hlt, within_last h]

/-- In the second half of a block the exponent is that of the same place in the first. -/
theorem exponent_second_half (hindex : index + 1 < wordLimit) (hlow : length e ≤ index) (hhigh : index < 2 * length e) :
    exponent index = exponent (index - length e) := by
  have hlong : index < length (e + 1) := by
    rw [length_succ]
    omega
  have hmod : index % length e = index - length e := by
    rw [Nat.mod_eq_sub_mod hlow, Nat.mod_eq_of_lt (by omega)]
  have hfirst : exponent (index - length e) = within (index - length e) (length e) e :=
    exponent_eq_within (by omega) (by omega)
  rw [exponent_eq_within hindex hlong, within_succ hhigh, hmod, hfirst]

/-- An index is the last of a block, or lies in the second half of one. -/
theorem last_or_second_half (index : Nat) :
    ∃ k, index + 2 = 2 ^ k ∨ 2 ^ (k - 1) ≤ index + 1 ∧ index + 1 < 2 ^ k - 1 := by
  have hlow : 2 ^ Nat.log 2 (index + 1) ≤ index + 1 := Nat.pow_log_le_self 2 (Nat.succ_ne_zero index)
  have hhigh := Nat.lt_pow_succ_log_self (b := 2) (by decide) (index + 1)
  refine ⟨Nat.log 2 (index + 1) + 1, ?_⟩
  rw [Nat.add_sub_cancel]
  omega

/-- Up to the last index that has a successor among the words, both loops return, no number on the way is too large,
and the exponents follow the recursion of the sequence: at the end of a block stands the exponent of the block, and
in its second half the exponents of the first half come again. -/
theorem exponents_follow_luby_recursion (x : Nat) (hx : x + 1 < wordLimit) :
    (∃ size top e, block x 1 0 = .ok (size, top) ∧ within x size top = .ok e ∧ exponent x = .ok e ∧
      size < wordLimit ∧ top < 32 ∧ e ≤ top ∧ ∀ base, entry base x = .ok (Number.power base e)) ∧
    (∀ k, x + 2 = 2 ^ k → exponent x = .ok (k - 1)) ∧
    (∀ k, 2 ^ (k - 1) ≤ x + 1 → x + 1 < 2 ^ k - 1 → exponent x = exponent (x + 1 - 2 ^ (k - 1))) ∧
    ∃ k, x + 2 = 2 ^ k ∨ 2 ^ (k - 1) ≤ x + 1 ∧ x + 1 < 2 ^ k - 1 := by
  refine ⟨?_, fun k hk => ?_, fun k hlow hhigh => ?_, last_or_second_half x⟩
  · obtain ⟨top, hblock, hlt, hword, hread⟩ := exponent_reads hx
    obtain ⟨e, hwithin, he⟩ := within_gives hlt
    rw [hwithin] at hread
    refine ⟨length top, top, e, hblock, hwithin, hread, hword, lt_of_length_lt hword, he, fun base => ?_⟩
    rw [entry, hread]
    rfl
  · cases k with
    | zero => omega
    | succ e =>
      have hlen := length_add_one e
      rw [Nat.add_sub_cancel]
      exact exponent_last hx (by omega)
  · rcases k with _ | _ | e
    · omega
    · omega
    · have hlen := length_add_one e
      rw [Nat.add_sub_cancel] at hlow ⊢
      rw [Nat.pow_succ] at hhigh
      rw [exponent_second_half hx (e := e) (by omega) (by omega), ← hlen, Nat.add_sub_add_right]

/-- The last index of all ends a block, and the one before it repeats the end of the block below. -/
theorem exponents_at_the_last_words : 4294967294 + 1 < wordLimit ∧ exponent 4294967294 = .ok 31 ∧
    exponent 4294967293 = exponent 2147483646 ∧ exponent 2147483646 = .ok 30 :=
  ⟨by decide, (exponents_follow_luby_recursion 4294967294 (by decide)).2.1 32 rfl,
    (exponents_follow_luby_recursion 4294967293 (by decide)).2.2.1 32 (by decide) (by decide),
    (exponents_follow_luby_recursion 2147483646 (by decide)).2.1 31 rfl⟩

end Countermodels.Sat.Luby
