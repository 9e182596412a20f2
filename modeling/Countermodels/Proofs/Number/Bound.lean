import Countermodels.Number.Power
import Countermodels.Proofs.Number.Weight

/-! Bounds on doubles that are not negative. A product is rounded, so it may be larger than the product of the
bounds, but not by more than one part in two to the 51. -/

namespace Countermodels.Number

open Float.Model

/-- A number from zero up to `B`, with an exponent that a double can have. -/
def Upto (B : ℚ) : UnpackedFloat → Prop
  | .zero _ => True
  | .finite s m e _ => s = .positive ∧ -1074 ≤ e ∧ (m : ℚ) * 2 ^ e ≤ B
  | _ => False

/-- The double is a number from zero up to `B`. -/
structure AtMost (x : Float) (B : ℚ) : Prop where
  upto : Upto B x.toModel.unpack

variable {B C : ℚ} {u v : UnpackedFloat} {m : Nat} {e : Int} {x y : Float}

theorem Upto.mono (h : Upto B u) (hBC : B ≤ C) : Upto C u := by
  cases u with
  | finite => exact ⟨h.1, h.2.1, h.2.2.trans hBC⟩
  | _ => exact h

theorem AtMost.mono (h : AtMost x B) (hBC : B ≤ C) : AtMost x C := ⟨h.upto.mono hBC⟩

/-! Rounding. -/

theorem mantissa_shiftRight (em : UnpackedFloat.ExtendedMantissa) (k : Nat) :
    (em >>> k).mantissa = em.mantissa / 2 ^ k := by
  induction k with
  | zero => simp [HShiftRight.hShiftRight, Nat.repeat]
  | succ k ih =>
    change (em >>> k).mantissa / 2 = _
    rw [ih, Nat.div_div_eq_div_mul, Nat.pow_succ]

theorem roundedMantissa_le (em : UnpackedFloat.ExtendedMantissa) : em.roundedMantissa ≤ em.mantissa + 1 := by
  obtain ⟨m, r, s⟩ := em
  cases r <;> cases s <;>
    simp only [UnpackedFloat.ExtendedMantissa.roundedMantissa, UnpackedFloat.ExtendedMantissa.accuracy,
      UnpackedFloat.Accuracy.roundToNearestEven] <;> omega

/-- Dropping bits of a mantissa makes the number no larger. -/
theorem div_mul_pow_le (m k : Nat) (e : Int) : ((m / 2 ^ k : Nat) : ℚ) * 2 ^ (e + k) ≤ m * 2 ^ e := by
  have hdiv : ((m / 2 ^ k : Nat) : ℚ) * 2 ^ k ≤ m := by exact_mod_cast Nat.div_mul_le_self m (2 ^ k)
  calc ((m / 2 ^ k : Nat) : ℚ) * 2 ^ (e + k) = (m / 2 ^ k : Nat) * 2 ^ k * 2 ^ e := by
        rw [zpow_add₀ (by norm_num), zpow_natCast]; ring
    _ ≤ m * 2 ^ e := by gcongr

theorem targetExponent_eq (m : Nat) (e : Int) :
    Format.binary64.targetExponent (totalExponent m e) = max (m.log2 + e - 52) (-1074) := by
  simp only [Format.targetExponent, totalExponent, Format.mantissaBits, Format.minExponent]
  norm_num
  omega

section round

variable (m e)

/-- How far a mantissa is shifted to the exponent that a double should have. -/
def shiftAmount : Nat := (Format.binary64.targetExponent (totalExponent m e) - e).toNat

theorem le_shifted : -1074 ≤ e + shiftAmount m e := by
  rw [shiftAmount, targetExponent_eq]
  omega

/-- A number that is shifted loses less than the last bit of its new mantissa. -/
theorem two_zpow_shifted_le (hm : (m : ℚ) * 2 ^ e ≤ B) (hB : 1 ≤ B) (hshift : shiftAmount m e ≠ 0) :
    (2 : ℚ) ^ (e + shiftAmount m e) ≤ B * 2 ^ (-52 : ℤ) := by
  have hexp : e + shiftAmount m e = max (m.log2 + e - 52) (-1074) := by
    rw [shiftAmount, targetExponent_eq] at hshift ⊢
    omega
  rw [hexp]
  rcases max_choice ((m.log2 : Int) + e - 52) (-1074) with h | h
  · have hpos : m ≠ 0 := by
      rintro rfl
      rw [shiftAmount, targetExponent_eq, Nat.log2_zero] at hshift
      rw [Nat.log2_zero] at h
      omega
    have hlog : ((2 ^ m.log2 : Nat) : ℚ) ≤ m := by exact_mod_cast Nat.log2_self_le hpos
    rw [h]
    calc (2 : ℚ) ^ ((m.log2 : Int) + e - 52) = (2 ^ m.log2 : Nat) * 2 ^ e * 2 ^ (-52 : ℤ) := by
          rw [sub_eq_add_neg, zpow_add₀ (by norm_num), zpow_add₀ (by norm_num), zpow_natCast]
          push_cast
          rfl
      _ ≤ m * 2 ^ e * 2 ^ (-52 : ℤ) := by gcongr
      _ ≤ B * 2 ^ (-52 : ℤ) := by gcongr
  · rw [h]
    calc (2 : ℚ) ^ (-1074 : ℤ) ≤ 1 * 2 ^ (-52 : ℤ) := by rw [one_mul]; exact zpow_le_zpow_right₀ (by norm_num) (by norm_num)
      _ ≤ B * 2 ^ (-52 : ℤ) := by gcongr

/-- The mantissa after the first shift, rounded. -/
theorem rounded_le (hm : (m : ℚ) * 2 ^ e ≤ B) (hB : 1 ≤ B) :
    ((UnpackedFloat.ExtendedMantissa.ofMantissaAndAccuracy m .exact >>> shiftAmount m e).roundedMantissa : ℚ) *
      2 ^ (e + shiftAmount m e) ≤ B * (1 + 2 ^ (-51 : ℤ)) := by
  have hgrow : B ≤ B * (1 + 2 ^ (-51 : ℤ)) := le_mul_of_one_le_right (by linarith) (by norm_num)
  by_cases hshift : shiftAmount m e = 0
  · rw [hshift]
    refine le_trans ?_ (hm.trans hgrow)
    simp [HShiftRight.hShiftRight, Nat.repeat, UnpackedFloat.ExtendedMantissa.ofMantissaAndAccuracy,
      UnpackedFloat.ExtendedMantissa.roundedMantissa, UnpackedFloat.ExtendedMantissa.accuracy,
      UnpackedFloat.Accuracy.roundToNearestEven]
  · have hround := roundedMantissa_le (UnpackedFloat.ExtendedMantissa.ofMantissaAndAccuracy m .exact >>> shiftAmount m e)
    rw [mantissa_shiftRight] at hround
    have hround' : ((UnpackedFloat.ExtendedMantissa.ofMantissaAndAccuracy m .exact >>> shiftAmount m e).roundedMantissa : ℚ) ≤
        (m / 2 ^ shiftAmount m e : Nat) + 1 := by exact_mod_cast hround
    have hlast := two_zpow_shifted_le m e hm hB hshift
    calc _ ≤ (((m / 2 ^ shiftAmount m e : Nat) : ℚ) + 1) * 2 ^ (e + shiftAmount m e) := by gcongr
      _ ≤ B + B * 2 ^ (-52 : ℤ) := by
        rw [add_mul, one_mul]
        exact add_le_add ((div_mul_pow_le m _ e).trans hm) hlast
      _ ≤ B * (1 + 2 ^ (-51 : ℤ)) := by
        rw [mul_add, mul_one]
        gcongr <;> norm_num

theorem upto_round (hm : (m : ℚ) * 2 ^ e ≤ B) (hB : 1 ≤ B) :
    Upto (B * (1 + 2 ^ (-51 : ℤ))) (UnpackedFloat.roundWithAccuracy .binary64 .positive m e .exact) := by
  have hfirst := rounded_le m e hm hB
  set r := (UnpackedFloat.ExtendedMantissa.ofMantissaAndAccuracy m .exact >>> shiftAmount m e).roundedMantissa
  set e₁ := e + (shiftAmount m e : Int)
  have hround : UnpackedFloat.roundWithAccuracy .binary64 .positive m e .exact =
      if h : (UnpackedFloat.ExtendedMantissa.ofMantissaAndAccuracy r .exact >>> shiftAmount r e₁).mantissa = 0 then
        .zero .positive
      else .finite .positive _ (e₁ + shiftAmount r e₁) (Nat.pos_of_ne_zero h) := rfl
  rw [hround]
  split
  · trivial
  · refine ⟨rfl, le_shifted r e₁, ?_⟩
    rw [mantissa_shiftRight]
    exact (div_mul_pow_le r _ e₁).trans hfirst

end round

/-! Packing into 64 bits. -/

section pack

variable {b : BitVec Format.binary64.exponentBits} {a : BitVec Format.binary64.mantissaBitsWithoutImplicit}

/-- A normal number, whose mantissa has a first bit that is not written. -/
theorem upto_unpack_normal (hlast : b ≠ -1#_) (hfirst : b ≠ 0#_)
    (h : ((2 ^ 52 + a.toNat : Nat) : ℚ) * 2 ^ ((b.toNat : Int) - 1075) ≤ B) :
    Upto B (UnpackedFloat.unpack .binary64 (UnpackedFloat.packComponents .binary64 .positive b a)) := by
  have hpos : b.toNat ≠ 0 := fun h0 => hfirst (BitVec.eq_of_toNat_eq h0)
  have hmantissa : (1#1 ++ a).toNat = 2 ^ 52 + a.toNat := by
    have hlt : a.toNat < 2 ^ 52 := a.isLt
    rw [BitVec.toNat_append, ← Nat.shiftLeft_add_eq_or_of_lt hlt]
    rfl
  unfold UnpackedFloat.unpack
  simp only [UnpackedFloat.unpackExponent_packComponents, UnpackedFloat.unpackMantissa_packComponents,
    sign_packComponents, if_neg hlast, if_neg hfirst]
  refine ⟨rfl, ?_, ?_⟩
  · show -1074 ≤ (b.toNat : Int) - ((1023 : Nat) + (52 : Nat))
    omega
  · rw [hmantissa]
    exact h

theorem upto_unpack_subnormal (h : (a.toNat : ℚ) * 2 ^ (-1074 : Int) ≤ B) :
    Upto B (UnpackedFloat.unpack .binary64 (UnpackedFloat.packComponents .binary64 .positive 0#_ a)) := by
  unfold UnpackedFloat.unpack
  simp only [UnpackedFloat.unpackExponent_packComponents, UnpackedFloat.unpackMantissa_packComponents,
    sign_packComponents]
  rw [if_neg (by decide), if_pos trivial]
  split
  · trivial
  · exact ⟨rfl, by decide, h⟩

theorem Upto.pack (h : Upto B u) (hB : B < 2 ^ 200) :
    Upto B (UnpackedFloat.unpack .binary64 (UnpackedFloat.pack .binary64 u)) := by
  cases u with
  | infinity => exact h.elim
  | notANumber => exact h.elim
  | zero s => cases s <;> trivial
  | finite s m e hpos =>
    obtain ⟨rfl, he, hm⟩ := h
    have hbias : (e + (Format.binary64.exponentBias : Int) + (Format.binary64.mantissaBitsWithoutImplicit : Int)).toNat =
        (e + 1075).toNat := by
      show (e + (1023 : Nat) + (52 : Nat)).toNat = _
      omega
    -- a number below the bound is far from the largest exponent
    have hsmall : e < 200 := by
      by_contra hlarge
      have hone : (1 : ℚ) ≤ m := by exact_mod_cast hpos
      have : (2 : ℚ) ^ (200 : Int) ≤ m * 2 ^ e :=
        calc (2 : ℚ) ^ (200 : Int) ≤ 1 * 2 ^ e := by
              rw [one_mul]
              exact zpow_le_zpow_right₀ (by norm_num) (by omega)
          _ ≤ m * 2 ^ e := by gcongr
      have h200 : (2 : ℚ) ^ (200 : Int) = 2 ^ 200 := by norm_cast
      linarith
    unfold UnpackedFloat.pack
    dsimp only
    rw [hbias, if_neg (by show ¬ 2 ^ 11 ≤ _; omega)]
    split
    · next hnormal =>
      have hlog : m.log2 = 52 := by
        have : m.log2 + 1 = 53 := hnormal
        omega
      have hlow : 2 ^ 52 ≤ m := hlog ▸ Nat.log2_self_le (by omega)
      have hhigh : m < 2 ^ (52 + 1) := hlog ▸ Nat.lt_log2_self
      have hexp : (BitVec.ofNat Format.binary64.exponentBits (e + 1075).toNat).toNat = (e + 1075).toNat := by
        rw [BitVec.toNat_ofNat]
        exact Nat.mod_eq_of_lt (by show _ < 2 ^ 11; omega)
      have hmod : m % 2 ^ 52 = m - 2 ^ 52 := by omega
      refine upto_unpack_normal (fun hlast => ?_) (fun hfirst => ?_) ?_
      · rw [hlast] at hexp
        have : 2047 = (e + 1075).toNat := hexp
        omega
      · rw [hfirst] at hexp
        have : 0 = (e + 1075).toNat := hexp
        omega
      · rw [hexp, BitVec.toNat_ofNat, show m % 2 ^ Format.binary64.mantissaBitsWithoutImplicit = m - 2 ^ 52 from hmod,
          Nat.add_sub_cancel' hlow, show ((e + 1075).toNat : Int) - 1075 = e by omega]
        exact hm
    · refine upto_unpack_subnormal ?_
      have hmod : m % 2 ^ 52 ≤ m := Nat.mod_le ..
      have hle : ((BitVec.ofNat Format.binary64.mantissaBitsWithoutImplicit m).toNat : ℚ) ≤ m := by
        rw [BitVec.toNat_ofNat]
        exact_mod_cast hmod
      refine le_trans ?_ hm
      gcongr
      norm_num

end pack

/-! Products, whole numbers and whole parts. -/

theorem Upto.mul (hu : Upto B u) (hv : Upto C v) (hBC : 1 ≤ B * C) :
    Upto (B * C * (1 + 2 ^ (-51 : ℤ))) (UnpackedFloat.mul .binary64 u v) := by
  cases u with
  | infinity => exact hu.elim
  | notANumber => exact hu.elim
  | zero => cases v <;> first | exact hv.elim | trivial
  | finite s m e hm =>
    cases v with
    | infinity => exact hv.elim
    | notANumber => exact hv.elim
    | zero => trivial
    | finite s' m' e' hm' =>
      obtain ⟨rfl, -, hm⟩ := hu
      obtain ⟨rfl, -, hm'⟩ := hv
      refine upto_round _ _ ?_ hBC
      calc ((m * m' : Nat) : ℚ) * 2 ^ (e + e') = m * 2 ^ e * (m' * 2 ^ e') := by
            rw [zpow_add₀ (by norm_num)]
            push_cast
            ring
        _ ≤ B * C := by
            gcongr
            exact le_trans (by positivity) hm

theorem AtMost.mul (hx : AtMost x B) (hy : AtMost y C) (hBC : 1 ≤ B * C) (hlarge : B * C * (1 + 2 ^ (-51 : ℤ)) < 2 ^ 200) :
    AtMost (x * y) (B * C * (1 + 2 ^ (-51 : ℤ))) := ⟨(hx.upto.mul hy.upto hBC).pack hlarge⟩

theorem atMost_ofWord {n : Nat} (hB : 1 ≤ B) (hn : (n : ℚ) ≤ B) (hlarge : B * (1 + 2 ^ (-51 : ℤ)) < 2 ^ 200) :
    AtMost (ofWord n) (B * (1 + 2 ^ (-51 : ℤ))) := by
  refine ⟨Upto.pack ?_ hlarge⟩
  have hword : (n.toUInt64.toNat : ℚ) ≤ B := le_trans (by exact_mod_cast Nat.mod_le n _) hn
  show Upto _ (UnpackedFloat.normalize .binary64 (n.toUInt64.toNat : Int) 0 .positive)
  generalize n.toUInt64.toNat = k at hword
  unfold UnpackedFloat.normalize
  split
  · next h =>
    have := Int.compare_eq_lt.1 h
    omega
  · trivial
  · unfold UnpackedFloat.round UnpackedFloat.decreaseExponent
    dsimp only
    generalize ((0 : Int) - Format.binary64.targetExponent _).toNat = j
    refine upto_round _ _ ?_ hB
    rw [Int.toNat_natCast, Nat.shiftLeft_eq]
    push_cast
    rw [zero_sub, zpow_neg, zpow_natCast, mul_assoc, mul_inv_cancel₀ (by positivity), mul_one]
    exact hword

theorem roundToInt_le (m : Nat) (e : Int) : ((UnpackedFloat.roundToInt .positive m e).toNat : ℚ) ≤ m * 2 ^ e := by
  -- the mantissa is shifted up to a whole number, or down to one
  set j := (e - 0).toNat with hj
  set k := (0 - (e - (j : Int))).toNat with hk
  have hround : UnpackedFloat.roundToInt .positive m e =
      ((UnpackedFloat.ExtendedMantissa.ofMantissaAndAccuracy (m <<< j) .exact >>> k).mantissa : Int) := rfl
  have hzero : e - (j : Int) + k = 0 := by omega
  have hle := div_mul_pow_le (m <<< j) k (e - j)
  rw [hzero, zpow_zero, mul_one] at hle
  rw [hround, mantissa_shiftRight, Int.toNat_natCast]
  refine hle.trans (le_of_eq ?_)
  rw [Nat.shiftLeft_eq, zpow_sub₀ (by norm_num), zpow_natCast]
  push_cast
  field_simp

/-- The whole part of a number is no larger than the number. -/
theorem toWord_le (hx : AtMost x B) (hB : 0 ≤ B) : (toWord x : ℚ) ≤ B := by
  have hclamp : ∀ n : Nat, (UInt64.ofNatClamp n).toNat ≤ n := fun n => by
    unfold UInt64.ofNatClamp
    split
    · exact Nat.le_refl _
    · next h => exact Nat.le_of_lt (Nat.lt_of_lt_of_le (by decide) (Nat.not_lt.1 h))
  have hwhole : ((x.toModel.unpack.toInt 0 (UInt64.size - 1)).toNat : ℚ) ≤ B := by
    have hupto := hx.upto
    cases hu : x.toModel.unpack with
    | infinity => rw [hu] at hupto; exact hupto.elim
    | notANumber => rw [hu] at hupto; exact hupto.elim
    | zero => exact_mod_cast hB
    | finite s m e h =>
      rw [hu] at hupto
      obtain ⟨rfl, -, hm⟩ := hupto
      exact (roundToInt_le m e).trans hm
  exact le_trans (by exact_mod_cast hclamp _) hwhole

end Countermodels.Number
