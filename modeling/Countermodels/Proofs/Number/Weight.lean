import Mathlib

/-! Binary numbers that are not negative. Activities are such numbers: they start at zero, grow by
positive steps and are scaled by positive factors. They may become infinite, but they stay comparable. -/

namespace Countermodels.Number

open Float.Model

/-- A number, at least zero and with a positive sign; infinity counts. -/
def Weight : UnpackedFloat → Prop
  | .notANumber => False
  | .infinity s => s = .positive
  | .zero s => s = .positive
  | .finite s _ _ _ => s = .positive

structure Weighs (x : Float) : Prop where
  weight : Weight x.toModel.unpack

/-- A positive finite number. -/
def Factor : UnpackedFloat → Prop
  | .finite s _ _ _ => s = .positive
  | _ => False

structure Scales (x : Float) : Prop where
  factor : Factor x.toModel.unpack

/-! Packing keeps the sign, and makes no number into none. -/

theorem sign_packComponents (e : BitVec Format.binary64.exponentBits)
    (m : BitVec Format.binary64.mantissaBitsWithoutImplicit) :
    UnpackedFloat.Sign.ofBitVec (UnpackedFloat.unpackSign (UnpackedFloat.packComponents .binary64 .positive e m))
      = .positive := by
  have hsign : UnpackedFloat.unpackSign (UnpackedFloat.packComponents .binary64 .positive e m) = 0#1 := by
    have hbits : BitVec.extractLsb' 63 1 (0#1 ++ e ++ m) = 0#1 := by
      rw [BitVec.extractLsb'_append_eq_of_le (by decide), BitVec.extractLsb'_append_eq_of_le (by decide)]
      rfl
    exact hbits
  rw [hsign]
  rfl

theorem weight_packComponents {e : BitVec Format.binary64.exponentBits}
    {m : BitVec Format.binary64.mantissaBitsWithoutImplicit} (h : e = -1#_ → m = 0#_) :
    Weight (UnpackedFloat.unpack .binary64 (UnpackedFloat.packComponents .binary64 .positive e m)) := by
  unfold UnpackedFloat.unpack
  simp only [UnpackedFloat.unpackExponent_packComponents, UnpackedFloat.unpackMantissa_packComponents,
    sign_packComponents]
  split
  · next he =>
    rw [if_pos (h he)]
    rfl
  · split
    · split
      · rfl
      · rfl
    · rfl

theorem Weight.pack {u : UnpackedFloat} (h : Weight u) :
    Weight (UnpackedFloat.unpack .binary64 (UnpackedFloat.pack .binary64 u)) := by
  match u, h with
  | .infinity _, rfl => exact weight_packComponents fun _ => rfl
  | .zero _, rfl => exact weight_packComponents fun _ => rfl
  | .finite _ m e _, rfl =>
    unfold UnpackedFloat.pack
    dsimp only
    split
    · exact weight_packComponents fun _ => rfl
    · next hlt =>
      split
      · refine weight_packComponents fun he => ?_
        have := congrArg BitVec.toNat he
        simp only [BitVec.neg_one_eq_allOnes, BitVec.toNat_allOnes, BitVec.toNat_ofNat] at this
        rw [Nat.mod_eq_of_lt (by omega)] at this
        omega
      · exact weight_packComponents fun he => by simp [Format.binary64] at he

theorem weight_round (m : Nat) (e : Int) (a : UnpackedFloat.Accuracy) :
    Weight (UnpackedFloat.roundWithAccuracy .binary64 .positive m e a) := by
  unfold UnpackedFloat.roundWithAccuracy
  dsimp only
  split
  · rfl
  · rfl

/-! Sums, products and quotients. -/

theorem Weight.add {u v : UnpackedFloat} (hu : Weight u) (hv : Weight v) :
    Weight (UnpackedFloat.add .binary64 u v) := by
  match u, v, hu, hv with
  | .infinity _, .infinity _, rfl, rfl => rfl
  | .infinity _, .zero _, rfl, rfl => rfl
  | .infinity _, .finite _ _ _ _, rfl, rfl => rfl
  | .zero _, .infinity _, rfl, rfl => rfl
  | .zero _, .zero _, rfl, rfl => rfl
  | .zero _, .finite _ _ _ _, rfl, rfl => rfl
  | .finite _ _ _ _, .infinity _, rfl, rfl => rfl
  | .finite _ _ _ _, .zero _, rfl, rfl => rfl
  | .finite _ m₁ e₁ _, .finite _ m₂ e₂ _, rfl, rfl =>
    unfold UnpackedFloat.add UnpackedFloat.normalize UnpackedFloat.round
    dsimp only
    split
    · next h =>
      have := Int.compare_eq_lt.1 h
      simp [UnpackedFloat.Sign.apply] at this
      omega
    · rfl
    · exact weight_round ..

theorem Weight.mul {u v : UnpackedFloat} (hu : Weight u) (hv : Factor v) :
    Weight (UnpackedFloat.mul .binary64 u v) := by
  match u, v, hu, hv with
  | .infinity _, .finite _ _ _ _, rfl, rfl => rfl
  | .zero _, .finite _ _ _ _, rfl, rfl => rfl
  | .finite _ _ _ _, .finite _ _ _ _, rfl, rfl => exact weight_round ..

theorem Weight.div {u v : UnpackedFloat} (hu : Weight u) (hv : Factor v) :
    Weight (UnpackedFloat.div .binary64 u v) := by
  match u, v, hu, hv with
  | .infinity _, .finite _ _ _ _, rfl, rfl => rfl
  | .zero _, .finite _ _ _ _, rfl, rfl => rfl
  | .finite _ _ _ _, .finite _ _ _ _, rfl, rfl => exact weight_round ..

variable {x y z : Float}

theorem Weighs.add (hx : Weighs x) (hy : Weighs y) : Weighs (x + y) := ⟨(hx.weight.add hy.weight).pack⟩

theorem Weighs.mul (hx : Weighs x) (hy : Scales y) : Weighs (x * y) := ⟨(hx.weight.mul hy.factor).pack⟩

theorem Weighs.div (hx : Weighs x) (hy : Scales y) : Weighs (x / y) := ⟨(hx.weight.div hy.factor).pack⟩

/-! Weights are compared by their rank. -/

/-- Rank of a weight: zero below all finite ones, infinity above them, and these by exponent and then
by mantissa. -/
def rank : UnpackedFloat → Nat × Int × Nat
  | .finite _ m e _ => (1, e, m)
  | .infinity _ => (2, 0, 0)
  | _ => (0, 0, 0)

/-- The order of ranks. -/
def rankLt (a b : Nat × Int × Nat) : Prop :=
  a.1 < b.1 ∨ a.1 = b.1 ∧ (a.2.1 < b.2.1 ∨ a.2.1 = b.2.1 ∧ a.2.2 < b.2.2)

theorem Weight.lt_iff {u v : UnpackedFloat} (hu : Weight u) (hv : Weight v) :
    u.lt v = true ↔ rankLt (rank u) (rank v) := by
  cases u <;> cases v <;> cases hu <;> cases hv <;>
    simp [UnpackedFloat.lt, UnpackedFloat.compare, rank, rankLt, Ordering.then_eq_lt, Int.compare_eq_lt,
      Nat.compare_eq_lt]

theorem Weighs.lt_iff (hx : Weighs x) (hy : Weighs y) :
    x < y ↔ rankLt (rank x.toModel.unpack) (rank y.toModel.unpack) := by
  rw [← hx.weight.lt_iff hy.weight]
  exact decide_eq_true_iff

theorem weighs_zero : Weighs 0.0 := ⟨rfl⟩

theorem weighs_one : Weighs 1.0 := ⟨rfl⟩

end Countermodels.Number
