/-
# Rounding and what is not a number

The order of scalars puts what is not a number in front of everything else, and it looks at numbers
after rounding them.  So it matters that rounding to decimal places keeps the two apart: a floating
point number stays a number, and what is none stays none (`isNaN_roundPlaces`).

Floating point arithmetic unpacks its operands, computes with the parts, and packs the result again.
Packing makes no number into what is none (`isNaN_unpack_pack`), so that each operation only has to
be looked at between the two.
-/
import Mathlib
import DiceNotation.Decimal.Exact

namespace DiceNotation

open Float.Model (UnpackedFloat Format)
open Float.Model.UnpackedFloat

/-! ## 1. Packing -/

theorem isNaN_unpack_iff {b : BitVec Format.binary64.numBits} :
    (unpack .binary64 b).isNaN = true ↔
      @unpackExponent .binary64 b = -1#11 ∧ @unpackMantissa .binary64 b ≠ 0#52 := by
  unfold unpack
  dsimp only
  split_ifs <;> simp_all [UnpackedFloat.isNaN]

/-- **Packing keeps numbers apart from what is none.**  An exponent that is too large is packed as
an infinity, so that the greatest exponent is left to infinities and to what is not a number. -/
theorem isNaN_unpack_pack (u : UnpackedFloat) :
    (unpack .binary64 (pack .binary64 u)).isNaN = u.isNaN := by
  rw [Bool.eq_iff_iff, isNaN_unpack_iff]
  fun_cases pack with
  | case1 => simp [packedNaN, UnpackedFloat.isNaN]
  | case2 s => simp [packedInfinity, UnpackedFloat.isNaN]
  | case3 s => simp [packedZero, UnpackedFloat.isNaN]
  | case4 s m e hm biased hbiased => simp [packedInfinity, UnpackedFloat.isNaN]
  | case5 s m e hm bits biased hbiased =>
    have hones : BitVec.ofNat 11 biased ≠ -1#11 := by
      intro h
      have hnat := congrArg BitVec.toNat h
      have hbits : 2 ^ Format.binary64.exponentBits = 2048 := rfl
      simp only [BitVec.toNat_ofNat, BitVec.reduceNeg, Nat.reducePow] at hnat
      omega
    rw [unpackExponent_packComponents]
    exact ⟨fun h => absurd h.1 hones, nofun⟩
  | case6 s m e hm bits biased => simp [UnpackedFloat.isNaN]

theorem isNaN_ofModel_pack (u : UnpackedFloat) : (Float.ofModel (.pack u)).isNaN = u.isNaN :=
  isNaN_unpack_pack u

theorem isNaN_neg (x : Float) : (-x).isNaN = x.isNaN := by
  refine (isNaN_ofModel_pack _).trans ?_
  change _ = x.toModel.unpack.isNaN
  cases x.toModel.unpack <;> rfl

/-! ## 2. Numbers that are made -/

/-- Whether unpacked parts are those of a number that is neither infinite nor a zero. -/
def isProper : UnpackedFloat → Bool
  | .finite .. => true
  | _ => false

theorem isNaN_roundWithAccuracy (spec : Format) (sign : Sign) (mantissa : Nat) (exponent : Int)
    (accuracy : Accuracy) :
    (roundWithAccuracy spec sign mantissa exponent accuracy).isNaN = false := by
  unfold roundWithAccuracy
  dsimp only
  split <;> rfl

/-- A quotient is a number unless both operands are infinities or zeros. -/
theorem isNaN_div {u v : UnpackedFloat} (hu : u.isNaN = false) (hv : isProper v = true) :
    (div .binary64 u v).isNaN = false := by
  cases v with
  | finite =>
    cases u with
    | notANumber => cases hu
    | finite => exact isNaN_roundWithAccuracy ..
    | infinity => rfl
    | zero => rfl
  | zero => cases hv
  | infinity => cases hv
  | notANumber => cases hv

theorem isNaN_toFloat (n : UInt64) : n.toFloat.isNaN = false := by
  refine (isNaN_ofModel_pack _).trans ?_
  unfold ofUInt64 ofNat ofInt UnpackedFloat.normalize
  split
  · exact isNaN_roundWithAccuracy ..
  · rfl
  · exact isNaN_roundWithAccuracy ..

theorem isNaN_ofScientific_places (m : Nat) :
    (Float.ofScientific m true comparedPlaces).isNaN = false := by
  have hplaces : comparedPlaces = 6 := rfl
  rw [hplaces, Float.ofScientific]
  split
  · have hpower : isProper Float.exactlyRepresentablePowersOfTen[6].toModel.unpack = true := by
      decide +kernel
    dsimp only
    rw [if_pos rfl]
    exact (isNaN_ofModel_pack _).trans (isNaN_div (isNaN_toFloat _) hpower)
  · refine (isNaN_ofModel_pack _).trans ?_
    have hexponent : ¬ (0 : Int) ≤ Int.negOfNat 6 := by decide
    unfold ofScientific
    rw [if_pos rfl]
    split_ifs
    · rfl
    · rfl
    · rfl
    · exact isNaN_roundWithAccuracy ..

/-! ## 3. Rounding -/

theorem FloatParts.ofFloat_eq_nan_iff {x : Float} : ofFloat x = .nan ↔ x.isNaN = true := by
  change _ ↔ x.toModel.unpack.isNaN = true
  unfold ofFloat
  split <;> simp_all [UnpackedFloat.isNaN]

/-- **Rounding keeps numbers apart from what is none.** -/
theorem isNaN_roundPlaces (x : Float) : (roundPlaces x).isNaN = x.isNaN := by
  unfold roundPlaces
  split
  · next hparts =>
    have hx : x.isNaN = false := by
      rw [← Bool.not_eq_true, ← FloatParts.ofFloat_eq_nan_iff, hparts]
      exact nofun
    rw [hx]
    dsimp only
    split
    · rw [isNaN_neg]
      exact isNaN_ofScientific_places _
    · exact isNaN_ofScientific_places _
  · rfl

end DiceNotation
