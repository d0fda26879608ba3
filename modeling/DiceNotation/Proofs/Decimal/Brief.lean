/-
# A duration is written in few characters

Messages write a duration with six significant digits (`Layout.brief`).  Whatever the number is, the
text is short: rounding to six digits leaves a coefficient of at most 10 ^ 6, because the exponent
of the first digit is found exactly (`leadingExponent_spec`); and that exponent is bounded, because
a floating point number lies between 2 ^ (-1074) and 2 ^ 1025.
-/
import Mathlib
import DiceNotation.Fault

namespace DiceNotation

/-! ## 1. Powers -/

theorem scaleTwo_eq (n : Nat) (exponent : Int) : scaleTwo n exponent = (n : ℚ) * 2 ^ exponent := rfl

theorem scaleTen_one (exponent : Int) : scaleTen 1 exponent = (10 : ℚ) ^ exponent := by
  change (1 : ℚ) * 10 ^ exponent = _
  rw [one_mul]

theorem digitCount_pos (n : Nat) : 0 < digitCount n :=
  List.length_pos_iff.mpr Nat.toDigits_ne_nil

/-- The number of digits says between which powers of ten a number lies. -/
theorem digitCount_spec {n : Nat} (hn : 0 < n) :
    10 ^ (digitCount n - 1) ≤ n ∧ n < 10 ^ digitCount n := by
  have hpos := digitCount_pos n
  refine ⟨?_, (Nat.length_toDigits_le_iff (by decide) hpos).mp (Nat.le_refl _)⟩
  by_cases hone : digitCount n = 1
  · rw [hone]
    exact hn
  · refine Nat.not_lt.mp fun hlt => ?_
    have hle : digitCount n ≤ digitCount n - 1 :=
      (Nat.length_toDigits_le_iff (by decide) (by omega)).mpr hlt
    omega

theorem digitCount_le {n k : Nat} (hk : 0 < k) (h : n < 10 ^ k) : digitCount n ≤ k :=
  (Nat.length_toDigits_le_iff (by decide) hk).mpr h

/-! ## 2. The exponent of the first digit -/

theorem digitCount_zpow {n : Nat} (hn : 0 < n) :
    (10 : ℚ) ^ ((digitCount n : ℤ) - 1) ≤ n ∧ (n : ℚ) < 10 ^ (digitCount n : ℤ) := by
  obtain ⟨hlow, hhigh⟩ := digitCount_spec hn
  have hexponent : (digitCount n : ℤ) - 1 = ((digitCount n - 1 : ℕ) : ℤ) := by
    have := digitCount_pos n
    omega
  rw [hexponent, zpow_natCast, zpow_natCast]
  exact ⟨by exact_mod_cast hlow, by exact_mod_cast hhigh⟩

/-- The exponent of the first digit is what it says, for every positive number. -/
theorem leadingExponent_spec {q : ℚ} (hq : 0 < q) :
    (10 : ℚ) ^ leadingExponent q ≤ q ∧ q < (10 : ℚ) ^ (leadingExponent q + 1) := by
  have hnum : 0 < q.num := Rat.num_pos.mpr hq
  obtain ⟨hnumLow, hnumHigh⟩ := digitCount_zpow (show 0 < q.num.toNat by omega)
  obtain ⟨hdenLow, hdenHigh⟩ := digitCount_zpow q.den_pos
  have hcast : (q.num.toNat : ℚ) = q * q.den := by
    rw [Rat.mul_den_eq_num]
    exact_mod_cast Int.toNat_of_nonneg hnum.le
  rw [hcast] at hnumLow hnumHigh
  have hden : (0 : ℚ) < q.den := by exact_mod_cast q.den_pos
  -- the difference of the digit counts is the exponent, or one more than it
  set a : ℤ := ((digitCount q.num.toNat : ℕ) : ℤ)
  set b : ℤ := ((digitCount q.den : ℕ) : ℤ)
  have hlow : (10 : ℚ) ^ (a - b - 1) ≤ q := by
    refine le_of_mul_le_mul_right ?_ hden
    calc (10 : ℚ) ^ (a - b - 1) * q.den ≤ 10 ^ (a - b - 1) * 10 ^ b := by gcongr
      _ = 10 ^ (a - 1) := by rw [← zpow_add₀ (by norm_num)]; congr 1; ring
      _ ≤ q * q.den := hnumLow
  have hhigh : q < (10 : ℚ) ^ (a - b + 1) := by
    refine lt_of_mul_lt_mul_right ?_ hden.le
    calc q * q.den < 10 ^ a := hnumHigh
      _ = 10 ^ (a - b + 1) * 10 ^ (b - 1) := by rw [← zpow_add₀ (by norm_num)]; congr 1; ring
      _ ≤ 10 ^ (a - b + 1) * q.den := by gcongr
  have hsplit : leadingExponent q = if (10 : ℚ) ^ (a - b) ≤ q then a - b else a - b - 1 := by
    rw [← scaleTen_one]
    rfl
  rw [hsplit]
  split
  · next hle => exact ⟨hle, hhigh⟩
  · next hlt =>
    rw [sub_add_cancel]
    exact ⟨hlow, not_le.mp hlt⟩

/-! ## 3. Rounding -/

theorem nearestEven_le {q : ℚ} {n : ℤ} (h : q < n) : nearestEven q ≤ n := by
  have hfloor : q.floor < n := by exact_mod_cast (Rat.floor_le q).trans_lt h
  unfold nearestEven
  dsimp only
  split_ifs <;> omega

/-- A number that is rounded to some digits gets no more digits than those, or is a power of ten. -/
theorem coefficient_roundedDecimal_le {q : ℚ} (hq : 0 < q) (digits : Nat) :
    (roundedDecimal digits q).coefficient ≤ 10 ^ digits := by
  obtain ⟨-, hhigh⟩ := leadingExponent_spec hq
  have hscaled : q * scaleTen 1 (-(leadingExponent q + 1 - digits)) < ((10 ^ digits : ℕ) : ℤ) := by
    rw [scaleTen_one]
    calc q * (10 : ℚ) ^ (-(leadingExponent q + 1 - digits))
        < 10 ^ (leadingExponent q + 1) * 10 ^ (-(leadingExponent q + 1 - digits)) := by gcongr
      _ = 10 ^ (digits : ℤ) := by rw [← zpow_add₀ (by norm_num)]; congr 1; ring
      _ = ((10 ^ digits : ℕ) : ℤ) := by push_cast; rfl
  exact Int.toNat_le.mpr (nearestEven_le hscaled)

/-- Zeros at the end of the coefficient go into the exponent. -/
theorem Decimal.strip_le (d : Decimal) (fuel : Nat) :
    (d.strip fuel).coefficient ≤ d.coefficient ∧ d.exponent ≤ (d.strip fuel).exponent ∧
      (d.strip fuel).exponent ≤ d.exponent + fuel := by
  induction fuel generalizing d with
  | zero => simp [strip]
  | succ fuel ih =>
    rw [strip]
    split
    · obtain ⟨hcoefficient, hlow, hhigh⟩ := ih ⟨d.coefficient / 10, d.exponent + 1⟩
      refine ⟨hcoefficient.trans (Nat.div_le_self _ _), ?_, ?_⟩
      · dsimp only at hlow
        omega
      · dsimp only at hhigh
        push_cast
        omega
    · exact ⟨le_rfl, le_rfl, by push_cast; omega⟩

/-! ## 4. Layouts -/

namespace Decimal

theorem length_zeros (n : Nat) : (zeros n).length = n := by simp [zeros]

theorem length_exponentText_le (e : Int) : (exponentText e).length ≤ 2 + digitCount e.natAbs := by
  have hdigits : e.natAbs.repr.length = digitCount e.natAbs := by simp [digitCount, Nat.repr]
  have hsign : (if e < 0 then "-" else "+").length = 1 := by split <;> rfl
  have hzero : "0".length = 1 := rfl
  unfold exponentText
  dsimp only
  split
  · simp only [String.length_append, toString, hsign, hdigits, hzero]
    omega
  · simp only [String.length_append, toString, hsign, hdigits]
    omega

/-- A decimal that is laid out briefly has its digits and few characters more: up to six zeros and a
point, or a point and an exponent. -/
theorem length_layOut_brief_le (d : Decimal) :
    (d.layOut .brief).length ≤
      6 + digitCount d.coefficient +
        digitCount (d.exponent + digitCount d.coefficient - 1).natAbs := by
  have hpos := digitCount_pos d.coefficient
  have hexponent := length_exponentText_le (d.exponent + digitCount d.coefficient - 1)
  have hlength : (Nat.toDigits 10 d.coefficient).length = digitCount d.coefficient := rfl
  have hpoint : ".".length = 1 := rfl
  have hzero : "0.".length = 2 := rfl
  have hmark : "e".length = 1 := rfl
  have hend : Layout.brief.greatest = 6 := rfl
  have hwhole : Layout.brief.wholeWithPoint = false := rfl
  have hstart : leastPositional = -4 := rfl
  unfold layOut
  dsimp only
  rw [hlength, hend, hstart, hwhole, if_neg Bool.false_ne_true]
  split
  · next hplain =>
    split_ifs
    all_goals simp [length_zeros, hlength]
    all_goals omega
  · split_ifs
    all_goals simp [hlength]
    all_goals omega

end Decimal

/-! ## 5. Floating point numbers -/

/-- The mantissa and the exponent of a finite number of 64 bits. -/
theorem unpack_bounds {x : Float.Model} {sign : Float.Model.UnpackedFloat.Sign} {mantissa : Nat}
    {exponent : Int} {hpos : 0 < mantissa} (h : x.unpack = .finite sign mantissa exponent hpos) :
    mantissa < 2 ^ 53 ∧ -1074 ≤ exponent ∧ exponent ≤ 972 := by
  have hbias : (Float.Model.Format.binary64.exponentBias : ℤ) + (52 : ℕ) = 1075 := rfl
  unfold Float.Model.unpack Float.Model.UnpackedFloat.unpack at h
  dsimp only at h
  split_ifs at h with htop hmantissa hbottom hzero
  · obtain ⟨-, rfl, rfl⟩ := Float.Model.UnpackedFloat.finite.inj h
    rw [hbottom, hbias]
    exact ⟨lt_trans (BitVec.isLt _) (by norm_num), by simp, by simp⟩
  · obtain ⟨-, rfl, rfl⟩ := Float.Model.UnpackedFloat.finite.inj h
    have hlt : _ < 2048 := BitVec.isLt
      (@Float.Model.UnpackedFloat.unpackExponent .binary64 x.toBits.toBitVec)
    have hne : BitVec.toNat
        (@Float.Model.UnpackedFloat.unpackExponent .binary64 x.toBits.toBitVec) ≠ 0 :=
      fun hzero => hbottom (BitVec.eq_of_toNat_eq hzero)
    rw [hbias]
    exact ⟨BitVec.isLt _, by omega, by omega⟩

theorem FloatParts.ofFloat_bounds {x : Float} {negative : Bool} {mantissa : Nat} {exponent : Int}
    (h : ofFloat x = .finite negative mantissa exponent) :
    mantissa < 2 ^ 53 ∧ -1074 ≤ exponent ∧ exponent ≤ 972 := by
  have hleast : leastExponent = -1074 := rfl
  unfold ofFloat at h
  split at h
  · cases h
  · cases h
  · cases h
  · obtain ⟨-, rfl, rfl⟩ := FloatParts.finite.inj h
    omega
  · obtain ⟨-, rfl, rfl⟩ := FloatParts.finite.inj h
    omega
  · next hunpack =>
    obtain ⟨-, rfl, rfl⟩ := FloatParts.finite.inj h
    exact unpack_bounds hunpack
  · next hunpack =>
    obtain ⟨-, rfl, rfl⟩ := FloatParts.finite.inj h
    exact unpack_bounds hunpack

theorem two_pow_le (k : ℕ) : (2 : ℚ) ^ (3 * k) ≤ 10 ^ k := by
  rw [pow_mul]
  gcongr
  norm_num

/-- The first digit of a positive number of 64 bits has an exponent of at most three digits. -/
theorem leadingExponent_bounds {mantissa : Nat} {exponent : Int} (hpos : 0 < mantissa)
    (hmantissa : mantissa < 2 ^ 53) (hlow : -1074 ≤ exponent) (hhigh : exponent ≤ 972) :
    -400 ≤ leadingExponent (scaleTwo mantissa exponent) ∧
      leadingExponent (scaleTwo mantissa exponent) ≤ 400 := by
  have hq : 0 < scaleTwo mantissa exponent := by
    rw [scaleTwo_eq]
    positivity
  obtain ⟨hfirst, hnext⟩ := leadingExponent_spec hq
  rw [scaleTwo_eq] at hfirst hnext ⊢
  constructor
  · have hsmall : (10 : ℚ) ^ (-400 : ℤ) < 10 ^ (leadingExponent (mantissa * 2 ^ exponent) + 1) := by
      calc (10 : ℚ) ^ (-400 : ℤ)
          ≤ 10 ^ (-358 : ℤ) := zpow_le_zpow_right₀ (by norm_num) (by norm_num)
        _ ≤ 2 ^ (-1074 : ℤ) := inv_anti₀ (by positivity) (two_pow_le 358)
        _ ≤ 2 ^ exponent := zpow_le_zpow_right₀ (by norm_num) hlow
        _ ≤ mantissa * 2 ^ exponent :=
          le_mul_of_one_le_left (by positivity) (by exact_mod_cast hpos)
        _ < _ := hnext
    have := (zpow_lt_zpow_iff_right₀ (by norm_num)).mp hsmall
    omega
  · have hlarge : (10 : ℚ) ^ leadingExponent (mantissa * 2 ^ exponent) < 10 ^ (400 : ℤ) := by
      calc (10 : ℚ) ^ leadingExponent (mantissa * 2 ^ exponent)
          ≤ mantissa * 2 ^ exponent := hfirst
        _ ≤ 2 ^ (53 : ℤ) * 2 ^ (972 : ℤ) := by
          gcongr
          · exact_mod_cast hmantissa.le
          · norm_num
        _ ≤ 2 ^ (1026 : ℤ) := by
          rw [← zpow_add₀ (by norm_num)]
          exact zpow_le_zpow_right₀ (by norm_num) (by norm_num)
        _ ≤ 10 ^ (342 : ℤ) := two_pow_le 342
        _ < 10 ^ (400 : ℤ) := zpow_lt_zpow_right₀ (by norm_num) (by norm_num)
    exact ((zpow_lt_zpow_iff_right₀ (by norm_num)).mp hlarge).le

/-! ## 6. Durations -/

/-- The size of a number that is written briefly: seven digits at most, since rounding can make
10 ^ 6 of six nines, and an exponent of three. -/
theorem length_magnitude_brief_le {mantissa : Nat} {exponent : Int} (hmantissa : mantissa < 2 ^ 53)
    (hlow : -1074 ≤ exponent) (hhigh : exponent ≤ 972) :
    (Layout.brief.magnitude mantissa exponent).length ≤ 16 := by
  unfold Layout.magnitude
  split
  · decide
  · next hne =>
    have hpos : 0 < mantissa := Nat.pos_of_ne_zero hne
    have hq : 0 < scaleTwo mantissa exponent := by
      rw [scaleTwo_eq]
      positivity
    have hcoefficient := coefficient_roundedDecimal_le hq 6
    obtain ⟨hleadLow, hleadHigh⟩ := leadingExponent_bounds hpos hmantissa hlow hhigh
    set d := roundedDecimal 6 (scaleTwo mantissa exponent) with hd
    have hexponent : d.exponent = leadingExponent (scaleTwo mantissa exponent) + 1 - (6 : ℕ) := rfl
    obtain ⟨hstrip, hstripLow, hstripHigh⟩ := d.strip_le mostDigits
    have hdigits : digitCount (d.strip mostDigits).coefficient ≤ 7 :=
      digitCount_le (by decide) (by omega)
    have hmost : mostDigits = 17 := rfl
    have hleading :
        digitCount ((d.strip mostDigits).exponent +
          digitCount (d.strip mostDigits).coefficient - 1).natAbs ≤ 3 :=
      digitCount_le (by decide) (by omega)
    have hlength := (d.strip mostDigits).length_layOut_brief_le
    change ((d.strip mostDigits).layOut .brief).length ≤ 16
    omega

/-- **A number that is written briefly has at most 17 characters.** -/
theorem length_write_brief_le (x : Float) : (Layout.brief.write x).length ≤ 17 := by
  unfold Layout.write
  split
  · decide
  · split <;> decide
  · next negative mantissa exponent hparts =>
    obtain ⟨hmantissa, hlow, hhigh⟩ := FloatParts.ofFloat_bounds hparts
    have hmagnitude := length_magnitude_brief_le hmantissa hlow hhigh
    have hsign : (if negative = true then "-" else "").length ≤ 1 := by split <;> decide
    rw [String.length_append]
    omega

/-- The message of an evaluation whose time is over is short, whatever the time was. -/
theorem length_haltedMessage_le (timeout : Float) :
    (haltedMessage (some timeout)).length ≤ 100 := by
  have hduration := length_write_brief_le (timeout * 1000)
  have htext : haltedMessage (some timeout) = "evaluation exceeded max duration of " ++
      Layout.brief.write (timeout * 1000) ++ " milliseconds, execution halted" := rfl
  have hfront : "evaluation exceeded max duration of ".length = 36 := rfl
  have hbehind : " milliseconds, execution halted".length = 31 := rfl
  rw [htext, String.length_append, String.length_append, hfront, hbehind]
  omega

end DiceNotation
