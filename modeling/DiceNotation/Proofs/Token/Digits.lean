/-
# Runs of many digits

A run of digits is a number if its value fits (`Token.ofValue`).  The cutting does not find out the
value of a run of more than twenty digits, because that could not fit, and takes the run for
malformed at once.  The two agree unless the run has more than twenty digits and a value that fits
(`ofDigits_eq_ofValue_iff`), and such a run has zeros in front of its value: without them, more than
twenty digits make a number that is too large (`lt_ofDigitChars_of_long`).

So wherever a run of digits stands as a piece of its own, its value decides what it stands for,
except for long runs with zeros in front, which are malformed whatever their value is
(`Token.digits_stand_for`).
-/
import Mathlib.Algebra.Group.Nat.Defs
import DiceNotation.Proofs.Token.Partition

namespace DiceNotation

/-! ## 1. The value and the length of a run -/

namespace Token

/-- What a run of digits stands for by its value alone, however many digits it has. -/
def ofValue (digits : List Char) : Token :=
  if Nat.ofDigitChars 10 digits 0 ≤ maxNumber then number (Nat.ofDigitChars 10 digits 0)
  else malformed (String.ofList digits)

variable {digits : List Char}

theorem ofDigits_of_short (h : digits.length ≤ 20) : ofDigits digits = ofValue digits := by
  unfold ofDigits ofValue
  simp only [h, true_and]

theorem ofDigits_of_long (h : 20 < digits.length) :
    ofDigits digits = malformed (String.ofList digits) := by
  unfold ofDigits
  rw [if_neg]
  rintro ⟨hshort, -⟩
  omega

/-- **The limit of the length agrees with the value**, unless it refuses a value that fits. -/
theorem ofDigits_eq_ofValue_iff :
    ofDigits digits = ofValue digits ↔
      digits.length ≤ 20 ∨ maxNumber < Nat.ofDigitChars 10 digits 0 := by
  rcases Nat.lt_or_ge 20 digits.length with hlong | hshort
  · rw [ofDigits_of_long hlong, ofValue]
    constructor
    · intro h
      split at h
      · cases h
      · next hlarge => exact .inr (Nat.lt_of_not_le hlarge)
    · rintro (hshort | hlarge)
      · omega
      · rw [if_neg (Nat.not_le_of_lt hlarge)]
  · exact ⟨fun _ => .inl hshort, fun _ => ofDigits_of_short hshort⟩

/-- Each digit behind a number makes it ten times as large, or more. -/
theorem mul_pow_le_ofDigitChars (n : Nat) (digits : List Char) :
    n * 10 ^ digits.length ≤ Nat.ofDigitChars 10 digits n := by
  induction digits generalizing n with
  | nil => exact Nat.le_of_eq (Nat.mul_one n)
  | cons d digits ih =>
    rw [Nat.ofDigitChars_cons, List.length_cons]
    calc
      n * 10 ^ (digits.length + 1) = 10 * n * 10 ^ digits.length := by
        rw [Nat.pow_succ, Nat.mul_comm 10 n, Nat.mul_assoc, Nat.mul_comm 10]
      _ ≤ (10 * n + (d.toNat - '0'.toNat)) * 10 ^ digits.length :=
        Nat.mul_le_mul_right _ (Nat.le_add_right _ _)
      _ ≤ Nat.ofDigitChars 10 digits (10 * n + (d.toNat - '0'.toNat)) := ih _

theorem value_pos_of_isDigit {d : Char} (hd : d.isDigit = true) (hzero : d ≠ '0') :
    1 ≤ d.toNat - '0'.toNat := by
  have hne : d.toNat ≠ '0'.toNat := fun h => hzero (Char.toNat_inj.mp h)
  have hle : '0'.toNat ≤ d.toNat := by
    simp only [Char.isDigit, Bool.and_eq_true, decide_eq_true_eq, ge_iff_le,
      UInt32.le_iff_toNat_le] at hd
    exact hd.1
  omega

/-- **More than twenty digits are too many**, if the first one is not a zero. -/
theorem lt_ofDigitChars_of_long {d : Char} (hd : d.isDigit = true) (hzero : d ≠ '0')
    (hlong : 20 ≤ digits.length) : maxNumber < Nat.ofDigitChars 10 (d :: digits) 0 := by
  rw [Nat.ofDigitChars_cons, Nat.mul_zero, Nat.zero_add]
  calc
    maxNumber < 1 * 10 ^ 20 := by decide
    _ ≤ (d.toNat - '0'.toNat) * 10 ^ digits.length :=
      Nat.mul_le_mul (value_pos_of_isDigit hd hzero) (Nat.pow_le_pow_right (by decide) hlong)
    _ ≤ Nat.ofDigitChars 10 digits (d.toNat - '0'.toNat) := mul_pow_le_ofDigitChars _ _

theorem ofDigits_eq_ofValue {rest : List Char} (hrun : Run Char.isDigit digits rest)
    (hzero : digits.head? ≠ some '0') : ofDigits digits = ofValue digits := by
  obtain ⟨d, ds, rfl, hd, -⟩ := hrun.exists_cons
  rw [ofDigits_eq_ofValue_iff]
  rcases Nat.lt_or_ge ds.length 20 with hshort | hlong
  · exact .inl hshort
  · exact .inr (lt_ofDigitChars_of_long hd (fun h => hzero (congrArg some h)) hlong)

end Token

/-! ## 2. Runs of digits in a text -/

/-- Behind some of its parts a text is split as if it began there. -/
theorem Splits.behind {before after : List (List Char × Option Token)} {rest left : List Char}
    (h : Splits ((before.map Prod.fst).flatten ++ rest) (before ++ after) left) :
    Splits rest after left := by
  induction before with
  | nil => exact h
  | cons part before ih =>
    obtain ⟨piece, token⟩ := part
    rw [List.map_cons, List.flatten_cons, List.append_assoc, List.cons_append] at h
    cases h with
    | part htext _ h => exact ih (List.append_cancel_left htext ▸ h)

/-- **Where a piece begins, a run of digits is that piece.**  It stands for the number that is its
value, or for a malformed piece if the value does not fit; only a run of more than twenty digits
with a value that fits, and therefore with a zero in front, is malformed nevertheless. -/
theorem Token.digits_stand_for {text : String} {before after : List (List Char × Option Token)}
    {digits rest left : List Char} (hsplits : Splits text.toList (before ++ after) left)
    (htext : text.toList = (before.map Prod.fst).flatten ++ (digits ++ rest))
    (hrun : Run Char.isDigit digits rest) :
    ∃ t more, after = (digits, some t) :: more ∧
      ofText text = before.filterMap Prod.snd ++ t :: more.filterMap Prod.snd ∧
      (t = ofValue digits ↔
        digits.length ≤ 20 ∨ maxNumber < Nat.ofDigitChars 10 digits 0) ∧
      (digits.head? ≠ some '0' → t = ofValue digits) ∧
      (20 < digits.length → t = malformed (String.ofList digits)) := by
  have htokens : ofText text = (before ++ after).filterMap Prod.snd := hsplits.tokensOf_eq
  rw [htext] at hsplits
  obtain ⟨more, left', hmore⟩ := exists_splits rest
  obtain ⟨rfl, -⟩ := (Splits.part rfl (firstPiece_digits hrun) hmore).unique hsplits.behind
  refine ⟨ofDigits digits, more, rfl, ?_, ofDigits_eq_ofValue_iff, ofDigits_eq_ofValue hrun,
    ofDigits_of_long⟩
  rw [htokens, List.filterMap_append]
  rfl

/-- The largest number behind a quoted digit and in front of a letter. -/
theorem Token.digits_stand_for_largest :
    let digits := "18446744073709551615".toList
    ∃ before after left, Splits "'5' 18446744073709551615d".toList (before ++ after) left ∧
      (before.map Prod.fst).flatten = "'5' ".toList ∧ Run Char.isDigit digits ['d'] ∧
      ∃ more, after = (digits, some (number maxNumber)) :: more := by
  intro digits
  have hrun : Run Char.isDigit digits ['d'] := by decide
  have hblank : Run isSpace [' '] (digits ++ ['d']) := by decide
  obtain ⟨after, left, hafter⟩ := exists_splits (digits ++ ['d'])
  have hsplits : Splits "'5' 18446744073709551615d".toList
      ([(['\'', '5', '\''], some (char '5')), ([' '], none)] ++ after) left :=
    .part rfl (.character '5' _) (.part rfl (.blanks hblank) hafter)
  obtain ⟨t, more, hfirst, -, -, hvalue, -⟩ := digits_stand_for hsplits rfl hrun
  have hlargest : ofValue digits = number maxNumber := by decide
  rw [hvalue (by decide), hlargest] at hfirst
  exact ⟨_, after, left, hsplits, rfl, hrun, more, hfirst⟩

/-- **A one with twenty zeros in front is malformed**, although by its value it is the number 1. -/
theorem Token.ofText_padded_one :
    let digits := "000000000000000000001".toList
    Run Char.isDigit digits [] ∧ ofValue digits = number 1 ∧
      ofText (String.ofList digits) = [malformed (String.ofList digits)] ∧
      ofText (String.ofList digits) ≠ [ofValue digits] := by
  intro digits
  have hrun : Run Char.isDigit digits [] := by decide
  have hvalue : ofValue digits = number 1 := by decide
  have htokens : ofText (String.ofList digits) = [malformed (String.ofList digits)] := by
    have hcut := (cutsOff_digits hrun).tokensOf_append
    rwa [List.append_nil, ofDigits_of_long (by decide), tokensOf_nil] at hcut
  refine ⟨hrun, hvalue, htokens, ?_⟩
  rw [htokens, hvalue]
  decide

end DiceNotation
