import Mathlib
import PrefixCalc.Proofs.DoubleValues
import PrefixCalc.Proofs.Spelling

/-! The decimal text of a binary64 pattern. The number that a pattern stands for is scaled by a
power of ten and rounded once, exactly, so that the digits of the text are the nearest integer and
no shorter decimal comes in between. -/
namespace PrefixCalc

/-- No integer is nearer to the number, and if another one is as near, this one is even. -/
structure NearestEven (x : ℚ) (n : Nat) : Prop where
  nearest : ∀ m : Int, |x - n| ≤ |x - m|
  even_of_tie : ∀ m : Int, m ≠ n → |x - m| = |x - n| → Even n

/-- Half a unit is enough, as two integers are at least one unit apart. -/
lemma NearestEven.of_half {x : ℚ} {n : Nat} (hhalf : |x - n| ≤ 1 / 2)
    (heven : |x - n| = 1 / 2 → Even n) : NearestEven x n := by
  have hrival (m : Int) (hm : m ≠ n) : 1 ≤ |x - n| + |x - m| := by
    have hapart : (1 : ℚ) ≤ |(m : ℚ) - n| := by
      exact_mod_cast Int.one_le_abs (sub_ne_zero.2 hm)
    calc (1 : ℚ) ≤ |(m : ℚ) - n| := hapart
      _ ≤ |(m : ℚ) - x| + |x - n| := abs_sub_le _ _ _
      _ = |x - n| + |x - m| := by rw [abs_sub_comm, add_comm]
  constructor
  · intro m
    by_cases hm : m = n
    · rw [hm, Int.cast_natCast]
    · linarith [hrival m hm]
  · intro m hm hdist
    apply heven
    linarith [hrival m hm]

namespace Binary64

/-- The number of a finite pattern, by its three fields. -/
def value (bits : UInt64) : ℚ :=
  (if signBit bits then -1 else 1) *
    if exponentField bits = 0 then (fractionField bits : ℚ) / 2 ^ 52 * 2 ^ (-1022 : ℤ)
    else (1 + (fractionField bits : ℚ) / 2 ^ 52) * 2 ^ ((exponentField bits : ℤ) - 1023)

lemma div_mul_zpow (x : ℚ) (n m : Int) : x / 2 ^ n * 2 ^ m = x * (2 : ℚ) ^ (m - n) := by
  rw [zpow_sub₀ two_ne_zero]
  ring

/-- Above the subnormal numbers the fraction stands behind a leading unit. -/
lemma exists_ofBits_eq {bits : UInt64} (h : exponentField bits ≠ 2047) :
    ∃ significand exponent, ofBits bits = finite (signBit bits) significand exponent ∧
      value bits = (if signBit bits then -1 else 1) * (significand * (2 : ℚ) ^ exponent) := by
  have hwidth : (2 : ℚ) ^ 52 = 2 ^ (52 : ℤ) := (zpow_natCast 2 52).symm
  by_cases hzero : exponentField bits = 0
  · refine ⟨fractionField bits, -1074, ?_, ?_⟩
    · simp only [ofBits, hzero]
    · rw [value, if_pos hzero, hwidth, div_mul_zpow]
      rfl
  · refine ⟨Nat.pow 2 52 + fractionField bits, exponentField bits - 1075, ?_, ?_⟩
    · rw [ofBits]
      split
      · exact absurd ‹_› hzero
      · exact absurd ‹_› h
      · rfl
    · have hunit : 1 + (fractionField bits : ℚ) / 2 ^ (52 : ℤ) =
          ((Nat.pow 2 52 + fractionField bits : Nat) : ℚ) / 2 ^ (52 : ℤ) := by
        rw [one_add_div (zpow_ne_zero _ two_ne_zero), Nat.cast_add, ← hwidth, Nat.pow_eq,
          Nat.cast_pow, Nat.cast_ofNat]
      have hbias : (exponentField bits : ℤ) - 1023 - 52 = exponentField bits - 1075 := by ring
      rw [value, if_neg hzero, hwidth, hunit, div_mul_zpow, hbias]

theorem number?_ofBits {bits : UInt64} (h : exponentField bits ≠ 2047) :
    (ofBits bits).number? = some (value bits) := by
  obtain ⟨significand, exponent, hbits, hvalue⟩ := exists_ofBits_eq h
  rw [hbits, number?, hvalue, mul_assoc]

lemma abs_of_number? {negative : Bool} {significand : Nat} {exponent : Int} {x : ℚ}
    (h : (finite negative significand exponent).number? = some x) :
    |x| = significand * (2 : ℚ) ^ exponent := by
  obtain rfl := Option.some.inj h
  have hpow : (0 : ℚ) < 2 ^ exponent := zpow_pos two_pos exponent
  cases negative <;> simp [abs_mul, abs_of_pos hpow]

lemma ratio_eq (significand : Nat) (exponent : Int) :
    ((ratio significand exponent).1 : ℚ) / (ratio significand exponent).2 =
      significand * (2 : ℚ) ^ exponent := by
  have hpow : (2 : ℚ) ^ exponent = 2 ^ exponent.toNat / 2 ^ (-exponent).toNat := by
    rw [← zpow_natCast, ← zpow_natCast, ← zpow_sub₀ two_ne_zero, Int.toNat_sub_toNat_neg]
  rw [ratio, hpow, Nat.pow_eq, Nat.pow_eq]
  push_cast
  ring

end Binary64

namespace FixedPoint

/-- A text that consists of a minus where there should be one, the digits of the integer part
without any that are superfluous, a point, and so many further digits. -/
structure Written (places : Nat) (text : String) (negative : Bool) (whole fraction : List Char) :
    Prop where
  text_eq : text.toList = (if negative then ['-'] else []) ++ (whole ++ '.' :: fraction)
  plain : Text.Plain whole
  length_eq : fraction.length = places
  digits : ∀ c ∈ fraction, c.isDigit = true

theorem roundQuotient_nearestEven (num : Nat) {den : Nat} (h : 0 < den) :
    NearestEven ((num : ℚ) / den) (roundQuotient num den) := by
  have hden : (0 : ℚ) < den := Nat.cast_pos.2 h
  apply NearestEven.of_half
  · obtain ⟨hlow, hhigh⟩ := @roundQuotient_within num den h
    qify at hlow hhigh
    have hbelow : (roundQuotient num den : ℚ) - 1 / 2 ≤ num / den := by
      rw [le_div_iff₀ hden]
      linarith
    have habove : (num : ℚ) / den ≤ roundQuotient num den + 1 / 2 := by
      rw [div_le_iff₀ hden]
      linarith
    rw [abs_le]
    constructor <;> linarith
  · intro htie
    rw [Nat.even_iff]
    apply roundQuotient_even_of_tie
    by_contra hne
    obtain ⟨hlow, hhigh⟩ := roundQuotient_within_of_ne h hne
    qify at hlow hhigh
    have hbelow : (roundQuotient num den : ℚ) - 1 / 2 < num / den := by
      rw [lt_div_iff₀ hden]
      linarith
    have habove : (num : ℚ) / den < roundQuotient num den + 1 / 2 := by
      rw [div_lt_iff₀ hden]
      linarith
    have hless : |(num : ℚ) / den - roundQuotient num den| < 1 / 2 := by
      rw [abs_lt]
      constructor <;> linarith
    exact absurd htie hless.ne

lemma ofDigitChars_leftpad (places n : Nat) :
    Nat.ofDigitChars 10 ((Nat.toDigits 10 n).leftpad places '0') 0 = n := by
  rw [List.leftpad, Nat.ofDigitChars_append, Nat.ofDigitChars_replicate_zero, Nat.mul_zero,
    Nat.ofDigitChars_ten_toDigits]

/-- The digits in front of the point and behind it are those of one number. -/
theorem written_text {places : Nat} (h : 0 < places) (negative : Bool) (n : Nat) :
    ∃ whole fraction, Written places (sign negative ++ text places n) negative whole fraction ∧
      Nat.ofDigitChars 10 (whole ++ fraction) 0 = n := by
  have hlength : ((Nat.toDigits 10 (n % 10 ^ places)).leftpad places '0').length = places := by
    have hle : (Nat.toDigits 10 (n % 10 ^ places)).length ≤ places :=
      Nat.toDigits_length 10 _ places h (Nat.mod_lt n (Nat.pow_pos (by decide)))
    rw [List.length_leftpad, Nat.max_eq_left hle]
  refine ⟨Nat.toDigits 10 (n / 10 ^ places),
    (Nat.toDigits 10 (n % 10 ^ places)).leftpad places '0',
    ⟨?_, Text.plain_toDigits _, hlength, fun c => Text.isDigit_of_mem_leftpad⟩, ?_⟩
  · cases negative <;> simp [sign, text, Nat.toList_repr]
  · rw [Nat.ofDigitChars_append, Nat.ofDigitChars_ten_toDigits,
      Nat.ofDigitChars_eq_ofDigitChars_zero, hlength, ofDigitChars_leftpad, Nat.div_add_mod]

/-- The number is rounded once, to a whole number of its last places. -/
theorem written_ofBinary64 {negative : Bool} {significand : Nat} {exponent : Int} {x : ℚ}
    (h : (Binary64.finite negative significand exponent).number? = some x) :
    ∃ whole fraction,
      Written places (ofBinary64 (.finite negative significand exponent)) negative whole fraction ∧
      NearestEven (|x| * 10 ^ places) (Nat.ofDigitChars 10 (whole ++ fraction) 0) := by
  have hvalue : |x| = _ := (Binary64.abs_of_number? h).trans (Binary64.ratio_eq _ _).symm
  have hden := Binary64.ratio_snd_pos significand exponent
  rw [ofBinary64]
  generalize Binary64.ratio significand exponent = ratio at hvalue hden ⊢
  obtain ⟨num, den⟩ := ratio
  have hscaled : ((num * Nat.pow 10 places : Nat) : ℚ) / den = |x| * 10 ^ places := by
    rw [hvalue, Nat.pow_eq]
    push_cast
    ring
  obtain ⟨whole, fraction, hwritten, hdigits⟩ := @written_text places (by decide) negative
    (roundQuotient (num * Nat.pow 10 places) den)
  refine ⟨whole, fraction, hwritten, ?_⟩
  rw [hdigits, ← hscaled]
  exact roundQuotient_nearestEven _ hden

end FixedPoint

namespace Expr
open Binary64 FixedPoint

/-- Double mode prints the pattern of the value and nothing else has a say in it. A finite number is
written with its sign bit, as the nearest multiple of a hundred-thousandth and the even one of two;
what is infinite keeps its sign, and what is not a number has none. -/
theorem double_is_printed_nearest {β : Type} (kit : Assembly.Kit β) :
    (∀ (e : Expr) (reports : List Fault), (e.print kit reports .double).value =
      ⟨.ok (some (ofBinary64 (ofBits e.double.toBits))), reports⟩) ∧
    (∀ bits : UInt64, let text := ofBinary64 (ofBits bits)
      (exponentField bits ≠ 2047 → ∃ whole fraction,
        Written 5 text (signBit bits) whole fraction ∧
        NearestEven (|value bits| * 100000) (Nat.ofDigitChars 10 (whole ++ fraction) 0)) ∧
      (exponentField bits = 2047 → fractionField bits = 0 →
        text = if signBit bits then "-inf" else "inf") ∧
      (exponentField bits = 2047 → fractionField bits ≠ 0 → text = "NaN")) := by
  refine ⟨fun e reports => rfl, ?_⟩
  intro bits text
  refine ⟨?_, ?_, ?_⟩
  · intro hfinite
    have hnumber := number?_ofBits hfinite
    obtain ⟨significand, exponent, hbits, -⟩ := exists_ofBits_eq hfinite
    rw [hbits] at hnumber
    obtain ⟨whole, fraction, hwritten, hnearest⟩ := written_ofBinary64 hnumber
    rw [← hbits] at hwritten
    have hplaces : (10 : ℚ) ^ places = 100000 := by norm_num [places]
    rw [hplaces] at hnearest
    exact ⟨whole, fraction, hwritten, hnearest⟩
  · intro hexponent hfraction
    have hbits : ofBits bits = infinite (signBit bits) := by
      simp only [ofBits, hexponent, hfraction, if_pos]
    change ofBinary64 (ofBits bits) = _
    rw [hbits]
    cases signBit bits <;> rfl
  · intro hexponent hfraction
    have hbits : ofBits bits = nan := by
      simp only [ofBits, hexponent, hfraction, if_false]
    change ofBinary64 (ofBits bits) = _
    rw [hbits]
    rfl

/-- A tie at the sixth place, a carry through the point, and the least number below zero. -/
example : ofBinary64 (ofBits 0x3F90000000000000) = "0.01562" ∧
    ofBinary64 (ofBits 0x3FEFFFFDE7210BE9) = "1.00000" ∧
    ofBinary64 (ofBits 0x8000000000000001) = "-0.00000" := by decide +kernel

end Expr
end PrefixCalc
