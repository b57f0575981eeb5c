import Mathlib
import PrefixCalc.Proofs.Reports
import PrefixCalc.Proofs.WholeFloats

/-! The value of an expression on binary64 is its value on words, as long as all quotients come out
even and negation does not wrap. A word is far below the first whole number that has no pattern of
its own, so nothing is ever rounded away. -/
namespace PrefixCalc
namespace Binary64
open Float.Model (Format UnpackedFloat)
open Float.Model.UnpackedFloat
open Whole (toNat_one_append)

def isNegative : Sign → Bool
  | .negative => true
  | .positive => false

def ofUnpacked : UnpackedFloat → Binary64
  | .notANumber => nan
  | .infinity s => infinite (isNegative s)
  | .zero s => finite (isNegative s) 0 (-1074)
  | .finite s m e _ => finite (isNegative s) m e

lemma toNat_unpackExponent (bits : UInt64) :
    (@unpackExponent Format.binary64 bits.toBitVec).toNat = exponentField bits := by
  rw [unpackExponent, BitVec.toNat_cast, BitVec.extractLsb_toNat, Nat.shiftRight_eq_div_pow]
  rfl

lemma toNat_unpackMantissa (bits : UInt64) :
    (@unpackMantissa Format.binary64 bits.toBitVec).toNat = fractionField bits := by
  rw [unpackMantissa, BitVec.toNat_cast, BitVec.extractLsb_toNat]
  rfl

lemma isNegative_ofBitVec :
    ∀ b : BitVec 1, isNegative (Sign.ofBitVec b) = decide (b.toNat = 1) := by decide

lemma isNegative_unpackSign (bits : UInt64) :
    isNegative (Sign.ofBitVec (@unpackSign Format.binary64 bits.toBitVec)) = signBit bits := by
  have hlt : bits.toNat < 2 ^ 64 := bits.toNat_lt
  have hbit : (@unpackSign Format.binary64 bits.toBitVec).toNat =
      bits.toNat / 2 ^ 63 % 2 := by
    rw [unpackSign, BitVec.toNat_cast, BitVec.extractLsb_toNat, Nat.shiftRight_eq_div_pow]
    rfl
  rw [isNegative_ofBitVec, hbit, signBit, decide_eq_decide]
  change _ ↔ 2 ^ 63 ≤ bits.toNat
  omega

lemma unpackExponent_eq_iff {bits : UInt64} {e : BitVec 11} :
    @unpackExponent Format.binary64 bits.toBitVec = e ↔ exponentField bits = e.toNat := by
  rw [← toNat_unpackExponent]
  exact BitVec.toNat_inj.symm

lemma unpackMantissa_eq_zero_iff {bits : UInt64} :
    @unpackMantissa Format.binary64 bits.toBitVec = 0#52 ↔ fractionField bits = 0 := by
  rw [← toNat_unpackMantissa]
  exact BitVec.toNat_inj.symm

/-- The fields of a pattern are read as the floats of the machine read them. -/
theorem ofBits_eq (bits : UInt64) :
    ofBits bits = ofUnpacked (unpack Format.binary64 bits.toBitVec) := by
  have hones : @unpackExponent Format.binary64 bits.toBitVec = -1#11 ↔
      exponentField bits = 2047 := unpackExponent_eq_iff
  have hzero : @unpackExponent Format.binary64 bits.toBitVec = 0#11 ↔
      exponentField bits = 0 := unpackExponent_eq_iff
  have hfraction : @unpackMantissa Format.binary64 bits.toBitVec = 0#52 ↔
      fractionField bits = 0 := unpackMantissa_eq_zero_iff
  rw [ofBits, unpack]
  simp only [hones, hzero, hfraction, toNat_unpackExponent, toNat_unpackMantissa, toNat_one_append,
    ← isNegative_unpackSign]
  split
  case h_1 h =>
    have hsome : ¬ exponentField bits = 2047 := by
      rw [h]
      decide
    rw [if_neg hsome, if_pos h, h]
    by_cases hf : fractionField bits = 0
    · rw [dif_pos hf, hf]
      rfl
    · rw [dif_neg hf]
      rfl
  case h_2 h =>
    rw [if_pos h]
    by_cases hf : fractionField bits = 0
    · rw [if_pos hf, if_pos hf]
      rfl
    · rw [if_neg hf, if_neg hf]
      rfl
  case h_3 h h' =>
    rw [if_neg h', if_neg h]
    rfl

/-- The number that a pattern stands for, if it stands for one. -/
def number? : Binary64 → Option ℚ
  | finite negative significand exponent =>
    some ((if negative then -1 else 1) * significand * (2 : ℚ) ^ exponent)
  | _ => none

/-- A whole number has a pattern that is the number itself with zeros behind it. -/
lemma ofFloat_of_isWhole {x : Float} {n : Int} (h : IsWhole x n) :
    ∃ (s : Sign) (k j : Nat), s.apply k = n ∧
      ofFloat x = finite (isNegative s) (k * 2 ^ j) (-(j : Int)) := by
  obtain ⟨s, k, -, hx, hn⟩ := h
  have hread : ofFloat x = ofUnpacked (Whole.normal s k) := by
    rw [← hx]
    exact ofBits_eq x.toBits
  by_cases hk : k = 0
  · subst hk
    refine ⟨s, 0, 1074, hn, ?_⟩
    rw [hread, Nat.zero_mul]
    rfl
  · refine ⟨s, k, Whole.room k, hn, ?_⟩
    rw [hread, Whole.normal_of_ne_zero hk]
    rfl

theorem number?_of_isWhole {x : Float} {n : Int} (h : IsWhole x n) :
    (ofFloat x).number? = some (n : ℚ) := by
  obtain ⟨s, k, j, rfl, hx⟩ := ofFloat_of_isWhole h
  have htwo : (2 : ℚ) ^ j ≠ 0 := pow_ne_zero j (by decide)
  have hscale : ((k * 2 ^ j : Nat) : ℚ) * 2 ^ (-(j : Int)) = k := by
    rw [Nat.cast_mul, Nat.cast_pow, Nat.cast_ofNat, zpow_neg, zpow_natCast, mul_assoc,
      mul_inv_cancel₀ htwo, mul_one]
  rw [hx, number?, mul_assoc, hscale]
  cases s with
  | negative => simp [isNegative, Sign.apply]
  | positive => simp [isNegative, Sign.apply]

end Binary64

namespace Text

lemma spelling_neg_natCast {k : Nat} (h : k ≠ 0) : spelling (-(k : Int)) = "-" ++ k.repr := by
  rw [spelling, Int.repr_eq_if, if_neg (by omega), Int.neg_neg, Int.toNat_natCast]

end Text

namespace FixedPoint

/-- The places behind the point are zeros. -/
lemma text_whole (k : Nat) : text places (k * Nat.pow 10 places) = k.repr ++ ".00000" := by
  have hpow : 0 < Nat.pow 10 places := by decide
  rw [text, Nat.mul_div_cancel _ hpow, Nat.mul_mod_left, String.append_assoc]
  congr 1

lemma ofBinary64_scaled (negative : Bool) (k j : Nat) :
    ofBinary64 (.finite negative (k * 2 ^ j) (-(j : Int))) =
      sign negative ++ (k.repr ++ ".00000") := by
  have hnum : Nat.pow 2 (-(j : Int)).toNat = 1 := by
    rw [Int.toNat_of_nonpos (by omega)]
  have hden : Nat.pow 2 (- -(j : Int)).toNat = 2 ^ j := by
    rw [Int.neg_neg, Int.toNat_natCast, Nat.pow_eq]
  have hround : roundQuotient (k * 2 ^ j * 1 * Nat.pow 10 places) (2 ^ j) =
      k * Nat.pow 10 places := by
    rw [Nat.mul_one, Nat.mul_right_comm, Nat.mul_comm, roundQuotient_mul (Nat.two_pow_pos j)]
  rw [ofBinary64, Binary64.ratio, hnum, hden]
  simp only [hround, text_whole]

/-- A whole number is written like an integer, but a zero may be negative. -/
theorem ofFloat_of_isWhole {x : Float} {n : Int} (h : IsWhole x n) :
    ofFloat x = Text.spelling n ++ ".00000" ∨
      n = 0 ∧ ofFloat x = "-" ++ Text.spelling n ++ ".00000" := by
  obtain ⟨s, k, j, rfl, hx⟩ := Binary64.ofFloat_of_isWhole h
  rw [ofFloat, hx, ofBinary64_scaled]
  cases s with
  | positive => exact .inl (String.empty_append)
  | negative =>
    by_cases hk : k = 0
    · subst hk
      exact .inr ⟨rfl, (String.append_assoc ..).symm⟩
    · refine .inl ?_
      change "-" ++ (k.repr ++ ".00000") = Text.spelling (-(k : Int)) ++ ".00000"
      rw [Text.spelling_neg_natCast hk, String.append_assoc]

end FixedPoint

namespace Expr

/-- Every quotient comes out even, and no negation meets the one word without an opposite. -/
structure StaysExact (e : Expr) : Prop where
  divides : ∀ l r, binary .div l r ∈ e.postorder → ∀ a b, l.value? = some a →
    r.value? = some b → b.toInt ∣ a.toInt
  negates : ∀ x, negate x ∈ e.postorder → ∀ w, x.value? = some w → w.toInt ≠ leastWord

lemma StaysExact.of_subset {e part : Expr} (h : e.StaysExact)
    (hpart : part.postorder ⊆ e.postorder) : part.StaysExact where
  divides l r hmem := h.divides l r (hpart hmem)
  negates x hmem := h.negates x (hpart hmem)

lemma natAbs_toInt_lt (v : Int32) : v.toInt.natAbs < 2 ^ 53 := by
  have hword := isWord_toInt v
  unfold IsWord leastWord greatestWord at hword
  omega

/-- Floats take the value on words along, operation by operation. -/
theorem isWhole_double {e : Expr} {v : Int32} (h : e.value? = some v) (hexact : e.StaysExact) :
    IsWhole e.double v.toInt := by
  induction e generalizing v with
  | operand w =>
    obtain rfl := Option.some.inj h
    exact IsWhole.ofInt (natAbs_toInt_lt w)
  | binary op l r ihl ihr =>
    obtain ⟨a, b, ha, hb, hv⟩ := exists_of_value?_binary h
    have hl := ihl ha (hexact.of_subset fun s hs => by simp [postorder, hs])
    have hr := ihr hb (hexact.of_subset fun s hs => by simp [postorder, hs])
    refine IsWhole.onFloat hl hr (BinaryOp.checked_eq_some_iff.1 hv) ?_ (natAbs_toInt_lt v)
    rintro rfl
    exact hexact.divides l r (mem_postorder_self _) a b ha hb
  | negate x ih =>
    rw [value?_negate] at h
    obtain ⟨w, hw, rfl⟩ := Option.map_eq_some_iff.1 h
    have hx := ih hw (hexact.of_subset fun s hs => by simp [postorder, hs])
    rw [toInt_negateWrapping, if_neg (hexact.negates x (mem_postorder_self _) w hw)]
    exact IsWhole.neg hx

/-- Where an expression has a value on words, all its quotients come out even and no negation wraps,
its value on binary64 is the same number, and is printed with five zeros behind the point. Only a
zero can look different, by a minus sign. -/
theorem double_agrees_with_integer {β : Type} (kit : Assembly.Kit β) {e : Expr} {v : Int32}
    (h : e.value? = some v)
    (hdiv : ∀ l r, binary .div l r ∈ e.postorder → ∀ a b, l.value? = some a → r.value? = some b →
      b.toInt ∣ a.toInt)
    (hneg : ∀ x, negate x ∈ e.postorder → ∀ w, x.value? = some w → w.toInt ≠ leastWord) :
    (Binary64.ofFloat e.double).number? = some (v.toInt : ℚ) ∧
    ∀ reports, ∃ text, (e.print kit reports .integer).value = ⟨.ok (some text), reports⟩ ∧
      ((e.print kit reports .double).value = ⟨.ok (some (text ++ ".00000")), reports⟩ ∨
        v = 0 ∧ (e.print kit reports .double).value =
          ⟨.ok (some ("-" ++ text ++ ".00000")), reports⟩) := by
  have hwhole := isWhole_double h ⟨hdiv, hneg⟩
  refine ⟨Binary64.number?_of_isWhole hwhole, ?_⟩
  intro reports
  refine ⟨Text.spelling v.toInt, ?_, ?_⟩
  · rw [value_print_integer, h, faults_eq_nil_of_value? h, List.append_nil]
    rfl
  · obtain htext | ⟨hzero, htext⟩ := FixedPoint.ofFloat_of_isWhole hwhole
    · refine .inl ?_
      rw [← htext]
      rfl
    · refine .inr ⟨Int32.toInt_inj.1 hzero, ?_⟩
      rw [← htext]
      rfl

/-- The infix text is `3*-4-8/2`: the quotient comes out even, and the value is negative. -/
theorem double_agrees_with_integer_on_even_quotient :
    let e := binary .sub (binary .mul (operand 3) (negate (operand 4)))
      (binary .div (operand 8) (operand 2))
    e.value? = some (-16) ∧
      (∀ l r, binary .div l r ∈ e.postorder → ∀ a b, l.value? = some a → r.value? = some b →
        b.toInt ∣ a.toInt) ∧
      (∀ x, negate x ∈ e.postorder → ∀ w, x.value? = some w → w.toInt ≠ leastWord) ∧
      (Binary64.ofFloat e.double).number? = some ((-16 : Int32).toInt : ℚ) ∧
      ∃ text, (e.print Assembly.inBytes [] .integer).value = ⟨.ok (some text), []⟩ ∧
        ((e.print Assembly.inBytes [] .double).value = ⟨.ok (some (text ++ ".00000")), []⟩ ∨
          (-16 : Int32) = 0 ∧ (e.print Assembly.inBytes [] .double).value =
            ⟨.ok (some ("-" ++ text ++ ".00000")), []⟩) := by
  intro e
  have hvalue : e.value? = some (-16) := by decide
  have hdiv : ∀ l r, binary .div l r ∈ e.postorder → ∀ a b, l.value? = some a →
      r.value? = some b → b.toInt ∣ a.toInt := by
    intro l r hmem a b ha hb
    obtain ⟨rfl, rfl⟩ : l = operand 8 ∧ r = operand 2 := by simpa [e, postorder] using hmem
    obtain rfl := Option.some.inj ha
    obtain rfl := Option.some.inj hb
    decide
  have hneg : ∀ x, negate x ∈ e.postorder → ∀ w, x.value? = some w → w.toInt ≠ leastWord := by
    intro x hmem w hw
    obtain rfl : x = operand 4 := by simpa [e, postorder] using hmem
    obtain rfl := Option.some.inj hw
    decide
  obtain ⟨hnumber, hprint⟩ := double_agrees_with_integer Assembly.inBytes hvalue hdiv hneg
  exact ⟨hvalue, hdiv, hneg, hnumber, hprint []⟩

/-- A zero that keeps its sign, and a quotient that a word cuts off. -/
example : FixedPoint.ofFloat (negate (operand 0)).double = "-0.00000" ∧
    FixedPoint.ofFloat (binary .div (operand 7) (operand 2)).double = "3.50000" := by
  decide +kernel

end Expr
end PrefixCalc
