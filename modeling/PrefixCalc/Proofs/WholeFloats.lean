import Mathlib
import PrefixCalc.Proofs.IntegerValues

/-! Whole numbers of at most fifty-three bits among the floats. An operation whose exact result is
such a number gives that number, because rounding only ever drops zeros from it. -/
namespace PrefixCalc
open Float.Model (Format UnpackedFloat totalExponent)
open Float.Model.UnpackedFloat

namespace Whole

/-- How far the leading bit of a number is from the fifty-third place. -/
def room (k : Nat) : Nat := 52 - k.log2

lemma log2_le {k : Nat} (hk : k < 2 ^ 53) : k.log2 ≤ 52 := by
  by_cases h : k = 0
  · subst h
    decide
  · exact Nat.le_of_lt_succ ((Nat.log2_lt h).2 hk)

lemma scaled_ne_zero {k : Nat} (h : k ≠ 0) (j : Nat) : k * 2 ^ j ≠ 0 :=
  Nat.mul_ne_zero h (Nat.ne_of_gt (Nat.two_pow_pos j))

lemma log2_scaled {k : Nat} (h : k ≠ 0) (j : Nat) : (k * 2 ^ j).log2 = k.log2 + j := by
  rw [Nat.log2_eq_iff (scaled_ne_zero h j)]
  have hlower := Nat.mul_le_mul_right (2 ^ j) (Nat.log2_self_le h)
  have hupper := Nat.mul_lt_mul_of_pos_right (Nat.lt_log2_self (n := k)) (Nat.two_pow_pos j)
  rw [← Nat.pow_add] at hlower hupper
  have hexponent : k.log2 + 1 + j = k.log2 + j + 1 := by omega
  rw [hexponent] at hupper
  exact ⟨hlower, hupper⟩

/-- The form in which an operation leaves a whole number: all fifty-three places are in use. -/
def normal (s : Sign) (k : Nat) : UnpackedFloat :=
  if h : k = 0 then .zero s
  else .finite s (k * 2 ^ room k) (-(room k : Int)) (Nat.pos_of_ne_zero (scaled_ne_zero h _))

lemma normal_of_ne_zero {k : Nat} (h : k ≠ 0) (s : Sign) : normal s k =
    .finite s (k * 2 ^ room k) (-(room k : Int)) (Nat.pos_of_ne_zero (scaled_ne_zero h _)) :=
  dif_neg h

lemma target_scaled {k : Nat} (h : k ≠ 0) (hk : k < 2 ^ 53) (j : Nat) :
    Format.binary64.targetExponent (totalExponent (k * 2 ^ j) (-(j : Int))) = -(room k : Int) := by
  have hlog := log2_le hk
  simp only [Format.targetExponent, totalExponent, log2_scaled h, Format.mantissaBits,
    Format.minExponent, room]
  omega

/-- Zeros behind the places that are kept are dropped without a trace. -/
lemma shiftRight_scaled (k j : Nat) :
    ExtendedMantissa.ofMantissaAndAccuracy (k * 2 ^ j) .exact >>> j =
      ExtendedMantissa.ofMantissaAndAccuracy k .exact := by
  induction j generalizing k with
  | zero =>
    rw [Nat.pow_zero, Nat.mul_one]
    rfl
  | succ j ih =>
    change ExtendedMantissa.shiftRightOne
      (ExtendedMantissa.ofMantissaAndAccuracy (k * 2 ^ (j + 1)) .exact >>> j) = _
    have hpow : k * 2 ^ (j + 1) = k * 2 * 2 ^ j := by
      rw [Nat.pow_succ, Nat.mul_comm (2 ^ j), Nat.mul_assoc]
    rw [hpow, ih]
    simp [ExtendedMantissa.shiftRightOne, ExtendedMantissa.ofMantissaAndAccuracy]

lemma shiftToTargetExponent_scaled {k j : Nat} (h : k ≠ 0) (hk : k < 2 ^ 53) (hj : room k ≤ j) :
    shiftToTargetExponent Format.binary64 (k * 2 ^ j) (-(j : Int)) .exact =
      (ExtendedMantissa.ofMantissaAndAccuracy (k * 2 ^ room k) .exact, -(room k : Int)) := by
  obtain ⟨i, rfl⟩ := Nat.exists_eq_add_of_le hj
  have hshift : (-(room k : Int) - -((room k + i : Nat) : Int)).toNat = i := by omega
  have hexponent : -((room k + i : Nat) : Int) + i = -(room k : Int) := by omega
  rw [shiftToTargetExponent, target_scaled h hk, shiftToExponent, hshift, hexponent, Nat.pow_add,
    ← Nat.mul_assoc, shiftRight_scaled]

/-- Rounding keeps a whole number, however many zeros were put behind it. -/
theorem roundWithAccuracy_scaled {k j : Nat} (h : k ≠ 0) (hk : k < 2 ^ 53) (hj : room k ≤ j)
    (s : Sign) :
    roundWithAccuracy Format.binary64 s (k * 2 ^ j) (-(j : Int)) .exact = normal s k := by
  have hagain := shiftToTargetExponent_scaled h hk (Nat.le_refl (room k))
  rw [roundWithAccuracy, shiftToTargetExponent_scaled h hk hj, normal_of_ne_zero h]
  simp [ExtendedMantissa.ofMantissaAndAccuracy, ExtendedMantissa.roundedMantissa,
    ExtendedMantissa.accuracy, Accuracy.roundToNearestEven, hagain, scaled_ne_zero h]

lemma decreaseExponent_scaled {k j i : Nat} (h : j ≤ i) :
    decreaseExponent (k * 2 ^ j) (-(j : Int)) (-(i : Int)) = (k * 2 ^ i, -(i : Int)) := by
  obtain ⟨d, rfl⟩ := Nat.exists_eq_add_of_le h
  have hshift : (-(j : Int) - -((j + d : Nat) : Int)).toNat = d := by omega
  have hexponent : -(j : Int) - d = -((j + d : Nat) : Int) := by omega
  rw [decreaseExponent, hshift, hexponent, Nat.shiftLeft_eq, Nat.pow_add, ← Nat.mul_assoc]

lemma decreaseExponent_of_le {m : Nat} {e target : Int} (h : e ≤ target) :
    decreaseExponent m e target = (m, e) := by
  have hshift : (e - target).toNat = 0 := by omega
  rw [decreaseExponent, hshift]
  simp

theorem round_scaled {k : Nat} (h : k ≠ 0) (hk : k < 2 ^ 53) (s : Sign) (j : Nat) :
    UnpackedFloat.round Format.binary64 s (k * 2 ^ j) (-(j : Int)) = normal s k := by
  rw [UnpackedFloat.round, target_scaled h hk]
  rcases Nat.le_total j (room k) with hj | hj
  · rw [decreaseExponent_scaled hj]
    exact roundWithAccuracy_scaled h hk (Nat.le_refl _) s
  · rw [decreaseExponent_of_le (by omega)]
    exact roundWithAccuracy_scaled h hk hj s

/-- The float is this whole number. If it is zero, it may have either sign. -/
def Normalized (x : UnpackedFloat) (n : Int) : Prop :=
  ∃ s k, k < 2 ^ 53 ∧ x = normal s k ∧ s.apply k = n

lemma natAbs_apply (s : Sign) (k : Nat) : (s.apply k).natAbs = k := by
  cases s with
  | negative => exact (Int.natAbs_neg k).trans (Int.natAbs_natCast k)
  | positive => exact Int.natAbs_natCast k

lemma apply_scaled (s : Sign) (k j : Nat) : s.apply (k * 2 ^ j : Nat) = s.apply k * 2 ^ j := by
  have hcast : ((k * 2 ^ j : Nat) : Int) = k * 2 ^ j := by simp
  cases s with
  | negative =>
    change -((k * 2 ^ j : Nat) : Int) = -(k : Int) * 2 ^ j
    rw [hcast, Int.neg_mul]
  | positive => exact hcast

lemma apply_mul (s t : Sign) (k l : Nat) : (s * t).apply (k * l : Nat) = s.apply k * t.apply l := by
  cases s <;> cases t
  · exact (Int.natCast_mul k l).trans (Int.neg_mul_neg _ _).symm
  · exact (congrArg Neg.neg (Int.natCast_mul k l)).trans (Int.neg_mul _ _).symm
  · exact (congrArg Neg.neg (Int.natCast_mul k l)).trans (Int.mul_neg _ _).symm
  · exact Int.natCast_mul k l

lemma apply_neg (s : Sign) (n : Int) : (-s).apply n = -s.apply n := by
  cases s with
  | negative => exact (Int.neg_neg n).symm
  | positive => rfl

lemma exists_apply (n : Int) : ∃ (s : Sign) (k : Nat), s.apply k = n := by
  rcases Int.natAbs_eq n with h | h
  · exact ⟨.positive, n.natAbs, h.symm⟩
  · exact ⟨.negative, n.natAbs, h.symm⟩

lemma normalize_apply (f : Format) (s zeroSign : Sign) {m : Nat} (hm : m ≠ 0) (e : Int) :
    UnpackedFloat.normalize f (s.apply m) e zeroSign = UnpackedFloat.round f s m e := by
  cases s with
  | negative =>
    have hlt : Sign.negative.apply m < 0 := by
      change -(m : Int) < 0
      omega
    have hnat : (-Sign.negative.apply m).toNat = m := by
      change (- -(m : Int)).toNat = m
      omega
    rw [UnpackedFloat.normalize, Int.compare_eq_lt.2 hlt]
    simp only [hnat]
  | positive =>
    have hgt : 0 < Sign.positive.apply m := by
      change 0 < (m : Int)
      omega
    rw [UnpackedFloat.normalize, Int.compare_eq_gt.2 hgt]
    rfl

theorem normalized_normalize {n : Int} (hn : n.natAbs < 2 ^ 53) (j : Nat) :
    Normalized (UnpackedFloat.normalize Format.binary64 (n * 2 ^ j) (-(j : Int)) .positive) n := by
  obtain ⟨s, k, rfl⟩ := exists_apply n
  rw [natAbs_apply] at hn
  by_cases h : k = 0
  · subst h
    refine ⟨.positive, 0, by decide, ?_, by cases s <;> rfl⟩
    rw [← apply_scaled, Nat.zero_mul]
    cases s <;> rfl
  · refine ⟨s, k, hn, ?_, rfl⟩
    rw [← apply_scaled, normalize_apply _ _ _ (scaled_ne_zero h j), round_scaled h hn]

namespace Normalized

variable {x y : UnpackedFloat} {m n q : Int}

theorem neg (hx : Normalized x m) : Normalized x.neg (-m) := by
  obtain ⟨s, k, hk, rfl, rfl⟩ := hx
  refine ⟨-s, k, hk, ?_, ?_⟩
  · by_cases h : k = 0
    · subst h
      rfl
    · rw [normal_of_ne_zero h, normal_of_ne_zero h]
      rfl
  · exact apply_neg s k

theorem add (hx : Normalized x m) (hy : Normalized y n) (h : (m + n).natAbs < 2 ^ 53) :
    Normalized (x.add Format.binary64 y) (m + n) := by
  obtain ⟨s, k, hk, rfl, rfl⟩ := hx
  obtain ⟨t, l, hl, rfl, rfl⟩ := hy
  by_cases hk0 : k = 0 <;> by_cases hl0 : l = 0
  · subst hk0 hl0
    cases s <;> cases t <;> exact ⟨_, 0, by decide, rfl, rfl⟩
  · subst hk0
    refine ⟨t, l, hl, ?_, ?_⟩
    · rw [normal_of_ne_zero hl0]
      rfl
    · cases s <;> exact (Int.zero_add _).symm
  · subst hl0
    refine ⟨s, k, hk, ?_, ?_⟩
    · rw [normal_of_ne_zero hk0]
      rfl
    · cases t <;> exact (Int.add_zero _).symm
  · have hmin : min (-(room k : Int)) (-(room l : Int)) =
        -((max (room k) (room l) : Nat) : Int) := by omega
    rw [normal_of_ne_zero hk0, normal_of_ne_zero hl0, UnpackedFloat.add, hmin,
      decreaseExponent_scaled (Nat.le_max_left _ _), decreaseExponent_scaled (Nat.le_max_right _ _)]
    simp only [apply_scaled, ← Int.add_mul]
    exact normalized_normalize h _

/-- A difference is a sum with the opposite, also where signs of zeros and infinities decide. -/
lemma sub_eq_add_neg (f : Format) (x y : UnpackedFloat) : x.sub f y = x.add f y.neg := by
  cases x <;> cases y
  case finite.finite s k e _ t l e' _ =>
    simp only [UnpackedFloat.sub, UnpackedFloat.add, UnpackedFloat.neg, apply_neg,
      Int.sub_eq_add_neg]
  all_goals rfl

theorem sub (hx : Normalized x m) (hy : Normalized y n) (h : (m - n).natAbs < 2 ^ 53) :
    Normalized (x.sub Format.binary64 y) (m - n) := by
  rw [Int.sub_eq_add_neg] at h ⊢
  rw [sub_eq_add_neg]
  exact add hx hy.neg h

lemma room_mul_le {k l : Nat} (hk : k ≠ 0) (hl : l ≠ 0) : room (k * l) ≤ room k + room l := by
  have hlog : k.log2 + l.log2 ≤ (k * l).log2 := by
    rw [Nat.le_log2 (Nat.mul_ne_zero hk hl), Nat.pow_add]
    exact Nat.mul_le_mul (Nat.log2_self_le hk) (Nat.log2_self_le hl)
  unfold room
  omega

theorem mul (hx : Normalized x m) (hy : Normalized y n) (h : (m * n).natAbs < 2 ^ 53) :
    Normalized (x.mul Format.binary64 y) (m * n) := by
  obtain ⟨s, k, hk, rfl, rfl⟩ := hx
  obtain ⟨t, l, hl, rfl, rfl⟩ := hy
  rw [← apply_mul, natAbs_apply] at h
  refine ⟨s * t, k * l, h, ?_, apply_mul s t k l⟩
  by_cases hk0 : k = 0
  · subst hk0
    rw [Nat.zero_mul]
    by_cases hl0 : l = 0
    · subst hl0
      rfl
    · rw [normal_of_ne_zero hl0]
      rfl
  by_cases hl0 : l = 0
  · subst hl0
    rw [Nat.mul_zero, normal_of_ne_zero hk0]
    rfl
  have hexponent : -(room k : Int) + -(room l : Int) = -((room k + room l : Nat) : Int) := by omega
  have hmantissa : k * 2 ^ room k * (l * 2 ^ room l) = k * l * 2 ^ (room k + room l) := by
    rw [Nat.pow_add, Nat.mul_mul_mul_comm]
  rw [normal_of_ne_zero hk0, normal_of_ne_zero hl0, UnpackedFloat.mul, hexponent, hmantissa]
  exact roundWithAccuracy_scaled (Nat.mul_ne_zero hk0 hl0) h (room_mul_le hk0 hl0) _

/-- The dividend gets fifty-three zeros more, of which the divisor leaves enough. -/
lemma divCore_scaled {k l : Nat} (hk : k ≠ 0) (hl : l ≠ 0) (hl' : l < 2 ^ 53)
    (hlk : l * k < 2 ^ 53) {j : Nat} (hj : j + room l = room (l * k) + 53) :
    divCore Format.binary64 (l * k * 2 ^ room (l * k)) (-(room (l * k) : Int)) (l * 2 ^ room l)
      (-(room l : Int)) = (k * 2 ^ j, -(j : Int), .exact) := by
  have hlog := log2_le hl'
  have hlog' := log2_le hlk
  have htarget : min (-(room (l * k) : Int) - -(room l : Int)) (Format.binary64.targetExponent
      (totalExponent (l * k * 2 ^ room (l * k)) (-(room (l * k) : Int)) -
        totalExponent (l * 2 ^ room l) (-(room l : Int)))) = -(j : Int) := by
    simp only [Format.targetExponent, totalExponent, log2_scaled hl, log2_scaled
      (Nat.mul_ne_zero hl hk), Format.mantissaBits, Format.minExponent]
    unfold room at *
    omega
  have hshift : (-(room (l * k) : Int) - -(room l : Int) - -(j : Int)).toNat = 53 := by omega
  have hdividend : l * k * 2 ^ room (l * k) * 2 ^ 53 = l * 2 ^ room l * (k * 2 ^ j) := by
    rw [Nat.mul_assoc, ← Nat.pow_add, ← hj, Nat.add_comm j, Nat.pow_add, Nat.mul_mul_mul_comm]
  rw [divCore, htarget, hshift, Nat.shiftLeft_eq, hdividend]
  simp only [Nat.mul_div_cancel_left _ (Nat.pos_of_ne_zero (scaled_ne_zero hl (room l))),
    Nat.mul_mod_right]
  rfl

lemma room_le_of_quotient {k l : Nat} (hk : k ≠ 0) (hl : l ≠ 0) (hl' : l < 2 ^ 53)
    (hlk : l * k < 2 ^ 53) {j : Nat} (hj : j + room l = room (l * k) + 53) : room k ≤ j := by
  have hlog := log2_le hl'
  have hlog' := log2_le hlk
  have hmul : (l * k).log2 < l.log2 + 1 + (k.log2 + 1) := by
    rw [Nat.log2_lt (Nat.mul_ne_zero hl hk), Nat.pow_add]
    exact Nat.mul_lt_mul'' Nat.lt_log2_self Nat.lt_log2_self
  unfold room at *
  omega

lemma mul_div_sign (s t : Sign) : t * (s / t) = s := by cases s <;> cases t <;> rfl

lemma apply_div {s t : Sign} {k l : Nat} {q : Int} (hl : t.apply l ≠ 0)
    (h : s.apply k = t.apply l * q) : k = l * q.natAbs ∧ (s / t).apply q.natAbs = q := by
  have hmagnitude : k = l * q.natAbs := by
    rw [← natAbs_apply s k, h, Int.natAbs_mul, natAbs_apply]
  refine ⟨hmagnitude, ?_⟩
  apply Int.eq_of_mul_eq_mul_left hl
  rw [← h, ← apply_mul, mul_div_sign, hmagnitude]

/-- An exact quotient is computed exactly. -/
theorem div (hx : Normalized x m) (hy : Normalized y n) (hn : n ≠ 0) (h : m = n * q) :
    Normalized (x.div Format.binary64 y) q := by
  obtain ⟨s, k, hk, rfl, rfl⟩ := hx
  obtain ⟨t, l, hl, rfl, rfl⟩ := hy
  have hl0 : l ≠ 0 := by
    rintro rfl
    cases t <;> exact hn rfl
  obtain ⟨rfl, hq⟩ := apply_div hn h
  have hle : q.natAbs ≤ l * q.natAbs := Nat.le_mul_of_pos_left _ (Nat.pos_of_ne_zero hl0)
  refine ⟨s / t, q.natAbs, Nat.lt_of_le_of_lt hle hk, ?_, hq⟩
  by_cases hq0 : q.natAbs = 0
  · rw [hq0, Nat.mul_zero, normal_of_ne_zero hl0]
    rfl
  obtain ⟨j, hj⟩ : ∃ j, j + room l = room (l * q.natAbs) + 53 := by
    refine ⟨room (l * q.natAbs) + 53 - room l, ?_⟩
    unfold room
    omega
  rw [normal_of_ne_zero hl0, normal_of_ne_zero (Nat.mul_ne_zero hl0 hq0), UnpackedFloat.div,
    divCore_scaled hq0 hl0 hl hk hj]
  exact roundWithAccuracy_scaled hq0 (Nat.lt_of_le_of_lt hle hk)
    (room_le_of_quotient hq0 hl0 hl hk hj) _

end Normalized

lemma unpackSign_packComponents (s : Sign) (e : BitVec 11) (f : BitVec 52) :
    unpackSign (packComponents Format.binary64 s e f) = s.toBitVec := by
  change (s.toBitVec ++ e ++ f).extractLsb' 63 1 = s.toBitVec
  rw [BitVec.extractLsb'_append_eq_of_le (by decide),
    BitVec.extractLsb'_append_eq_of_le (by decide)]
  cases s <;> rfl

lemma ofBitVec_toBitVec (s : Sign) : Sign.ofBitVec s.toBitVec = s := by cases s <;> rfl

lemma toNat_one_append (f : BitVec 52) : (1#1 ++ f).toNat = 2 ^ 52 + f.toNat := by
  rw [BitVec.toNat_append, Nat.shiftLeft_eq]
  change 2 ^ 52 ||| f.toNat = _
  rw [Nat.or_comm, Nat.or_two_pow_eq_add_of_lt f.isLt, Nat.add_comm]

/-- Between the least and the greatest exponent field a unit leads the fraction. -/
lemma unpack_packComponents (s : Sign) {e : BitVec 11} (f : BitVec 52) (he : e ≠ 0#11)
    (he' : e ≠ -1#11) : unpack Format.binary64 (packComponents Format.binary64 s e f) =
      .finite s (2 ^ 52 + f.toNat) (e.toNat - 1075) (Nat.add_pos_left (Nat.two_pow_pos 52) _) := by
  simp only [unpack, unpackExponent_packComponents, unpackMantissa_packComponents,
    unpackSign_packComponents, ofBitVec_toBitVec, he, he', if_false, toNat_one_append]
  rfl

lemma pack_finite (s : Sign) {field fraction : Nat} (hfield : field < 2047)
    (hfraction : fraction < 2 ^ 52) (hpos : 0 < 2 ^ 52 + fraction) :
    pack Format.binary64 (.finite s (2 ^ 52 + fraction) (field - 1075) hpos) =
      packComponents Format.binary64 s (BitVec.ofNat 11 field)
        (BitVec.ofNat 52 (2 ^ 52 + fraction)) := by
  have hplaces : (2 ^ 52 + fraction).log2 = 52 := by
    rw [Nat.log2_eq_iff (Nat.ne_of_gt hpos)]
    omega
  have hbias : ((field : Int) - 1075 + (Format.binary64.exponentBias : Int) +
      (Format.binary64.mantissaBitsWithoutImplicit : Int)).toNat = field := by
    change ((field : Int) - 1075 + 1023 + 52).toNat = field
    omega
  have hfits : ¬ 2 ^ Format.binary64.exponentBits ≤ field + 1 := by
    change ¬ 2048 ≤ field + 1
    omega
  have hnormal : (2 ^ 52 + fraction).log2 + 1 = Format.binary64.mantissaBits := by
    rw [hplaces]
    rfl
  simp only [pack, hbias]
  rw [if_neg hfits, if_pos hnormal]

/-- A number with all places in use fits into the fields of its pattern. -/
lemma unpack_pack_finite (s : Sign) {m : Nat} {e : Int} (hm : 2 ^ 52 ≤ m) (hm' : m < 2 ^ 53)
    (he : -1074 ≤ e) (he' : e ≤ 971) (hpos : 0 < m) :
    unpack Format.binary64 (pack Format.binary64 (.finite s m e hpos)) = .finite s m e hpos := by
  obtain ⟨fraction, rfl⟩ := Nat.exists_eq_add_of_le hm
  obtain ⟨field, rfl⟩ : ∃ field : Nat, e = (field : Int) - 1075 := ⟨(e + 1075).toNat, by omega⟩
  have hfield : (BitVec.ofNat 11 field).toNat = field := Nat.mod_eq_of_lt (by omega)
  have hfraction : (BitVec.ofNat 52 (2 ^ 52 + fraction)).toNat = fraction := by
    rw [BitVec.toNat_ofNat, Nat.add_mod_left]
    exact Nat.mod_eq_of_lt (by omega)
  rw [pack_finite s (by omega) (by omega), unpack_packComponents]
  · simp only [hfield, hfraction]
  · intro h
    rw [h] at hfield
    change 0 = field at hfield
    omega
  · intro h
    rw [h] at hfield
    change 2047 = field at hfield
    omega

theorem unpack_pack_normal (s : Sign) {k : Nat} (hk : k < 2 ^ 53) :
    unpack Format.binary64 (pack Format.binary64 (normal s k)) = normal s k := by
  by_cases h : k = 0
  · subst h
    cases s <;> rfl
  · have hlog := log2_le hk
    have hplaces : (k * 2 ^ room k).log2 = 52 := by
      rw [log2_scaled h, room]
      omega
    obtain ⟨hlower, hupper⟩ := (Nat.log2_eq_iff (scaled_ne_zero h _)).1 hplaces
    rw [normal_of_ne_zero h]
    apply unpack_pack_finite s hlower hupper
    · unfold room
      omega
    · omega

end Whole

/-- The float is this whole number. If it is zero, it may have either sign. -/
def IsWhole (x : Float) (n : Int) : Prop := Whole.Normalized x.toModel.unpack n

namespace IsWhole
open Whole (Normalized)

variable {x y : Float} {m n : Int}

lemma of_pack {u : UnpackedFloat} (hx : x.toModel = Float.Model.pack u) (h : Normalized u n) :
    IsWhole x n := by
  obtain ⟨s, k, hk, rfl, hn⟩ := h
  refine ⟨s, k, hk, ?_, hn⟩
  rw [hx]
  exact Whole.unpack_pack_normal s hk

theorem neg (hx : IsWhole x m) : IsWhole (negateFloat x) (-m) :=
  of_pack rfl (Normalized.neg hx)

/-- An operation on whole numbers is exact, as long as a quotient comes out even and the result has
a place for each of its bits. -/
theorem onFloat {op : BinaryOp} {q : Int} (hx : IsWhole x m) (hy : IsWhole y n)
    (h : op.unbounded? m n = some q) (hdiv : op = .div → n ∣ m) (hq : q.natAbs < 2 ^ 53) :
    IsWhole (op.onFloat x y) q := by
  cases op with
  | add =>
    obtain rfl := Option.some.inj h
    exact of_pack rfl (Normalized.add hx hy hq)
  | sub =>
    obtain rfl := Option.some.inj h
    exact of_pack rfl (Normalized.sub hx hy hq)
  | mul =>
    obtain rfl := Option.some.inj h
    exact of_pack rfl (Normalized.mul hx hy hq)
  | div =>
    obtain ⟨hn, rfl⟩ := BinaryOp.unbounded?_div_eq_some_iff.1 h
    have hexact : m = n * m.tdiv n := (Int.mul_tdiv_cancel' (hdiv rfl)).symm
    exact of_pack rfl (Normalized.div hx hy hn hexact)

lemma ofUInt64 {k : UInt64} (hk : k.toNat < 2 ^ 53) : IsWhole k.toFloat k.toNat := by
  have hnormalized := Whole.normalized_normalize (n := k.toNat) hk 0
  rw [Int.pow_zero, Int.mul_one] at hnormalized
  exact of_pack rfl hnormalized

lemma one : IsWhole (Float.ofBits 0x3FF0000000000000) 1 :=
  ⟨.positive, 1, by decide, by rfl, rfl⟩

/-- A number is read as a product with a power of ten, here the one without zeros. -/
lemma ofNat {k : Nat} (hk : k < 2 ^ 53) : IsWhole (Float.ofNat k) k := by
  have hword : k.toUInt64.toNat = k := Nat.mod_eq_of_lt (by omega)
  have hfloat : Float.ofNat k =
      BinaryOp.mul.onFloat k.toUInt64.toFloat (Float.ofBits 0x3FF0000000000000) := by
    change Float.ofScientific k false 0 = _
    rw [Float.ofScientific, dif_pos ⟨hk, by decide⟩]
    rfl
  rw [hfloat]
  have hfactor : IsWhole k.toUInt64.toFloat k := by
    have h := ofUInt64 (k := k.toUInt64) (by omega)
    rwa [hword] at h
  refine onFloat hfactor one ?_ (fun h => by cases h) hk
  simp [BinaryOp.unbounded?]

theorem ofInt {n : Int} (hn : n.natAbs < 2 ^ 53) : IsWhole (Float.ofInt n) n := by
  cases n with
  | ofNat k => exact ofNat hn
  | negSucc k => exact neg (ofNat hn)

end IsWhole
end PrefixCalc
