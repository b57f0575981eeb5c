import PrefixCalc.Binary64

/-! Decimal text with a fixed number of places after the point. The digits form the integer
nearest to the scaled magnitude, computed exactly; a half goes to the even neighbour. -/
namespace PrefixCalc.FixedPoint

/-- The integer nearest to a quotient. -/
def roundQuotient (num den : Nat) : Nat :=
  let q := num / den
  let r := num % den
  if 2 * r < den then q
  else if den < 2 * r then q + 1
  else if q % 2 = 0 then q else q + 1

theorem roundQuotient_cases (num den : Nat) :
    (2 * (num % den) < den ∧ roundQuotient num den = num / den) ∨
    (den < 2 * (num % den) ∧ roundQuotient num den = num / den + 1) ∨
    (2 * (num % den) = den ∧ roundQuotient num den % 2 = 0 ∧
      (roundQuotient num den = num / den ∨ roundQuotient num den = num / den + 1)) := by
  unfold roundQuotient
  simp only
  split
  · exact .inl ⟨‹_›, rfl⟩
  · split
    · exact .inr (.inl ⟨‹_›, rfl⟩)
    · split
      · exact .inr (.inr ⟨by omega, ‹_›, .inl rfl⟩)
      · exact .inr (.inr ⟨by omega, by omega, .inr rfl⟩)

theorem roundQuotient_within {num den : Nat} (h : 0 < den) :
    2 * den * roundQuotient num den ≤ 2 * num + den ∧
      2 * num ≤ 2 * den * roundQuotient num den + den := by
  have hq := Nat.div_add_mod num den
  have hr := Nat.mod_lt num h
  obtain ⟨hlt, hround⟩ | ⟨hgt, hround⟩ | ⟨htie, -, hround | hround⟩ := roundQuotient_cases num den
  all_goals
    simp only [hround, Nat.mul_assoc, Nat.mul_add]
    omega

/-- Unless the remainder is half the divisor, the distance is less than half a unit. -/
theorem roundQuotient_within_of_ne {num den : Nat} (h : 0 < den) (hne : 2 * (num % den) ≠ den) :
    2 * den * roundQuotient num den < 2 * num + den ∧
      2 * num < 2 * den * roundQuotient num den + den := by
  have hq := Nat.div_add_mod num den
  have hr := Nat.mod_lt num h
  obtain ⟨hlt, hround⟩ | ⟨hgt, hround⟩ | ⟨htie, -⟩ := roundQuotient_cases num den
  · rw [hround, Nat.mul_assoc]
    omega
  · rw [hround, Nat.mul_assoc, Nat.mul_add]
    omega
  · exact absurd htie hne

theorem roundQuotient_even_of_tie {num den : Nat} (h : 2 * (num % den) = den) :
    roundQuotient num den % 2 = 0 := by
  obtain ⟨hlt, -⟩ | ⟨hgt, -⟩ | ⟨-, heven, -⟩ := roundQuotient_cases num den
  · omega
  · omega
  · exact heven

theorem roundQuotient_mul {den : Nat} (h : 0 < den) (n : Nat) :
    roundQuotient (den * n) den = n := by
  simp [roundQuotient, Nat.mul_div_cancel_left n h, h]

/-- The integer part, a point, and exactly the given number of digits. -/
def text (places digits : Nat) : String :=
  (digits / Nat.pow 10 places).repr ++ "." ++
    String.ofList ((Nat.toDigits 10 (digits % Nat.pow 10 places)).leftpad places '0')

def sign (negative : Bool) : String := if negative then "-" else ""

/-- How many places the calculator writes. -/
def places : Nat := 5

def ofBinary64 : Binary64 → String
  | .nan => "NaN"
  | .infinite negative => sign negative ++ "inf"
  | .finite negative significand exponent =>
    let (num, den) := Binary64.ratio significand exponent
    sign negative ++ text places (roundQuotient (num * Nat.pow 10 places) den)

def ofFloat (x : Float) : String := ofBinary64 (Binary64.ofFloat x)

end PrefixCalc.FixedPoint
