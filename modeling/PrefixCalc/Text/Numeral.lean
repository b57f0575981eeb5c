import PrefixCalc.Word

/-! Decimal numerals: a run of ASCII digits, possibly behind one sign. Any number of leading
zeros may stand in front. A numeral is read digit by digit into a word and given up as soon as the
word runs over, and this comes to the same as reading it without bounds and looking at the range in
the end. -/
namespace PrefixCalc.Text

/-- The number that a non-empty run of digits spells. -/
def natural? (cs : List Char) : Option Nat :=
  if cs ≠ [] ∧ cs.all Char.isDigit then some (Nat.ofDigitChars 10 cs 0) else none

def integer? : List Char → Option Int
  | '+' :: cs => (natural? cs).map Int.ofNat
  | '-' :: cs => (natural? cs).map fun n => -Int.ofNat n
  | cs => (natural? cs).map Int.ofNat

/-- One more digit behind what was read so far. First the tenfold and then the sum has to be a
word; behind a minus the digits count downward. -/
def extend? (sign : Int) (word : Int32) (c : Char) : Option Int32 := do
  let tenfold ← wordOf? (word.toInt * 10)
  if c.isDigit then wordOf? (tenfold.toInt + sign * ↑(c.toNat - '0'.toNat)) else none

def accumulate? (sign : Int) (cs : List Char) : Option Int32 :=
  if cs = [] then none else cs.foldlM (extend? sign) 0

/-- The word that a numeral spells. -/
def word? : List Char → Option Int32
  | '+' :: cs => accumulate? 1 cs
  | '-' :: cs => accumulate? (-1) cs
  | cs => accumulate? 1 cs

/-- The spelling without a plus sign and without leading zeros. -/
def spelling (n : Int) : String := n.repr

theorem natural?_toDigits (n : Nat) : natural? (Nat.toDigits 10 n) = some n := by
  have hd : (Nat.toDigits 10 n).all Char.isDigit = true :=
    List.all_eq_true.2 fun c hc => Nat.isDigit_of_mem_toDigits (by decide) (by decide) hc
  rw [natural?, if_pos ⟨Nat.toDigits_ne_nil, hd⟩, Nat.ofDigitChars_ten_toDigits]

theorem natural?_eq_none_of_mem {c : Char} {cs : List Char} (hc : c ∈ cs)
    (hd : c.isDigit = false) : natural? cs = none := by
  refine if_neg fun h => ?_
  rw [List.all_eq_true.1 h.2 c hc] at hd
  exact Bool.noConfusion hd

section Accumulation

variable {sign : Int} (hsign : sign = 1 ∨ sign = -1)
include hsign

/-- Digits only lead away from zero, so that what has left the range does not come back. -/
theorem isWord_of_le {m n : Nat} (hle : m ≤ n) (h : IsWord (sign * n)) : IsWord (sign * m) := by
  unfold IsWord leastWord greatestWord at *
  obtain hplus | hminus := hsign
  · subst hplus
    omega
  · subst hminus
    omega

theorem extend?_eq {n : Nat} {word : Int32} (hword : word.toInt = sign * n) (c : Char) :
    extend? sign word c =
      if c.isDigit then wordOf? (sign * ↑(10 * n + (c.toNat - '0'.toNat))) else none := by
  have htenfold : word.toInt * 10 = sign * ↑(10 * n) := by
    rw [hword, Int.mul_assoc, Int.mul_comm n 10]
    rfl
  cases ht : wordOf? (sign * ↑(10 * n)) with
  | none =>
    have hsum : wordOf? (sign * ↑(10 * n + (c.toNat - '0'.toNat))) = none := by
      rw [wordOf?_eq_none_iff] at ht ⊢
      exact fun h => ht (isWord_of_le hsign (Nat.le_add_right _ _) h)
    simp only [extend?, htenfold, ht, hsum, Option.bind_eq_bind, Option.bind_none, ite_self]
  | some tenfold =>
    have hsum : tenfold.toInt + sign * ↑(c.toNat - '0'.toNat) =
        sign * ↑(10 * n + (c.toNat - '0'.toNat)) := by
      rw [wordOf?_eq_some_iff.1 ht, ← Int.mul_add]
      rfl
    simp only [extend?, htenfold, ht, hsum, Option.bind_eq_bind, Option.bind_some]

theorem foldlM_extend? (cs : List Char) {n : Nat} {word : Int32} (hword : word.toInt = sign * n) :
    cs.foldlM (extend? sign) word =
      if cs.all Char.isDigit then wordOf? (sign * ↑(Nat.ofDigitChars 10 cs n)) else none := by
  induction cs generalizing n word with
  | nil => exact (wordOf?_eq_some_iff.2 hword).symm
  | cons c cs ih =>
    rw [List.foldlM_cons, extend?_eq hsign hword]
    cases hc : c.isDigit with
    | false => simp [hc]
    | true =>
      cases hnext : wordOf? (sign * ↑(10 * n + (c.toNat - '0'.toNat))) with
      | some next => simp [hc, ih (wordOf?_eq_some_iff.1 hnext), Nat.ofDigitChars_cons]
      | none =>
        have hend : wordOf? (sign * ↑(Nat.ofDigitChars 10 (c :: cs) n)) = none := by
          rw [wordOf?_eq_none_iff] at hnext ⊢
          intro h
          apply hnext
          apply isWord_of_le hsign _ h
          rw [Nat.ofDigitChars_cons, Nat.ofDigitChars_eq_ofDigitChars_zero]
          have hpow : 0 < 10 ^ cs.length := Nat.pow_pos (by decide)
          exact Nat.le_add_right_of_le (Nat.le_mul_of_pos_left _ hpow)
        simp [hend]

theorem accumulate?_eq (cs : List Char) :
    accumulate? sign cs = (natural? cs).bind fun n => wordOf? (sign * n) := by
  have hzero : (0 : Int32).toInt = sign * (0 : Nat) := by simp
  unfold accumulate? natural?
  rw [foldlM_extend? hsign cs hzero]
  by_cases hne : cs = []
  · simp [hne]
  · cases cs.all Char.isDigit <;> simp [hne]

end Accumulation

/-- However long a numeral is, it spells a word exactly when its number is one. -/
theorem word?_eq (cs : List Char) : word? cs = (integer? cs).bind wordOf? := by
  unfold word? integer?
  split
  · rw [accumulate?_eq (.inl rfl), Option.bind_map]
    simp only [Int.one_mul]
    rfl
  · rw [accumulate?_eq (.inr rfl), Option.bind_map]
    simp only [Int.neg_mul, Int.one_mul]
    rfl
  · rw [accumulate?_eq (.inl rfl), Option.bind_map]
    simp only [Int.one_mul]
    rfl

theorem word?_eq_some_iff {cs : List Char} {v : Int32} :
    word? cs = some v ↔ integer? cs = some v.toInt := by
  rw [word?_eq, Option.bind_eq_some_iff]
  constructor
  · rintro ⟨n, hn, hv⟩
    rw [hn, wordOf?_eq_some_iff.1 hv]
  · intro h
    exact ⟨v.toInt, h, wordOf?_eq_some_iff.2 rfl⟩

end PrefixCalc.Text
