import PrefixCalc.Proofs.Spelling

/-! Which texts are tokens. A text is an operator only as the one character of its sign, and an
operand only as digits behind at most one sign, whose number is a word and is zero behind a minus.
What has a kind can be built, so that the reducer never gives a token up between the two steps. -/
namespace PrefixCalc

namespace Text

/-- Digits behind at most one sign. -/
structure Signed (cs sign digits : List Char) : Prop where
  eq_append : cs = sign ++ digits
  sign_mem : sign ∈ [[], ['+'], ['-']]
  ne_nil : digits ≠ []
  isDigit : ∀ c ∈ digits, c.isDigit = true

lemma natural?_eq_some_iff {cs : List Char} {n : Nat} :
    natural? cs = some n ↔
      cs ≠ [] ∧ (∀ c ∈ cs, c.isDigit = true) ∧ Nat.ofDigitChars 10 cs 0 = n := by
  rw [natural?, Option.ite_none_right_eq_some, List.all_eq_true, and_assoc, Option.some.injEq]

/-- The sign is not part of the digits, so there is only one way to take a numeral apart. -/
lemma integer?_eq_some_iff {cs : List Char} {z : Int} :
    integer? cs = some z ↔ ∃ sign digits, Signed cs sign digits ∧
      z = if sign = ['-'] then -(Nat.ofDigitChars 10 digits 0 : Int)
        else Nat.ofDigitChars 10 digits 0 := by
  constructor
  · intro h
    unfold integer? at h
    split at h
    · rename_i digits
      obtain ⟨n, hn, rfl⟩ := Option.map_eq_some_iff.1 h
      obtain ⟨hne, hdigits, rfl⟩ := natural?_eq_some_iff.1 hn
      exact ⟨['+'], digits, ⟨rfl, by simp, hne, hdigits⟩, rfl⟩
    · rename_i digits
      obtain ⟨n, hn, rfl⟩ := Option.map_eq_some_iff.1 h
      obtain ⟨hne, hdigits, rfl⟩ := natural?_eq_some_iff.1 hn
      exact ⟨['-'], digits, ⟨rfl, by simp, hne, hdigits⟩, rfl⟩
    · obtain ⟨n, hn, rfl⟩ := Option.map_eq_some_iff.1 h
      obtain ⟨hne, hdigits, rfl⟩ := natural?_eq_some_iff.1 hn
      exact ⟨[], cs, ⟨rfl, by simp, hne, hdigits⟩, rfl⟩
  · rintro ⟨sign, digits, ⟨rfl, hsign, hne, hdigits⟩, rfl⟩
    have hn := natural?_eq_some_iff.2 ⟨hne, hdigits, rfl⟩
    obtain rfl | rfl | rfl : sign = [] ∨ sign = ['+'] ∨ sign = ['-'] := by simpa using hsign
    · exact integer?_of_natural? hn
    · simp [integer?, hn]
    · simp [integer?, hn]

end Text

namespace Token

/-- The text is digits behind at most one sign, worth this number. Behind a minus only zero will do. -/
def SpellsOperand (text : String) (n : Nat) : Prop :=
  ∃ sign digits, Text.Signed text.toList sign digits ∧ Nat.ofDigitChars 10 digits 0 = n ∧
    n ≤ 2147483647 ∧ (sign = ['-'] → n = 0)

/-- Reading digit by digit into a word finds the number of the digits, however many there are. -/
theorem exists_operand?_iff {text : String} {n : Nat} :
    (∃ v : Int32, operand? text = some v ∧ v.toInt = n) ↔ SpellsOperand text n := by
  constructor
  · rintro ⟨v, hv, hn⟩
    obtain ⟨hnumeral, hnonneg⟩ := operand?_eq_some_iff.1 hv
    obtain ⟨sign, digits, hsigned, hvalue⟩ := Text.integer?_eq_some_iff.1 hnumeral
    have hgreatest := (isWord_toInt v).2
    unfold greatestWord at hgreatest
    refine ⟨sign, digits, hsigned, ?_, by omega, ?_⟩
    · split at hvalue <;> omega
    · intro hminus
      rw [if_pos hminus] at hvalue
      omega
  · rintro ⟨sign, digits, hsigned, rfl, hle, hminus⟩
    have hword : IsWord (Nat.ofDigitChars 10 digits 0) := by
      unfold IsWord leastWord greatestWord
      omega
    have hvalue := toInt_ofInt_of_isWord hword
    refine ⟨Int32.ofInt (Nat.ofDigitChars 10 digits 0), operand?_eq_some_iff.2 ⟨?_, ?_⟩, hvalue⟩
    · rw [Text.integer?_eq_some_iff, hvalue]
      refine ⟨sign, digits, hsigned, ?_⟩
      split
      · rename_i h
        rw [hminus h]
        rfl
      · rfl
    · rw [nonneg_iff_toInt_nonneg, hvalue]
      omega

lemma kind?_eq_operator_iff {text : String} {op : Operator} :
    kind? text = some (.operator op) ↔ text = op.token := by
  rw [kind?_eq, eq_comm (a := text), ← Operator.ofToken?_eq_some_iff]
  cases Operator.ofToken? text with
  | some op' => simp
  | none => simp

lemma kind?_eq_operand_iff {text : String} :
    kind? text = some .operand ↔ ∃ v, operand? text = some v := by
  constructor
  · intro h
    rw [kind?_eq] at h
    cases hop : Operator.ofToken? text with
    | some op => simp [hop] at h
    | none => simpa [hop] using h
  · rintro ⟨v, hv⟩
    rw [kind?_eq, ofToken?_of_integer? (operand?_eq_some_iff.1 hv).1, hv]
    rfl

lemma exists_operand?_iff_spells {text : String} :
    (∃ v, operand? text = some v) ↔ ∃ n, SpellsOperand text n := by
  constructor
  · rintro ⟨v, hv⟩
    have hnonneg := nonneg_iff_toInt_nonneg.1 (operand?_eq_some_iff.1 hv).2
    exact ⟨v.toInt.toNat, exists_operand?_iff.1 ⟨v, hv, (Int.toNat_of_nonneg hnonneg).symm⟩⟩
  · rintro ⟨n, hn⟩
    obtain ⟨v, hv, -⟩ := exists_operand?_iff.2 hn
    exact ⟨v, hv⟩

lemma kind?_eq_none_iff {text : String} :
    kind? text = none ↔
      text ∉ Operator.all.map Operator.token ∧ ∀ n, ¬ SpellsOperand text n := by
  have hoperator :
      text ∈ Operator.all.map Operator.token ↔ ∃ op, kind? text = some (.operator op) := by
    simp [kind?_eq_operator_iff, Operator.mem_all, eq_comm]
  rw [hoperator, ← not_exists, ← exists_operand?_iff_spells, ← kind?_eq_operand_iff]
  cases kind? text with
  | none => simp
  | some kind => cases kind <;> simp

lemma read_eq_ok_iff {text : String} {kind : Kind} :
    Kind.read text = .ok kind ↔ kind? text = some kind := by
  rw [kind?]
  cases Kind.read text <;> simp [Except.toOption]

lemma read_eq_error_iff {text : String} {fault : Fault} :
    Kind.read text = .error fault ↔ kind? text = none ∧ fault = .format := by
  rw [kind?]
  unfold Kind.read
  cases Operator.ofToken? text with
  | some op => simp [Except.toOption]
  | none => cases operand? text <;> simp [Except.toOption, eq_comm]

/-- The value that is read to find the kind is there to be read again. -/
theorem exists_build {text : String} {kind : Kind} (h : kind? text = some kind) :
    ∃ t, build kind text = some t := by
  cases kind with
  | operand =>
    obtain ⟨v, hv⟩ := kind?_eq_operand_iff.1 h
    exact ⟨operand v, by rw [build, hv, Option.map_some]⟩
  | operator op => exact ⟨operator op, rfl⟩

/-- Every text is of the kind that its characters say and of no other, there is only one fault, and
what is of a kind is built: an operand with the number of its digits, whatever their count. -/
theorem language_exact (text : String) :
    Operator.all.map Operator.token = ["+", "-", "*", "/", "~"] ∧
    (∀ op, kind? text = some (.operator op) ↔ text = op.token) ∧
    (kind? text = some .operand ↔ ∃ n, SpellsOperand text n) ∧
    (kind? text = none ↔ text ∉ Operator.all.map Operator.token ∧ ∀ n, ¬ SpellsOperand text n) ∧
    (∀ kind, Kind.read text = .ok kind ↔ kind? text = some kind) ∧
    (∀ fault, Kind.read text = .error fault ↔ kind? text = none ∧ fault = .format) ∧
    (∀ kind, kind? text = some kind → ∃ t, build kind text = some t ∧
      ∀ stack, Reducer.reduce text stack = Reducer.attach t stack) ∧
    (∀ op, build (.operator op) text = some (operator op)) ∧
    (∀ n, SpellsOperand text n → ∃ v : Int32, v.toInt = n ∧
      build .operand text = some (operand v) ∧ Expr.leaf v = .ok (.operand v)) := by
  refine ⟨rfl, fun op => kind?_eq_operator_iff,
    kind?_eq_operand_iff.trans exists_operand?_iff_spells, kind?_eq_none_iff,
    fun kind => read_eq_ok_iff, fun fault => read_eq_error_iff, ?_, fun op => rfl, ?_⟩
  · intro kind hkind
    obtain ⟨t, ht⟩ := exists_build hkind
    refine ⟨t, ht, ?_⟩
    intro stack
    simp only [Reducer.reduce, hkind, ht]
  · intro n hn
    obtain ⟨v, hv, hvalue⟩ := exists_operand?_iff.2 hn
    refine ⟨v, hvalue, by rw [build, hv, Option.map_some], ?_⟩
    exact if_pos (operand?_eq_some_iff.1 hv).2

/-- One digit less decides, and so does one more. -/
example : kind? "000002147483647" = some .operand ∧ kind? "2147483648" = none ∧
    kind? "-0" = some .operand ∧ kind? "-5" = none ∧ kind? "+" = some (.operator (.binary .add)) := by
  decide +kernel

end Token
end PrefixCalc
