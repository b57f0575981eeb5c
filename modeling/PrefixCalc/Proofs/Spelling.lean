import Mathlib.Tactic.Lemma
import PrefixCalc.Grammar
import PrefixCalc.Text.Blank

/-! Decimal spellings of words and the tokens that they make. The spelling of a non-negative word
is the shortest token for it, and the spelling of a negative one is no token at all. -/
namespace PrefixCalc
namespace Text

/-- A decimal spelling with nothing superfluous: no sign, and no zero in front of other digits. -/
structure Plain (cs : List Char) : Prop where
  ne_nil : cs ≠ []
  digits : ∀ c ∈ cs, c.isDigit = true
  no_leading_zero : ∀ rest, cs = '0' :: rest → rest = []

lemma no_leading_zero_toDigits (n : Nat) (rest : List Char)
    (h : Nat.toDigits 10 n = '0' :: rest) : rest = [] := by
  induction n using Nat.strongRecOn generalizing rest with
  | ind n ih =>
    by_cases hn : n < 10
    · rw [Nat.toDigits_of_lt_base hn] at h
      exact (List.cons.inj h).2.symm
    · rw [Nat.toDigits_of_base_le (by decide) (by omega)] at h
      cases hq : Nat.toDigits 10 (n / 10) with
      | nil => exact absurd hq Nat.toDigits_ne_nil
      | cons c cs =>
        rw [hq, List.cons_append] at h
        obtain ⟨rfl, -⟩ := List.cons.inj h
        have hcs := ih (n / 10) (by omega) cs hq
        -- then the quotient is zero, although there are at least two digits
        have hzero : n / 10 = 0 := by
          have hv := @Nat.ofDigitChars_ten_toDigits (n / 10)
          rw [hq, hcs] at hv
          exact hv.symm
        omega

theorem plain_toDigits (n : Nat) : Plain (Nat.toDigits 10 n) where
  ne_nil := Nat.toDigits_ne_nil
  digits _ hc := Nat.isDigit_of_mem_toDigits (by decide) (by decide) hc
  no_leading_zero := no_leading_zero_toDigits n

lemma isDigit_of_mem_leftpad {places n : Nat} {c : Char}
    (h : c ∈ (Nat.toDigits 10 n).leftpad places '0') : c.isDigit = true := by
  rw [List.leftpad, List.mem_append] at h
  obtain h | h := h
  · rw [List.eq_of_mem_replicate h]
    rfl
  · exact (plain_toDigits n).digits c h

lemma toList_spelling_of_nonneg {n : Int} (h : 0 ≤ n) :
    (spelling n).toList = Nat.toDigits 10 n.toNat := by
  rw [spelling, Int.repr_eq_if, if_pos h, Nat.toList_repr]

lemma toList_spelling_of_neg {n : Int} (h : n < 0) :
    (spelling n).toList = '-' :: Nat.toDigits 10 (-n).toNat := by
  rw [spelling, Int.repr_eq_if, if_neg (by omega), String.toList_append, Nat.toList_repr]
  rfl

lemma integer?_of_natural? {cs : List Char} {n : Nat} (h : natural? cs = some n) :
    integer? cs = some (Int.ofNat n) := by
  unfold integer?
  split
  · rw [natural?_eq_none_of_mem List.mem_cons_self (by decide)] at h
    simp at h
  · rw [natural?_eq_none_of_mem List.mem_cons_self (by decide)] at h
    simp at h
  · rw [h]
    rfl

/-- What is spelled is read back. -/
theorem integer?_spelling (n : Int) : integer? (spelling n).toList = some n := by
  by_cases hn : 0 ≤ n
  · rw [toList_spelling_of_nonneg hn, integer?_of_natural? (natural?_toDigits _)]
    exact congrArg some (Int.toNat_of_nonneg hn)
  · rw [toList_spelling_of_neg (by omega), integer?, natural?_toDigits]
    have hv : -Int.ofNat (-n).toNat = n := by
      rw [Int.ofNat_eq_natCast, Int.toNat_of_nonneg (by omega), Int.neg_neg]
    exact congrArg some hv

theorem spelling_injective {m n : Int} (h : spelling m = spelling n) : m = n := by
  have hm := integer?_spelling m
  rw [h, integer?_spelling] at hm
  exact (Option.some.inj hm).symm

lemma toNat_of_isDigit {c : Char} (h : c.isDigit = true) : 48 ≤ c.toNat ∧ c.toNat ≤ 57 := by
  simpa [Char.isDigit, Char.le_def, UInt32.le_iff_toNat_le] using h

lemma not_blank_of_isDigit {c : Char} (h : c.isDigit = true) : isBlank c = false := by
  have hcode := toNat_of_isDigit h
  exact isBlank_eq_false_of_graph (by omega) (by omega)

lemma mem_spelling_cases {n : Int} {c : Char} (h : c ∈ (spelling n).toList) :
    c = '-' ∨ c.isDigit = true := by
  by_cases hn : 0 ≤ n
  · rw [toList_spelling_of_nonneg hn] at h
    exact .inr ((plain_toDigits _).digits c h)
  · rw [toList_spelling_of_neg (by omega)] at h
    exact (List.mem_cons.1 h).imp_right ((plain_toDigits _).digits c)

lemma not_blank_of_mem_spelling {n : Int} {c : Char} (h : c ∈ (spelling n).toList) :
    isBlank c = false := by
  obtain rfl | hdigit := mem_spelling_cases h
  · decide
  · exact not_blank_of_isDigit hdigit

lemma spelling_ne_empty (n : Int) : spelling n ≠ "" := by
  intro h
  have hv := integer?_spelling n
  rw [h] at hv
  simp [integer?, natural?] at hv

/-- What stands in front of the first mark is told apart from what follows it. -/
lemma append_mark_inj {mark : Char} {a b rest rest' : List Char} (ha : mark ∉ a) (hb : mark ∉ b)
    (h : a ++ mark :: rest = b ++ mark :: rest') : a = b ∧ rest = rest' := by
  induction a generalizing b with
  | nil =>
    cases b with
    | nil => exact ⟨rfl, (List.cons.inj h).2⟩
    | cons c b => exact absurd (List.mem_cons.2 (.inl (List.cons.inj h).1)) hb
  | cons c a ih =>
    cases b with
    | nil => exact absurd (List.mem_cons.2 (.inl (List.cons.inj h).1.symm)) ha
    | cons d b =>
      obtain ⟨rfl, htail⟩ := List.cons.inj h
      obtain ⟨rfl, hrest⟩ := ih (fun hc => ha (List.mem_cons_of_mem _ hc))
        (fun hc => hb (List.mem_cons_of_mem _ hc)) htail
      exact ⟨rfl, hrest⟩

/-- A numeral in front of this text ends where the text begins. -/
def NoDigit (rest : List Char) : Prop := ∀ c ∈ rest.head?, c.isDigit = false

lemma noDigit_nil : NoDigit [] := by simp [NoDigit]

lemma noDigit_cons {c : Char} {cs : List Char} : NoDigit (c :: cs) ↔ c.isDigit = false := by
  simp [NoDigit]

/-- A run of digits is told apart from what follows. -/
lemma span_digits_append {ds rest : List Char} (hd : ∀ c ∈ ds, c.isDigit = true)
    (hr : NoDigit rest) :
    (ds ++ rest).takeWhile Char.isDigit = ds ∧ (ds ++ rest).dropWhile Char.isDigit = rest := by
  rw [List.takeWhile_append_of_pos hd, List.dropWhile_append_of_pos hd]
  cases rest with
  | nil => simp
  | cons c cs => simp [noDigit_cons.1 hr]

lemma toDigits_append_inj {m n : Nat} {rest rest' : List Char} (hr : NoDigit rest)
    (hr' : NoDigit rest') (h : Nat.toDigits 10 m ++ rest = Nat.toDigits 10 n ++ rest') :
    m = n ∧ rest = rest' := by
  obtain ⟨htake, hdrop⟩ := span_digits_append (plain_toDigits m).digits hr
  obtain ⟨htake', hdrop'⟩ := span_digits_append (plain_toDigits n).digits hr'
  rw [h, htake'] at htake
  rw [h, hdrop'] at hdrop
  have hvalue := congrArg (Nat.ofDigitChars 10 · 0) htake
  simp only [Nat.ofDigitChars_ten_toDigits] at hvalue
  exact ⟨hvalue.symm, hdrop.symm⟩

lemma exists_toDigits_eq_cons (n : Nat) :
    ∃ c cs, Nat.toDigits 10 n = c :: cs ∧ c.isDigit = true := by
  obtain ⟨c, cs, hcs⟩ := List.exists_cons_of_ne_nil (plain_toDigits n).ne_nil
  exact ⟨c, cs, hcs, (plain_toDigits n).digits c (hcs ▸ List.mem_cons_self)⟩

/-- What begins with a digit begins with no other character. -/
lemma toDigits_append_ne_cons {n : Nat} {c : Char} (hc : c.isDigit = false)
    (rest cs : List Char) : Nat.toDigits 10 n ++ rest ≠ c :: cs := by
  obtain ⟨d, ds, hds, hd⟩ := exists_toDigits_eq_cons n
  rw [hds, List.cons_append]
  intro h
  rw [(List.cons.inj h).1, hc] at hd
  exact Bool.noConfusion hd

lemma spelling_append_ne_cons {n : Int} {c : Char} (hd : c.isDigit = false) (hm : c ≠ '-')
    (rest cs : List Char) : (spelling n).toList ++ rest ≠ c :: cs := by
  by_cases hn : 0 ≤ n
  · rw [toList_spelling_of_nonneg hn]
    exact toDigits_append_ne_cons hd rest cs
  · rw [toList_spelling_of_neg (by omega), List.cons_append]
    exact fun h => hm (List.cons.inj h).1.symm

/-- A spelling ends where no digit follows, so it can be told from the text behind it. -/
theorem spelling_append_inj {m n : Int} {rest rest' : List Char} (hr : NoDigit rest)
    (hr' : NoDigit rest') (h : (spelling m).toList ++ rest = (spelling n).toList ++ rest') :
    m = n ∧ rest = rest' := by
  have hminus : ('-' : Char).isDigit = false := by decide
  by_cases hm : 0 ≤ m <;> by_cases hn : 0 ≤ n
  · rw [toList_spelling_of_nonneg hm, toList_spelling_of_nonneg hn] at h
    have := toDigits_append_inj hr hr' h
    exact ⟨by omega, this.2⟩
  · rw [toList_spelling_of_nonneg hm, toList_spelling_of_neg (by omega)] at h
    exact absurd h (toDigits_append_ne_cons hminus _ _)
  · rw [toList_spelling_of_neg (by omega), toList_spelling_of_nonneg hn] at h
    exact absurd h.symm (toDigits_append_ne_cons hminus _ _)
  · rw [toList_spelling_of_neg (by omega), toList_spelling_of_neg (by omega)] at h
    have := toDigits_append_inj hr hr' (List.cons.inj h).2
    exact ⟨by omega, this.2⟩

end Text

namespace Token

lemma integer?_operator_token (op : Operator) : Text.integer? op.token.toList = none := by
  rcases op with op | _
  · cases op <;> rfl
  · rfl

/-- A numeral is never an operator. -/
lemma spelling_ne_token (n : Int) (op : Operator) : Text.spelling n ≠ op.token := by
  intro h
  have hn := Text.integer?_spelling n
  rw [h, integer?_operator_token] at hn
  simp at hn

lemma ofToken?_of_integer? {text : String} {n : Int} (h : Text.integer? text.toList = some n) :
    Operator.ofToken? text = none := by
  cases ho : Operator.ofToken? text with
  | none => rfl
  | some op =>
    rw [← Operator.ofToken?_eq_some_iff.1 ho, integer?_operator_token] at h
    simp at h

lemma classify_of_operand? {text : String} {v : Int32} (h : operand? text = some v) :
    classify text = some (operand v) := by
  rw [classify, ofToken?_of_integer? (operand?_eq_some_iff.1 h).1, h]
  rfl

lemma operand?_spelling_of_nonneg {v : Int32} (h : 0 ≤ v) :
    operand? (Text.spelling v.toInt) = some v :=
  operand?_eq_some_iff.2 ⟨Text.integer?_spelling v.toInt, h⟩

theorem classify_spelling_of_nonneg {v : Int32} (h : 0 ≤ v) :
    classify (Text.spelling v.toInt) = some (operand v) :=
  classify_of_operand? (operand?_spelling_of_nonneg h)

/-- A negative leaf is written like nothing that a reader takes. -/
theorem classify_spelling_of_neg {v : Int32} (h : ¬ 0 ≤ v) :
    classify (Text.spelling v.toInt) = none := by
  have hnone : operand? (Text.spelling v.toInt) = none := by
    rw [Option.eq_none_iff_forall_ne_some]
    intro w hw
    obtain ⟨hword, hnonneg⟩ := operand?_eq_some_iff.1 hw
    rw [Text.integer?_spelling, Option.some.injEq, Int32.toInt_inj] at hword
    exact h (hword ▸ hnonneg)
  rw [classify, ofToken?_of_integer? (Text.integer?_spelling v.toInt), hnone]
  rfl

lemma operand?_operator_token (op : Operator) : operand? op.token = none := by
  rw [Option.eq_none_iff_forall_ne_some]
  intro v hv
  have hnumeral := (operand?_eq_some_iff.1 hv).1
  rw [integer?_operator_token] at hnumeral
  cases hnumeral

@[simp] lemma respell_operator_token (op : Operator) : respell op.token = op.token := by
  rw [respell, operand?_operator_token]

@[simp] lemma respell_binary_token (op : BinaryOp) : respell op.token = op.token :=
  respell_operator_token (.binary op)

lemma respell_of_classify {text : String} {v : Int32} (h : classify text = some (operand v)) :
    respell text = Text.spelling v.toInt := by
  rw [respell, operand?_of_classify h]

/-- Respelling a token changes nothing in what it stands for. -/
lemma classify_respell {text : String} (h : classify text ≠ none) :
    classify (respell text) = classify text := by
  cases hc : classify text with
  | none => exact absurd hc h
  | some t =>
    cases t with
    | operand v =>
      rw [respell_of_classify hc]
      exact classify_spelling_of_nonneg (nonneg_of_classify hc)
    | operator op =>
      rw [classify_eq_operator_iff.1 hc, respell_operator_token, classify_token]

/-- An operator keeps its spelling, and an operand gets the plain one of its value. -/
theorem respell_cases {text : String} (h : classify text ≠ none) :
    (∃ op : Operator, text = op.token ∧ respell text = text) ∨
    (∃ v, classify text = some (operand v) ∧ Text.Plain (respell text).toList ∧
      Text.integer? (respell text).toList = some v.toInt) := by
  cases hc : classify text with
  | none => exact absurd hc h
  | some t =>
    cases t with
    | operator op =>
      have htoken := classify_eq_operator_iff.1 hc
      exact .inl ⟨op, htoken, by rw [htoken, respell_operator_token]⟩
    | operand v =>
      have hv := nonneg_iff_toInt_nonneg.1 (nonneg_of_classify hc)
      refine .inr ⟨v, rfl, ?_, ?_⟩
      · rw [respell_of_classify hc, Text.toList_spelling_of_nonneg hv]
        exact Text.plain_toDigits _
      · rw [respell_of_classify hc, Text.integer?_spelling]

/-- Two tokens with the same meaning: the same operator, or two spellings of one value. -/
def Same (a b : String) : Prop :=
  a = b ∨ ∃ v, classify a = some (operand v) ∧ classify b = some (operand v)

lemma same_iff_respell_eq {a b : String} (ha : classify a ≠ none) (hb : classify b ≠ none) :
    Same a b ↔ respell a = respell b := by
  constructor
  · rintro (rfl | ⟨v, hva, hvb⟩)
    · rfl
    · rw [respell_of_classify hva, respell_of_classify hvb]
  · intro h
    have hc : classify a = classify b := by
      rw [← classify_respell ha, h, classify_respell hb]
    cases hv : classify b with
    | none => exact absurd hv hb
    | some t =>
      rw [hv] at hc
      cases t with
      | operand v => exact .inr ⟨v, hc, hv⟩
      | operator op => exact .inl ((classify_eq_operator_iff.1 hc).trans
          (classify_eq_operator_iff.1 hv).symm)

end Token
end PrefixCalc
