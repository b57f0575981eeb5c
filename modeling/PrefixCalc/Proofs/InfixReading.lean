import Mathlib.Tactic.ByContra
import Mathlib.Tactic.Lemma
import PrefixCalc.Expr.InfixReading
import PrefixCalc.Proofs.Spelling

/-! The infix reader without its fuel. What it reads is given by rules, and the fuel it starts with
is enough for every text, so that reading a text is the same as deriving it by the rules. -/
namespace PrefixCalc
namespace Expr.InfixReading

/-- The level whose parts an operator joins. -/
def levelOf : BinaryOp → Level
  | .add | .sub => .sum
  | .mul | .div => .product

def signOf : BinaryOp → Char
  | .add => '+'
  | .sub => '-'
  | .mul => '*'
  | .div => '/'

lemma toList_symbol (op : BinaryOp) : op.symbol.toList = [signOf op] := by cases op <;> rfl

lemma operator?_signOf (op : BinaryOp) : operator? (levelOf op) (signOf op) = some op := by
  cases op <;> rfl

lemma isDigit_signOf (op : BinaryOp) : (signOf op).isDigit = false := by cases op <;> rfl

lemma signOf_injective {op op' : BinaryOp} (h : signOf op = signOf op') : op = op' := by
  cases op <;> cases op' <;> simp_all [signOf]

lemma operator?_close (level : Level) : operator? level ')' = none := by cases level <;> rfl

lemma noDigit_close (rest : List Char) : Text.NoDigit (')' :: rest) := Text.noDigit_cons.2 rfl

lemma noDigit_signOf (op : BinaryOp) (rest : List Char) : Text.NoDigit (signOf op :: rest) :=
  Text.noDigit_cons.2 (isDigit_signOf op)

/-- The rules of the reader. What a level has read so far stands in front of the text; nothing
stands there where a level begins. -/
inductive Reads : Level → Option Expr → List Char → Expr → List Char → Prop
  | number {cs rest : List Char} {e : Expr} (read : number? cs = some (e, rest)) :
      Reads .factor none cs e rest
  | minus {cs rest : List Char} {x : Expr} (part : Reads .factor none cs x rest) :
      Reads .factor none ('-' :: cs) (negate x) rest
  | brackets {cs rest : List Char} {e : Expr} (inside : Reads .sum none cs e (')' :: rest)) :
      Reads .factor none ('(' :: cs) e rest
  | first {level : Level} {cs mid rest : List Char} {x e : Expr} (chain : level ≠ .factor)
      (part : Reads level.tighter none cs x mid) (onward : Reads level (some x) mid e rest) :
      Reads level none cs e rest
  | next {level : Level} {c : Char} {op : BinaryOp} {cs mid rest : List Char} {left x e : Expr}
      (sign : operator? level c = some op) (part : Reads level.tighter none cs x mid)
      (onward : Reads level (some (binary op left x)) mid e rest) :
      Reads level (some left) (c :: cs) e rest
  | stop {level : Level} {e : Expr} {rest : List Char}
      (unsigned : ∀ c ∈ rest.head?, operator? level c = none) : Reads level (some e) rest e rest

lemma Reads.close (level : Level) (e : Expr) (rest : List Char) :
    Reads level (some e) (')' :: rest) e (')' :: rest) := .stop (by simp [operator?_close])

lemma Reads.ended (level : Level) (e : Expr) : Reads level (some e) [] e [] := .stop (by simp)

/-- The function that the rules describe, for a level that begins or goes on. -/
def resume (n : Nat) (level : Level) : Option Expr → List Char → Option (Expr × List Char)
  | none, cs => read n level cs
  | some e, cs => more n level e cs

/-- How many steps a level needs beyond those for the signs and brackets in its text. -/
def Level.depth : Level → Nat
  | .factor => 1
  | .product => 2
  | .sum => 3

lemma Level.depth_tighter {level : Level} (h : level ≠ .factor) :
    level.tighter.depth + 1 = level.depth := by
  cases level <;> first | rfl | exact absurd rfl h

lemma Level.depth_tighter_le (level : Level) : level.tighter.depth ≤ level.depth := by
  cases level <;> decide

lemma exists_succ_of_depth_le {length n : Nat} {level : Level}
    (hn : 4 * length + level.depth ≤ n) : ∃ m, n = m + 1 := by
  have hpos : 0 < level.depth := by cases level <;> decide
  exact ⟨n - 1, by omega⟩

lemma number?_cases {cs rest : List Char} {e : Expr} (h : number? cs = some (e, rest)) :
    (∃ c tail, cs = c :: tail ∧ c.isDigit = true) ∧ rest.length < cs.length := by
  obtain ⟨n, hn, h⟩ := Option.bind_eq_some_iff.1 h
  rcases cs with _ | ⟨c, tail⟩
  · simp [Text.natural?] at hn
  have hc : c.isDigit = true := by
    by_contra hc
    simp [Text.natural?, hc] at hn
  split at h
  · obtain ⟨-, rfl⟩ := Prod.mk.inj (Option.some.inj h)
    refine ⟨⟨c, tail, rfl, hc⟩, ?_⟩
    have hle := (List.dropWhile_suffix Char.isDigit (l := tail)).length_le
    simp only [List.dropWhile_cons, hc, if_true, List.length_cons]
    omega
  · simp at h

/-- Every rule takes something from the text, except the one that ends a level. -/
lemma Reads.length_le {level : Level} {before : Option Expr} {cs rest : List Char} {e : Expr}
    (h : Reads level before cs e rest) :
    rest.length ≤ cs.length ∧ (before = none → rest.length < cs.length) := by
  induction h with
  | number read =>
    have := (number?_cases read).2
    exact ⟨by omega, fun _ => this⟩
  | minus _ ih | brackets _ ih =>
    simp only [List.length_cons] at *
    omega
  | first _ _ _ ihp iho =>
    have := ihp.2 rfl
    have := iho.1
    exact ⟨by omega, fun _ => by omega⟩
  | next _ _ _ ihp iho =>
    have := ihp.2 rfl
    have := iho.1
    simp only [List.length_cons]
    exact ⟨by omega, fun h => by simp at h⟩
  | stop => exact ⟨Nat.le_refl _, fun h => by simp at h⟩

lemma read_factor_of_number {n : Nat} {cs rest : List Char} {e : Expr}
    (h : number? cs = some (e, rest)) : read (n + 1) .factor cs = some (e, rest) := by
  obtain ⟨⟨c, tail, rfl, hc⟩, -⟩ := number?_cases h
  have hminus : c ≠ '-' := by rintro rfl; simp at hc
  have hopen : c ≠ '(' := by rintro rfl; simp at hc
  unfold read
  split <;> simp_all

/-- A derivation is found by the function as soon as its fuel covers the text. -/
theorem Reads.resume_eq {level : Level} {before : Option Expr} {cs rest : List Char} {e : Expr}
    (h : Reads level before cs e rest) {n : Nat} (hn : 4 * cs.length + level.depth ≤ n) :
    resume n level before cs = some (e, rest) := by
  induction h generalizing n with
  | number read =>
    obtain ⟨n, rfl⟩ := exists_succ_of_depth_le hn
    exact read_factor_of_number read
  | minus _ ih =>
    obtain ⟨n, rfl⟩ := exists_succ_of_depth_le hn
    simp only [List.length_cons, Level.depth] at hn
    have hpart := ih (n := n) (by simp only [Level.depth]; omega)
    simp only [resume] at hpart
    simp [resume, read, hpart]
  | brackets _ ih =>
    obtain ⟨n, rfl⟩ := exists_succ_of_depth_le hn
    simp only [List.length_cons, Level.depth] at hn
    have hinside := ih (n := n) (by simp only [Level.depth]; omega)
    simp only [resume] at hinside
    simp [resume, read, hinside]
  | @first level _ _ _ _ _ chain part onward ihp iho =>
    have hlen := part.length_le.2 rfl
    have hdepth := Level.depth_tighter chain
    obtain ⟨n, rfl⟩ := exists_succ_of_depth_le hn
    have hpart := ihp (n := n) (by omega)
    have honward := iho (n := n) (by omega)
    simp only [resume] at hpart honward
    cases level with
    | factor => exact absurd rfl chain
    | product | sum => simp [resume, read, hpart, honward]
  | @next level _ _ _ _ _ _ _ _ sign part onward ihp iho =>
    have hlen := part.length_le.2 rfl
    have hdepth := level.depth_tighter_le
    obtain ⟨n, rfl⟩ := exists_succ_of_depth_le hn
    simp only [List.length_cons] at hn
    have hpart := ihp (n := n) (by omega)
    have honward := iho (n := n) (by omega)
    simp only [resume] at hpart honward
    simp [resume, more, sign, hpart, honward]
  | @stop level _ rest unsigned =>
    obtain ⟨n, rfl⟩ := exists_succ_of_depth_le hn
    cases rest with
    | nil => rfl
    | cons c cs =>
      have hc : operator? level c = none := unsigned c rfl
      simp [resume, more, hc]

lemma reads_of_read_factor {n : Nat} {cs rest : List Char} {e : Expr}
    (ih : ∀ {level : Level} {before : Option Expr} {cs rest : List Char} {e : Expr},
      resume n level before cs = some (e, rest) → Reads level before cs e rest)
    (h : read (n + 1) .factor cs = some (e, rest)) : Reads .factor none cs e rest := by
  unfold read at h
  split at h
  · obtain ⟨s, hs, h⟩ := Option.bind_eq_some_iff.1 h
    obtain ⟨rfl, rfl⟩ := Prod.mk.inj (Option.some.inj h)
    exact .minus (ih hs)
  · obtain ⟨⟨x, mid⟩, hs, h⟩ := Option.bind_eq_some_iff.1 h
    split at h
    · rename_i hclose
      obtain ⟨rfl, rfl⟩ := Prod.mk.inj (Option.some.inj h)
      obtain rfl : mid = ')' :: _ := hclose
      exact .brackets (ih hs)
    · simp at h
  · exact .number h

/-- The function finds nothing but derivations. -/
theorem reads_of_resume {n : Nat} {level : Level} {before : Option Expr} {cs rest : List Char}
    {e : Expr} (h : resume n level before cs = some (e, rest)) : Reads level before cs e rest := by
  induction n generalizing level before cs e rest with
  | zero => cases before <;> simp [resume, read, more] at h
  | succ n ih =>
    cases before with
    | none =>
      cases level with
      | factor => exact reads_of_read_factor ih h
      | product | sum =>
        obtain ⟨⟨x, mid⟩, hs, h⟩ := Option.bind_eq_some_iff.1 h
        exact .first (by decide) (ih hs) (ih h)
    | some left =>
      cases cs with
      | nil =>
        obtain ⟨rfl, rfl⟩ := Prod.mk.inj (Option.some.inj h)
        exact .stop (by simp)
      | cons c cs =>
        simp only [resume, more] at h
        split at h
        · rename_i op hop
          obtain ⟨⟨x, mid⟩, hs, h⟩ := Option.bind_eq_some_iff.1 h
          exact .next hop (ih hs) (ih h)
        · rename_i hop
          obtain ⟨rfl, rfl⟩ := Prod.mk.inj (Option.some.inj h)
          exact .stop (by simpa using hop)

/-- A number is read up to what is not a digit. -/
lemma reads_spelling {v : Int32} (hv : 0 ≤ v) {rest : List Char} (hr : Text.NoDigit rest) :
    Reads .factor none ((Text.spelling v.toInt).toList ++ rest) (operand v) rest := by
  have hn := nonneg_iff_toInt_nonneg.1 hv
  have hcast : (v.toInt.toNat : Int) = v.toInt := Int.toNat_of_nonneg hn
  have hword : (v.toInt.toNat : Int) ≤ greatestWord := by
    rw [hcast]
    exact (isWord_toInt v).2
  have hback : Int32.ofNat v.toInt.toNat = v := by
    rw [← Int32.ofInt_eq_ofNat, hcast, Int32.ofInt_toInt]
  obtain ⟨htake, hdrop⟩ := Text.span_digits_append (Text.plain_toDigits v.toInt.toNat).digits hr
  apply Reads.number
  rw [Text.toList_spelling_of_nonneg hn, number?, htake, hdrop, Text.natural?_toDigits]
  exact (if_pos hword).trans (by rw [hback])

lemma nonneg_of_number? {cs rest : List Char} {e : Expr} (h : number? cs = some (e, rest)) :
    e.nonneg = true := by
  obtain ⟨n, -, h⟩ := Option.bind_eq_some_iff.1 h
  split at h
  · rename_i hn
    obtain ⟨rfl, -⟩ := Prod.mk.inj (Option.some.inj h)
    have hword : IsWord n := ⟨Int.le_trans (by decide) (Int.natCast_nonneg n), hn⟩
    have hv : (Int32.ofNat n).toInt = n := by
      rw [← Int32.ofInt_eq_ofNat, toInt_ofInt_of_isWord hword]
    have hnonneg : 0 ≤ Int32.ofNat n := by
      rw [nonneg_iff_toInt_nonneg, hv]
      exact Int.natCast_nonneg n
    simpa [nonneg] using hnonneg
  · simp at h

/-- A minus in a text is always an operation, never the sign of a number. -/
theorem Reads.nonneg {level : Level} {before : Option Expr} {cs rest : List Char} {e : Expr}
    (h : Reads level before cs e rest) (hb : ∀ left ∈ before, left.nonneg = true) :
    e.nonneg = true := by
  induction h with
  | number read => exact nonneg_of_number? read
  | minus _ ih => exact ih (by simp)
  | brackets _ ih => exact ih (by simp)
  | first _ _ _ ihp iho =>
    have hpart := ihp (by simp)
    exact iho (by simpa using hpart)
  | next _ _ _ ihp iho =>
    have hpart := ihp (by simp)
    have hleft := hb _ rfl
    exact iho (by simp [Expr.nonneg, hleft, hpart])
  | stop _ => exact hb _ rfl

end InfixReading

open InfixReading

/-- The fuel never matters: a text is read as what the rules derive from the whole of it. -/
theorem ofInfix?_eq_some_iff {text : String} {e : Expr} :
    ofInfix? text = some e ↔ Reads .sum none text.toList e [] := by
  unfold ofInfix?
  constructor
  · intro h
    split at h
    · rename_i hread
      obtain rfl := Option.some.inj h
      exact reads_of_resume (n := fuel text.toList.length) hread
    · simp at h
  · intro h
    have hfuel : 4 * text.toList.length + Level.sum.depth ≤ fuel text.toList.length := by
      simp only [fuel, Level.depth]
      omega
    have hread := h.resume_eq hfuel
    simp only [resume] at hread
    rw [hread]

lemma nonneg_of_ofInfix? {text : String} {e : Expr} (h : ofInfix? text = some e) :
    e.nonneg = true := (ofInfix?_eq_some_iff.1 h).nonneg (by simp)

end Expr
end PrefixCalc
