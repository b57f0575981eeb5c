import Mathlib.Tactic.ByContra
import PrefixCalc.Expr.Exact
import PrefixCalc.Expr.Printing

/-! The value on words is the value on unbounded integers, as long as no sub-expression leaves the
range of a word. Operations come first, then expressions by induction. -/
namespace PrefixCalc
namespace BinaryOp

lemma isWord_tdiv_iff {a b : Int} (ha : IsWord a) (hb : b ≠ 0) :
    IsWord (a.tdiv b) ↔ ¬ (a = leastWord ∧ b = -1) := by
  have habs : (a.tdiv b).natAbs = a.natAbs / b.natAbs := Int.natAbs_tdiv a b
  unfold IsWord leastWord greatestWord at *
  by_cases h1 : b = 1
  · subst h1
    rw [Int.tdiv_one]
    omega
  by_cases h2 : b = -1
  · subst h2
    have hneg : a.tdiv (-1) = -a := by rw [Int.tdiv_neg, Int.tdiv_one]
    rw [hneg]
    omega
  · -- a divisor of at least two at least halves the magnitude
    have hle : a.natAbs / b.natAbs ≤ a.natAbs / 2 := Nat.div_le_div_left (by omega) (by decide)
    omega

lemma overflows_div_iff (a b : Int32) :
    div.overflows a b = true ↔ a.toInt = leastWord ∧ b.toInt = -1 := by
  have hleast : a.toBitVec = BitVec.intMin 32 ↔ a.toInt = leastWord := by
    rw [← BitVec.toInt_inj, Int32.toInt_toBitVec]
    rfl
  have hones : b.toBitVec = BitVec.allOnes 32 ↔ b.toInt = -1 := by
    rw [← BitVec.toInt_inj, Int32.toInt_toBitVec]
    rfl
  simp only [overflows, BitVec.sdivOverflow_eq, Bool.and_eq_true, decide_eq_true_eq, hleast, hones,
    Nat.zero_lt_succ, true_and]

lemma unbounded?_div_eq_some_iff {a b n : Int} :
    div.unbounded? a b = some n ↔ b ≠ 0 ∧ a.tdiv b = n := by
  by_cases hb : b = 0 <;> simp [unbounded?, hb]

/-- An operation overflows exactly when its exact result is no word. -/
theorem overflows_iff {op : BinaryOp} {a b : Int32} {n : Int}
    (h : op.unbounded? a.toInt b.toInt = some n) : op.overflows a b = true ↔ ¬ IsWord n := by
  cases op with
  | add | sub | mul =>
    obtain rfl := Option.some.inj h
    simp only [overflows, BitVec.saddOverflow, BitVec.ssubOverflow, BitVec.smulOverflow,
      Int32.toInt_toBitVec, Bool.or_eq_true, decide_eq_true_eq, Nat.reduceSub, Int.reducePow,
      IsWord, leastWord, greatestWord]
    omega
  | div =>
    obtain ⟨hb, rfl⟩ := unbounded?_div_eq_some_iff.1 h
    rw [overflows_div_iff, isWord_tdiv_iff (isWord_toInt a) hb, Classical.not_not]

lemma toInt_wrapping {op : BinaryOp} {a b : Int32} {n : Int}
    (h : op.unbounded? a.toInt b.toInt = some n) (hn : IsWord n) :
    (op.wrapping a b).toInt = n := by
  have hmod : n.bmod 4294967296 = n := by
    unfold IsWord leastWord greatestWord at hn
    exact Int.bmod_eq_of_le (by omega) (by omega)
  cases op with
  | add =>
    obtain rfl := Option.some.inj h
    exact (Int32.toInt_add a b).trans hmod
  | sub =>
    obtain rfl := Option.some.inj h
    exact (Int32.toInt_sub a b).trans hmod
  | mul =>
    obtain rfl := Option.some.inj h
    exact (Int32.toInt_mul a b).trans hmod
  | div =>
    obtain ⟨-, rfl⟩ := unbounded?_div_eq_some_iff.1 h
    exact (Int32.toInt_div a b).trans hmod

lemma exists_unbounded? {op : BinaryOp} {a b : Int32} (h : ¬ (op = div ∧ b = 0)) :
    ∃ n, op.unbounded? a.toInt b.toInt = some n := by
  cases hn : op.unbounded? a.toInt b.toInt with
  | some n => exact ⟨n, rfl⟩
  | none =>
    obtain ⟨hop, hb⟩ := unbounded?_eq_none_iff.1 hn
    exact absurd ⟨hop, Int32.toInt_inj.1 hb⟩ h

/-- A checked operation answers with the exact result, and only when that is a word. -/
theorem checked_eq_some_iff {op : BinaryOp} {a b v : Int32} :
    op.checked a b = some v ↔ op.unbounded? a.toInt b.toInt = some v.toInt := by
  constructor
  · intro h
    by_cases hz : op = div ∧ b = 0
    · simp [checked, hz] at h
    obtain ⟨n, hn⟩ := exists_unbounded? (a := a) hz
    cases ho : op.overflows a b with
    | true => simp [checked, ho] at h
    | false =>
      have hword : IsWord n := by
        by_contra hw
        rw [(overflows_iff hn).2 hw] at ho
        exact Bool.noConfusion ho
      have hv : op.wrapping a b = v := by simpa [checked, hz, ho] using h
      rw [hn, ← hv, toInt_wrapping hn hword]
  · intro h
    have hz : ¬ (op = div ∧ b = 0) := by
      rintro ⟨rfl, rfl⟩
      simp [unbounded?] at h
    have hword := isWord_toInt v
    have ho : op.overflows a b = false := by
      rw [Bool.eq_false_iff]
      intro ho
      exact (overflows_iff h).1 ho hword
    have hv : op.wrapping a b = v := Int32.toInt_inj.1 (toInt_wrapping h hword)
    simp [checked, hz, ho, hv]

lemma checked_eq_none_iff {op : BinaryOp} {a b : Int32} {n : Int}
    (h : op.unbounded? a.toInt b.toInt = some n) : op.checked a b = none ↔ ¬ IsWord n := by
  constructor
  · intro hnone hn
    have hchecked : op.checked a b = some (Int32.ofInt n) := by
      rw [checked_eq_some_iff, h, toInt_ofInt_of_isWord hn]
    rw [hnone] at hchecked
    cases hchecked
  · intro hn
    cases hv : op.checked a b with
    | none => rfl
    | some v =>
      obtain rfl := Option.some.inj (h.symm.trans (checked_eq_some_iff.1 hv))
      exact absurd (isWord_toInt v) hn

end BinaryOp

namespace Expr

/-- Every sub-expression has a reference value, and that value is a word. -/
def WithinWords (e : Expr) : Prop :=
  ∀ s ∈ e.postorder, ∃ n, s.referenceValue? = some n ∧ IsWord n

lemma withinWords_binary {op : BinaryOp} {l r : Expr} :
    (binary op l r).WithinWords ↔ l.WithinWords ∧ r.WithinWords ∧
      ∃ n, (binary op l r).referenceValue? = some n ∧ IsWord n := by
  simp only [WithinWords, postorder, List.mem_append, List.mem_singleton]
  constructor
  · intro h
    exact ⟨fun s hs => h s (.inl (.inl hs)), fun s hs => h s (.inl (.inr hs)), h _ (.inr rfl)⟩
  · rintro ⟨hl, hr, he⟩ s ((hs | hs) | rfl)
    · exact hl s hs
    · exact hr s hs
    · exact he

lemma withinWords_negate {x : Expr} :
    (negate x).WithinWords ↔ x.WithinWords ∧
      ∃ n, (negate x).referenceValue? = some n ∧ IsWord n := by
  simp only [WithinWords, postorder, List.mem_append, List.mem_singleton]
  constructor
  · intro h
    exact ⟨fun s hs => h s (.inl hs), h _ (.inr rfl)⟩
  · rintro ⟨hx, he⟩ s (hs | rfl)
    · exact hx s hs
    · exact he

lemma exists_of_value?_binary {op : BinaryOp} {l r : Expr} {v : Int32}
    (h : (binary op l r).value? = some v) :
    ∃ a b, l.value? = some a ∧ r.value? = some b ∧ op.checked a b = some v := by
  rw [value?_binary] at h
  obtain ⟨a, ha, h⟩ := Option.bind_eq_some_iff.1 h
  obtain ⟨b, hb, hv⟩ := Option.bind_eq_some_iff.1 h
  exact ⟨a, b, ha, hb, hv⟩

lemma exactBy_binary {negated : Int → Int} {op : BinaryOp} {l r : Expr} {m n : Int}
    (hl : l.exactBy negated = some m) (hr : r.exactBy negated = some n) :
    (binary op l r).exactBy negated = op.unbounded? m n := by simp [exactBy, hl, hr]

lemma exactBy_negate {negated : Int → Int} {x : Expr} {n : Int}
    (h : x.exactBy negated = some n) : (negate x).exactBy negated = some (negated n) := by
  simp [exactBy, h]

/-- The induction behind both readings of a value: they differ in what negation may do. -/
lemma exactBy_of_value? {negated : Int → Int} {e : Expr} {v : Int32} (h : e.value? = some v)
    (hneg : ∀ x, negate x ∈ e.postorder → ∀ w, x.value? = some w →
      negated w.toInt = (negateWrapping w).toInt) : e.exactBy negated = some v.toInt := by
  induction e generalizing v with
  | operand w =>
    obtain rfl := Option.some.inj h
    rfl
  | binary op l r ihl ihr =>
    obtain ⟨a, b, ha, hb, hv⟩ := exists_of_value?_binary h
    have hl := ihl ha fun x hx => hneg x (by simp [postorder, hx])
    have hr := ihr hb fun x hx => hneg x (by simp [postorder, hx])
    rw [exactBy_binary hl hr]
    exact BinaryOp.checked_eq_some_iff.1 hv
  | negate x ih =>
    rw [value?_negate] at h
    obtain ⟨w, hw, rfl⟩ := Option.map_eq_some_iff.1 h
    have hx := ih hw fun y hy => hneg y (by simp [postorder, hy])
    rw [exactBy_negate hx, hneg x (by simp [postorder]) w hw]

lemma referenceValue?_of_value? {e : Expr} {v : Int32} (h : e.value? = some v) :
    e.referenceValue? = some v.toInt :=
  exactBy_of_value? h fun _ _ w _ => wordNegated_toInt w

lemma withinWords_of_value? {e : Expr} {v : Int32} (h : e.value? = some v) : e.WithinWords := by
  induction e generalizing v with
  | operand w =>
    intro s hs
    obtain rfl := List.mem_singleton.1 hs
    exact ⟨w.toInt, rfl, isWord_toInt w⟩
  | binary op l r ihl ihr =>
    obtain ⟨a, b, ha, hb, -⟩ := exists_of_value?_binary h
    exact withinWords_binary.2 ⟨ihl ha, ihr hb, v.toInt, referenceValue?_of_value? h, isWord_toInt v⟩
  | negate x ih =>
    have hn := referenceValue?_of_value? h
    rw [value?_negate] at h
    obtain ⟨w, hw, -⟩ := Option.map_eq_some_iff.1 h
    exact withinWords_negate.2 ⟨ih hw, v.toInt, hn, isWord_toInt v⟩

/-- Nothing else can make an evaluation fail. -/
lemma exists_value?_of_withinWords {e : Expr} (h : e.WithinWords) : ∃ v, e.value? = some v := by
  induction e with
  | operand w => exact ⟨w, rfl⟩
  | binary op l r ihl ihr =>
    obtain ⟨hl, hr, n, hn, hword⟩ := withinWords_binary.1 h
    obtain ⟨a, ha⟩ := ihl hl
    obtain ⟨b, hb⟩ := ihr hr
    have hexact : op.unbounded? a.toInt b.toInt = some n := by
      rw [← hn]
      exact (exactBy_binary (referenceValue?_of_value? ha) (referenceValue?_of_value? hb)).symm
    refine ⟨Int32.ofInt n, ?_⟩
    have hchecked : op.checked a b = some (Int32.ofInt n) := by
      rw [BinaryOp.checked_eq_some_iff, hexact, toInt_ofInt_of_isWord hword]
    rw [value?_binary, ha, hb]
    exact hchecked
  | negate x ih =>
    obtain ⟨w, hw⟩ := ih (withinWords_negate.1 h).1
    exact ⟨negateWrapping w, by rw [value?_negate, hw, Option.map_some]⟩

theorem value?_eq_some_iff {e : Expr} {v : Int32} :
    e.value? = some v ↔ e.WithinWords ∧ e.referenceValue? = some v.toInt := by
  constructor
  · intro h
    exact ⟨withinWords_of_value? h, referenceValue?_of_value? h⟩
  · rintro ⟨hwithin, hv⟩
    obtain ⟨w, hw⟩ := exists_value?_of_withinWords hwithin
    have hvw : v.toInt = w.toInt :=
      Option.some.inj (hv.symm.trans (referenceValue?_of_value? hw))
    rw [hw, Int32.toInt_inj.1 hvw]

lemma value?_eq_none_iff {e : Expr} : e.value? = none ↔ ¬ e.WithinWords := by
  constructor
  · intro h hwithin
    obtain ⟨v, hv⟩ := exists_value?_of_withinWords hwithin
    simp [h] at hv
  · intro h
    cases hv : e.value? with
    | none => rfl
    | some v => exact absurd (withinWords_of_value? hv) h

/-- Coming back into range does not make up for having left it. -/
example : (binary .sub (binary .add (operand 2147483647) (operand 1)) (operand 1)).value? = none := by
  decide

lemma exactValue?_of_value? {e : Expr} {v : Int32} (h : e.value? = some v)
    (hneg : ∀ x, negate x ∈ e.postorder → ∀ w, x.value? = some w → w.toInt ≠ leastWord) :
    e.exactValue? = some v.toInt := by
  refine exactBy_of_value? h fun x hx w hw => ?_
  rw [toInt_negateWrapping, if_neg (hneg x hx w hw)]

variable {β : Type} (kit : Assembly.Kit β)

lemma value_print_integer (e : Expr) (reports : List Fault) :
    (e.print kit reports .integer).value =
      ⟨.ok (e.value?.map fun v => Text.spelling v.toInt), reports ++ e.faults⟩ := by
  simp [print, evaluate_eq]

/-- The evaluator answers exactly when every sub-expression stays within words, and then with the
reference value; what it prints is exact unless a negation meets the least word. -/
theorem evaluate_iff_withinWords (e : Expr) (reports : List Fault) :
    (∀ v, (e.evaluate reports).value.1 = some v ↔
      (∀ s ∈ e.postorder, ∃ n, s.referenceValue? = some n ∧ IsWord n) ∧
        e.referenceValue? = some v.toInt) ∧
    ((e.evaluate reports).value.1 = none ↔
      ¬ ∀ s ∈ e.postorder, ∃ n, s.referenceValue? = some n ∧ IsWord n) ∧
    ((∀ x, negate x ∈ e.postorder → ∀ w, x.value? = some w → w.toInt ≠ leastWord) →
      ∀ text, (e.print kit reports .integer).value.text = .ok (some text) →
        ∃ n, e.exactValue? = some n ∧ text = Text.spelling n) := by
  rw [evaluate_eq]
  refine ⟨fun v => value?_eq_some_iff, value?_eq_none_iff, ?_⟩
  intro hneg text htext
  rw [value_print_integer] at htext
  obtain ⟨v, hv, rfl⟩ := Option.map_eq_some_iff.1 (Except.ok.inj htext)
  exact ⟨v.toInt, exactValue?_of_value? hv hneg, rfl⟩

end Expr
end PrefixCalc
