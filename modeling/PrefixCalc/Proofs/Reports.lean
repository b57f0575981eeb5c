import Mathlib.Data.List.Forall2
import Mathlib.Tactic.Lemma
import Mathlib.Tactic.Tauto
import PrefixCalc.Expr.Address
import PrefixCalc.Expr.Evaluation

/-! Where the faults of an evaluation come from. An operation reports a fault of its own exactly
when its operands have values and it has none; whatever encloses it stays silent for lack of an
operand. -/
namespace PrefixCalc

namespace Evaluation

lemma combined_eq_none_iff {op : BinaryOp} {x y : Option Int32} :
    combined op x y = none ↔
      x = none ∨ y = none ∨ ∃ a b, x = some a ∧ y = some b ∧ op.checked a b = none := by
  cases x <;> cases y <;> simp [combined]

lemma fault?_eq_some_iff {op : BinaryOp} {x y : Option Int32} {fault : Fault} :
    fault? op x y = some fault ↔ ∃ a b, x = some a ∧ y = some b ∧ op.checked a b = none ∧
      fault = if op = .div ∧ b = 0 then .divide else .overflow := by
  rcases x with _ | a
  · simp [fault?]
  rcases y with _ | b
  · simp [fault?]
  by_cases hz : op = .div ∧ b = 0
  · obtain ⟨rfl, rfl⟩ := hz
    simp [fault?, BinaryOp.checked_div_zero, eq_comm]
  · cases hv : op.checked a b <;> simp [fault?, hz, hv, eq_comm]

lemma fault?_ne_none_iff {op : BinaryOp} {x y : Option Int32} :
    fault? op x y ≠ none ↔ ∃ a b, x = some a ∧ y = some b ∧ op.checked a b = none := by
  rw [Option.ne_none_iff_exists']
  constructor
  · rintro ⟨fault, h⟩
    obtain ⟨a, b, ha, hb, hv, -⟩ := fault?_eq_some_iff.1 h
    exact ⟨a, b, ha, hb, hv⟩
  · rintro ⟨a, b, ha, hb, hv⟩
    exact ⟨_, fault?_eq_some_iff.2 ⟨a, b, ha, hb, hv, rfl⟩⟩

end Evaluation

namespace Expr

def ownFault? : Expr → Option Fault
  | binary op l r => Evaluation.fault? op l.value? r.value?
  | _ => none

theorem faults_eq_filterMap (e : Expr) : e.faults = e.postorder.filterMap ownFault? := by
  apply eq_filterMap_postorder faults_operand faults_binary
  intro x
  simp [ownFault?]

/-- An operation stands at this address that fails although its operands have values, and this is
the fault to report for it. -/
def FailsAt (e : Expr) (path : Address) (fault : Fault) : Prop :=
  ∃ op l r a b, e.at? path = some (binary op l r) ∧ l.value? = some a ∧ r.value? = some b ∧
    (binary op l r).value? = none ∧ fault = if op = .div ∧ b = 0 then .divide else .overflow

def faultAt? (e : Expr) (path : Address) : Option Fault := (e.at? path).bind ownFault?

theorem faults_eq_filterMap_walk (e : Expr) : e.faults = e.walk.filterMap e.faultAt? :=
  e.faults_eq_filterMap.trans (e.filterMap_walk ownFault?).symm

/-- The addresses of the failing operations, in the order of the walk. -/
def failures (e : Expr) : List Address := e.walk.filter fun path => (e.faultAt? path).isSome

lemma faultAt?_eq_some_iff {e : Expr} {path : Address} {fault : Fault} :
    e.faultAt? path = some fault ↔ e.FailsAt path fault := by
  rw [faultAt?, Option.bind_eq_some_iff]
  constructor
  · rintro ⟨s, hs, hf⟩
    match s, hf with
    | binary op l r, hf =>
      obtain ⟨a, b, ha, hb, hv, rfl⟩ := Evaluation.fault?_eq_some_iff.1 hf
      refine ⟨op, l, r, a, b, hs, ha, hb, ?_, rfl⟩
      rw [value?_binary, Evaluation.combined_eq_none_iff]
      exact .inr (.inr ⟨a, b, ha, hb, hv⟩)
  · rintro ⟨op, l, r, a, b, hs, ha, hb, hv, rfl⟩
    refine ⟨_, hs, Evaluation.fault?_eq_some_iff.2 ⟨a, b, ha, hb, ?_, rfl⟩⟩
    rw [value?_binary, ha, hb] at hv
    exact hv

lemma mem_failures_iff {e : Expr} {path : Address} :
    path ∈ e.failures ↔ ∃ fault, e.FailsAt path fault := by
  simp only [failures, List.mem_filter, mem_walk_iff, Option.isSome_iff_exists,
    faultAt?_eq_some_iff]
  constructor
  · exact fun h => h.2
  · rintro ⟨fault, h⟩
    obtain ⟨op, l, r, a, b, hs, hrest⟩ := h
    exact ⟨⟨_, hs⟩, fault, op, l, r, a, b, hs, hrest⟩

/-- Every failing operation has exactly one entry among the faults, and there is no other. -/
theorem forall₂_failures (e : Expr) : List.Forall₂ e.FailsAt e.failures e.faults := by
  rw [faults_eq_filterMap_walk, failures]
  induction e.walk with
  | nil => exact .nil
  | cons path paths ih =>
    cases hf : e.faultAt? path with
    | none => simpa [hf] using ih
    | some fault =>
      have hfails := faultAt?_eq_some_iff.1 hf
      simpa [hf] using And.intro hfails ih

lemma value?_eq_none_of_mem_children {e child : Expr} (h : child ∈ e.children)
    (hv : child.value? = none) : e.value? = none := by
  cases e with
  | operand v => simp [children] at h
  | binary op l r =>
    rw [value?_binary, Evaluation.combined_eq_none_iff]
    obtain rfl | rfl : child = l ∨ child = r := by simpa [children] using h
    · exact .inl hv
    · exact .inr (.inl hv)
  | negate x =>
    obtain rfl : child = x := by simpa [children] using h
    rw [value?_negate, hv, Option.map_none]

/-- What has no value takes the value from everything around it. -/
lemma value?_eq_none_of_at? {e s : Expr} {path : Address} (hs : e.at? path = some s)
    (h : s.value? = none) : e.value? = none := by
  induction path generalizing e with
  | nil =>
    obtain rfl := Option.some.inj hs
    exact h
  | cons i path ih =>
    obtain ⟨child, hchild, hpath⟩ := Option.bind_eq_some_iff.1 hs
    exact value?_eq_none_of_mem_children (List.mem_of_getElem? hchild) (ih hpath)

/-- No failing operation lies inside another: the outer one would lack an operand. -/
lemma FailsAt.eq_of_isPrefix {e : Expr} {p q : Address} {fault fault' : Fault}
    (h : e.FailsAt p fault) (h' : e.FailsAt q fault') (hpq : p <+: q) : p = q := by
  obtain ⟨rest, rfl⟩ := hpq
  obtain ⟨op, l, r, a, b, hs, hl, hr, -, -⟩ := h
  obtain ⟨op', l', r', a', b', hs', -, -, hv, -⟩ := h'
  rw [at?_append, hs, Option.bind_some] at hs'
  cases rest with
  | nil => rw [List.append_nil]
  | cons i rest =>
    obtain ⟨child, hchild, hrest⟩ := Option.bind_eq_some_iff.1 hs'
    have hnone := value?_eq_none_of_at? hrest hv
    have hmem := List.mem_of_getElem? hchild
    obtain rfl | rfl : child = l ∨ child = r := by simpa [children] using hmem
    · simp [hl] at hnone
    · simp [hr] at hnone

lemma pairwise_failures (e : Expr) : e.failures.Pairwise LeftOf := by
  have hwalk : e.failures.Pairwise WalkedBefore := e.pairwise_walk.filter _
  refine hwalk.imp_of_mem fun {p q} hp hq hpq => ?_
  rcases hpq with ⟨hpre, hne⟩ | hleft
  · obtain ⟨fault, hf⟩ := mem_failures_iff.1 hp
    obtain ⟨fault', hf'⟩ := mem_failures_iff.1 hq
    exact absurd (hf'.eq_of_isPrefix hf hpre) hne
  · exact hleft

theorem value?_eq_none_iff_faults {e : Expr} : e.value? = none ↔ e.faults ≠ [] := by
  induction e with
  | operand v => simp
  | binary op l r ihl ihr =>
    rw [value?_binary, Evaluation.combined_eq_none_iff, ihl, ihr, ← Evaluation.fault?_ne_none_iff,
      faults_binary]
    simp only [ne_eq, List.append_eq_nil_iff, Option.toList_eq_nil_iff]
    tauto
  | negate x ih => rw [value?_negate, Option.map_eq_none_iff, ih, faults_negate]

lemma faults_eq_nil_of_value? {e : Expr} {v : Int32} (h : e.value? = some v) : e.faults = [] := by
  cases hfaults : e.faults with
  | nil => rfl
  | cons fault faults =>
    have hnone := value?_eq_none_iff_faults.2 (hfaults ▸ List.cons_ne_nil fault faults)
    rw [h] at hnone
    cases hnone

/-- An evaluation appends one fault for each operation that fails on values, in the order of a walk
that takes operands before their operation and left before right, and it has a value exactly when
there is nothing to append. -/
theorem evaluate_reports_failures (e : Expr) :
    (∀ reports, (e.evaluate reports).value = (e.value?, reports ++ e.faults)) ∧
    List.Forall₂ e.FailsAt e.failures e.faults ∧
    (∀ path, path ∈ e.failures ↔ ∃ fault, e.FailsAt path fault) ∧
    e.failures.Sublist e.walk ∧ e.walk.Pairwise WalkedBefore ∧
    (∀ p q fault fault', e.FailsAt p fault → e.FailsAt q fault' → p <+: q → p = q) ∧
    e.failures.Pairwise LeftOf ∧
    (e.value? = none ↔ e.faults ≠ []) := by
  refine ⟨fun reports => by rw [evaluate_eq], e.forall₂_failures, fun path => mem_failures_iff,
    List.filter_sublist, e.pairwise_walk, ?_, e.pairwise_failures, value?_eq_none_iff_faults⟩
  intro p q fault fault' hp hq hpq
  exact hp.eq_of_isPrefix hq hpq

/-- Both sides of a sum report, and the product around it stays silent. -/
example : (binary .mul (binary .add (binary .div (operand 1) (operand 0))
    (binary .mul (operand 65536) (operand 65536))) (operand 2)).faults = [.divide, .overflow] := by
  decide

end Expr
end PrefixCalc
