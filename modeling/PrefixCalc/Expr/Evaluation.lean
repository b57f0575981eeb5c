import PrefixCalc.Expr.Basic
import PrefixCalc.Fault
import PrefixCalc.Log

/-! The value of an expression on 32-bit words and on binary64. On words an operation can fail;
the failure is reported and logged where it happens, and every enclosing operation is then without
a value. Whoever is told of the failures does not influence the evaluation, and neither does a value
that was left behind by an earlier visit. On binary64 nothing fails. -/
namespace PrefixCalc

/-- Someone who is told of faults one by one, by what a fault does to the state. -/
structure Reporter (σ : Type) where
  report : σ → Fault → σ

namespace Reporter

variable {σ : Type}

/-- Keeps all faults in the order in which they come. -/
def list : Reporter (List Fault) := ⟨fun faults fault => faults ++ [fault]⟩

def reportAll (reporter : Reporter σ) (s : σ) (faults : List Fault) : σ :=
  faults.foldl reporter.report s

@[simp] theorem reportAll_nil (reporter : Reporter σ) (s : σ) : reporter.reportAll s [] = s := rfl

@[simp] theorem reportAll_append (reporter : Reporter σ) (s : σ) (a b : List Fault) :
    reporter.reportAll s (a ++ b) = reporter.reportAll (reporter.reportAll s a) b :=
  List.foldl_append

@[simp] theorem reportAll_list (reports faults : List Fault) :
    list.reportAll reports faults = reports ++ faults := by
  induction faults generalizing reports with
  | nil => exact (List.append_nil reports).symm
  | cons fault faults ih => exact (ih _).trans (List.append_assoc reports [fault] faults)

end Reporter

/-- What an evaluation works on: a single place for the value found last, and the reporter's state. -/
structure Evaluator (σ : Type) where
  result : Option Int32
  state : σ

abbrev Evaluation (σ : Type) := StateT (Evaluator σ) Logged

namespace Evaluation

variable {σ : Type} (reporter : Reporter σ)

def keep (result : Option Int32) : Evaluation σ Unit := modify fun s => { s with result := result }

def report (fault : Fault) : Evaluation σ Unit :=
  modify fun s => { s with state := reporter.report s.state fault }

/-- Applies an operation to values that may be absent. A zero divisor is reported as such, whatever
it divides. -/
def combine (op : BinaryOp) : Option Int32 → Option Int32 → Evaluation σ (Option Int32)
  | some a, some b =>
    if op = .div ∧ b = 0 then do
      Logged.emit (.zeroDivisor a)
      report reporter .divide
      return none
    else
      match op.checked a b with
      | some v => return some v
      | none => do
        Logged.emit (.overflowed op a b)
        report reporter .overflow
        return none
  | _, _ => return none

/-- The value of an operation whose operands have these values. -/
def combined (op : BinaryOp) (a b : Option Int32) : Option Int32 := do op.checked (← a) (← b)

/-- The fault that an operation has of its own. -/
def fault? (op : BinaryOp) : Option Int32 → Option Int32 → Option Fault
  | some a, some b =>
    if op = .div ∧ b = 0 then some .divide
    else if (op.checked a b).isNone then some .overflow else none
  | _, _ => none

def event? (op : BinaryOp) : Option Int32 → Option Int32 → Option Event
  | some a, some b =>
    if op = .div ∧ b = 0 then some (.zeroDivisor a)
    else if (op.checked a b).isNone then some (.overflowed op a b) else none
  | _, _ => none

theorem run_combine (op : BinaryOp) (a b : Option Int32) (s : Evaluator σ) :
    (combine reporter op a b).run s =
      ⟨(combined op a b, ⟨s.result, reporter.reportAll s.state (fault? op a b).toList⟩),
        (event? op a b).toList⟩ := by
  rcases a with _ | a
  · exact Logged.ext (by simp [combine, combined, fault?]) rfl
  rcases b with _ | b
  · exact Logged.ext (by simp [combine, combined, fault?]) rfl
  by_cases h : op = .div ∧ b = 0
  · obtain ⟨rfl, rfl⟩ := h
    exact Logged.ext
      (by simp [combine, combined, fault?, report, BinaryOp.checked_div_zero, Reporter.reportAll])
      (by simp [combine, event?, report])
  · cases hv : op.checked a b with
    | none =>
      exact Logged.ext (by simp [combine, combined, fault?, report, h, hv, Reporter.reportAll])
        (by simp [combine, event?, report, h, hv])
    | some v =>
      exact Logged.ext (by simp [combine, combined, fault?, h, hv])
        (by simp [combine, event?, h, hv])

end Evaluation

namespace Expr

/-- Leaves the value of the expression at the evaluator's place for it. Both operands are visited,
the left one first, whether or not they have a value. -/
def visit {σ : Type} (reporter : Reporter σ) : Expr → Evaluation σ Unit
  | operand v => Evaluation.keep (some v)
  | binary op l r => do
    l.visit reporter
    let a := (← get).result
    r.visit reporter
    let b := (← get).result
    Evaluation.keep (← Evaluation.combine reporter op a b)
  | negate x => do
    x.visit reporter
    Evaluation.keep ((← get).result.map negateWrapping)

/-- The value, and the state of a reporter that was in this state before the evaluation. -/
def evaluateFor {σ : Type} (reporter : Reporter σ) (e : Expr) (s : σ) :
    Logged (Option Int32 × σ) := do
  let r ← (e.visit reporter).run ⟨none, s⟩
  return (r.2.result, r.2.state)

/-- The value, and all faults after an evaluation that started with these reports. -/
def evaluate (e : Expr) (reports : List Fault) : Logged (Option Int32 × List Fault) :=
  e.evaluateFor .list reports

def value? (e : Expr) : Option Int32 := (e.evaluate []).value.1

def faults (e : Expr) : List Fault := (e.evaluate []).value.2

def trace (e : Expr) : List Event := (e.evaluate []).events

def double : Expr → Float
  | operand v => Float.ofInt v.toInt
  | binary op l r => op.onFloat l.double r.double
  | negate x => negateFloat x.double

/-- Nothing that a visit finds or adds depends on the reporter, or on what the evaluator held. -/
theorem exists_run_visit (e : Expr) : ∃ value faults events,
    ∀ {σ : Type} (reporter : Reporter σ) (s : Evaluator σ),
      (e.visit reporter).run s = ⟨((), ⟨value, reporter.reportAll s.state faults⟩), events⟩ := by
  induction e with
  | operand v =>
    exact ⟨some v, [], [], fun reporter s => Logged.ext (by simp [visit, Evaluation.keep]) rfl⟩
  | binary op l r ihl ihr =>
    obtain ⟨a, fa, ea, hl⟩ := ihl
    obtain ⟨b, fb, eb, hr⟩ := ihr
    exact ⟨Evaluation.combined op a b, fa ++ (fb ++ (Evaluation.fault? op a b).toList),
      ea ++ (eb ++ (Evaluation.event? op a b).toList), fun reporter s =>
        Logged.ext (by simp [visit, Evaluation.keep, hl, hr, Evaluation.run_combine])
          (by simp [visit, Evaluation.keep, hl, hr, Evaluation.run_combine])⟩
  | negate x ih =>
    obtain ⟨a, fa, ea, hx⟩ := ih
    exact ⟨a.map negateWrapping, fa, ea, fun reporter s =>
      Logged.ext (by simp [visit, Evaluation.keep, hx]) (by simp [visit, Evaluation.keep, hx])⟩

theorem run_visit {σ : Type} (reporter : Reporter σ) (e : Expr) (s : Evaluator σ) :
    (e.visit reporter).run s =
      ⟨((), ⟨e.value?, reporter.reportAll s.state e.faults⟩), e.trace⟩ := by
  obtain ⟨value, faults, events, h⟩ := e.exists_run_visit
  simp [value?, Expr.faults, trace, evaluate, evaluateFor, h]

/-- A reporter is told of the faults and of nothing else. -/
theorem evaluateFor_eq {σ : Type} (reporter : Reporter σ) (e : Expr) (s : σ) :
    e.evaluateFor reporter s = ⟨(e.value?, reporter.reportAll s e.faults), e.trace⟩ :=
  Logged.ext (by simp [evaluateFor, run_visit]) (by simp [evaluateFor, run_visit])

/-- What an evaluation adds does not depend on what was reported before it. -/
theorem evaluate_eq (e : Expr) (reports : List Fault) :
    e.evaluate reports = ⟨(e.value?, reports ++ e.faults), e.trace⟩ := by
  rw [evaluate, evaluateFor_eq, Reporter.reportAll_list]

theorem evaluate_binary (op : BinaryOp) (l r : Expr) (reports : List Fault) :
    (binary op l r).evaluate reports =
      ⟨(Evaluation.combined op l.value? r.value?,
        reports ++ (l.faults ++ (r.faults ++ (Evaluation.fault? op l.value? r.value?).toList))),
        l.trace ++ (r.trace ++ (Evaluation.event? op l.value? r.value?).toList)⟩ :=
  Logged.ext
    (by simp [evaluate, evaluateFor, visit, Evaluation.keep, run_visit, Evaluation.run_combine])
    (by simp [evaluate, evaluateFor, visit, Evaluation.keep, run_visit, Evaluation.run_combine])

theorem evaluate_negate (x : Expr) (reports : List Fault) :
    (negate x).evaluate reports = ⟨(x.value?.map negateWrapping, reports ++ x.faults), x.trace⟩ :=
  Logged.ext (by simp [evaluate, evaluateFor, visit, Evaluation.keep, run_visit])
    (by simp [evaluate, evaluateFor, visit, Evaluation.keep, run_visit])

@[simp] theorem value?_operand (v : Int32) : (operand v).value? = some v := rfl
@[simp] theorem faults_operand (v : Int32) : (operand v).faults = [] := rfl
@[simp] theorem trace_operand (v : Int32) : (operand v).trace = [] := rfl

@[simp] theorem value?_binary (op : BinaryOp) (l r : Expr) :
    (binary op l r).value? = Evaluation.combined op l.value? r.value? := by
  rw [value?, evaluate_binary]

@[simp] theorem faults_binary (op : BinaryOp) (l r : Expr) :
    (binary op l r).faults =
      l.faults ++ (r.faults ++ (Evaluation.fault? op l.value? r.value?).toList) := by
  rw [faults, evaluate_binary, List.nil_append]

@[simp] theorem trace_binary (op : BinaryOp) (l r : Expr) :
    (binary op l r).trace =
      l.trace ++ (r.trace ++ (Evaluation.event? op l.value? r.value?).toList) := by
  rw [trace, evaluate_binary]

@[simp] theorem value?_negate (x : Expr) : (negate x).value? = x.value?.map negateWrapping := by
  rw [value?, evaluate_negate]

@[simp] theorem faults_negate (x : Expr) : (negate x).faults = x.faults := by
  rw [faults, evaluate_negate, List.nil_append]

@[simp] theorem trace_negate (x : Expr) : (negate x).trace = x.trace := by
  rw [trace, evaluate_negate]

end Expr
end PrefixCalc
