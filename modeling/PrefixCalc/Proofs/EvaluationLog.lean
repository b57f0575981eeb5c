import PrefixCalc.Proofs.IntegerValues
import PrefixCalc.Proofs.Reports

/-! What an evaluation writes to the log. An operation that fails is reported and recorded in one
go, so the reports and the records of a whole evaluation are two readings of one list, and what a
record says can be held against the values of the operands at the place that it came from. -/
namespace PrefixCalc

namespace Evaluation

/-- The ways in which an operation fails on two words, with what is reported and what is recorded. -/
inductive Mishap : BinaryOp → Int32 → Int32 → Fault → Event → Prop
  | byZero (a : Int32) : Mishap .div a 0 .divide (.zeroDivisor a)
  | outOfRange {op : BinaryOp} {a b : Int32} {n : Int} (divisor : op = .div → b ≠ 0)
      (exact : op.unbounded? a.toInt b.toInt = some n) (outside : ¬ IsWord n) :
      Mishap op a b .overflow (.overflowed op a b)

lemma Mishap.level_eq {op : BinaryOp} {a b : Int32} {fault : Fault} {event : Event}
    (h : Mishap op a b fault event) : event.level = .trace := by
  cases h <;> rfl

/-- A report and a record that come together come from one mishap, and a mishap gives both. -/
lemma mishap_iff {op : BinaryOp} {x y : Option Int32} {fault : Fault} {event : Event} :
    fault? op x y = some fault ∧ event? op x y = some event ↔
      ∃ a b, x = some a ∧ y = some b ∧ Mishap op a b fault event := by
  constructor
  · rintro ⟨hfault, hevent⟩
    obtain ⟨a, b, rfl, rfl, hnone, -⟩ := fault?_eq_some_iff.1 hfault
    refine ⟨a, b, rfl, rfl, ?_⟩
    by_cases hz : op = .div ∧ b = 0
    · obtain ⟨rfl, rfl⟩ := hz
      obtain rfl : Fault.divide = fault := by simpa [fault?] using hfault
      obtain rfl : Event.zeroDivisor a = event := by simpa [event?] using hevent
      exact .byZero a
    · obtain rfl : Fault.overflow = fault := by simpa [fault?, hz, hnone] using hfault
      obtain rfl : Event.overflowed op a b = event := by simpa [event?, hz, hnone] using hevent
      obtain ⟨n, hn⟩ := BinaryOp.exists_unbounded? (a := a) hz
      exact .outOfRange (fun hop hb => hz ⟨hop, hb⟩) hn ((BinaryOp.checked_eq_none_iff hn).1 hnone)
  · rintro ⟨a, b, rfl, rfl, h⟩
    cases h with
    | byZero a => simp [fault?, event?]
    | outOfRange divisor exact outside =>
      have hz : ¬ (op = .div ∧ b = 0) := fun h => divisor h.1 h.2
      have hnone := (BinaryOp.checked_eq_none_iff exact).2 outside
      simp [fault?, event?, hz, hnone]

lemma isSome_event? (op : BinaryOp) (x y : Option Int32) :
    (event? op x y).isSome = (fault? op x y).isSome := by
  match x, y with
  | none, _ | some _, none => rfl
  | some a, some b =>
    by_cases hz : op = .div ∧ b = 0
    · simp [fault?, event?, hz]
    · cases hv : op.checked a b <;> simp [fault?, event?, hz, hv]

end Evaluation

namespace Expr

def ownEvent? : Expr → Option Event
  | binary op l r => Evaluation.event? op l.value? r.value?
  | _ => none

def eventAt? (e : Expr) (path : Address) : Option Event := (e.at? path).bind ownEvent?

theorem trace_eq_filterMap_walk (e : Expr) : e.trace = e.walk.filterMap e.eventAt? := by
  refine (eq_filterMap_postorder trace_operand trace_binary ?_ e).trans
    (e.filterMap_walk ownEvent?).symm
  intro x
  simp [ownEvent?]

lemma isSome_ownEvent? (e : Expr) : e.ownEvent?.isSome = e.ownFault?.isSome := by
  cases e with
  | operand v => rfl
  | binary op l r => exact Evaluation.isSome_event? op l.value? r.value?
  | negate x => rfl

/-- Where an operation failed, what was reported for it, and what was recorded. -/
structure Incident where
  path : Address
  fault : Fault
  event : Event
  deriving DecidableEq, Repr

def incidentAt? (e : Expr) (path : Address) : Option Incident := do
  return ⟨path, ← e.faultAt? path, ← e.eventAt? path⟩

def incidents (e : Expr) : List Incident := e.walk.filterMap e.incidentAt?

/-- An address has a fault and an event and makes an incident of both, or it has neither. -/
lemma incidentAt?_cases (e : Expr) (path : Address) :
    (e.faultAt? path = none ∧ e.eventAt? path = none ∧ e.incidentAt? path = none) ∨
    ∃ fault event, e.faultAt? path = some fault ∧ e.eventAt? path = some event ∧
      e.incidentAt? path = some ⟨path, fault, event⟩ := by
  have hsome : (e.eventAt? path).isSome = (e.faultAt? path).isSome := by
    cases hs : e.at? path with
    | none => simp [eventAt?, faultAt?, hs]
    | some s => simpa [eventAt?, faultAt?, hs] using s.isSome_ownEvent?
  cases hf : e.faultAt? path with
  | none =>
    have he : e.eventAt? path = none := by simpa [hf] using hsome
    exact .inl ⟨rfl, he, by simp [incidentAt?, hf]⟩
  | some fault =>
    obtain ⟨event, he⟩ := Option.isSome_iff_exists.1 (hsome.trans (by rw [hf, Option.isSome_some]))
    exact .inr ⟨fault, event, rfl, he, by simp [incidentAt?, hf, he]⟩

lemma faults_eq_map_incidents (e : Expr) : e.faults = e.incidents.map (·.fault) := by
  rw [faults_eq_filterMap_walk, incidents, List.map_filterMap]
  congr 1
  funext path
  obtain ⟨hf, -, hi⟩ | ⟨fault, event, hf, -, hi⟩ := e.incidentAt?_cases path
  · rw [hf, hi, Option.map_none]
  · rw [hf, hi, Option.map_some]

lemma trace_eq_map_incidents (e : Expr) : e.trace = e.incidents.map (·.event) := by
  rw [trace_eq_filterMap_walk, incidents, List.map_filterMap]
  congr 1
  funext path
  obtain ⟨-, he, hi⟩ | ⟨fault, event, -, he, hi⟩ := e.incidentAt?_cases path
  · rw [he, hi, Option.map_none]
  · rw [he, hi, Option.map_some]

lemma failures_eq_map_incidents (e : Expr) : e.failures = e.incidents.map (·.path) := by
  rw [failures, incidents, List.map_filterMap, ← List.filterMap_eq_filter]
  congr 1
  funext path
  obtain ⟨hf, -, hi⟩ | ⟨fault, event, hf, -, hi⟩ := e.incidentAt?_cases path
  · rw [hi, Option.map_none, Option.guard, if_neg (by simp [hf])]
  · rw [hi, Option.map_some, Option.guard, if_pos (by simp [hf])]

/-- The incidents are those of the operations that fail on the values of their operands. -/
theorem mem_incidents_iff {e : Expr} {incident : Incident} :
    incident ∈ e.incidents ↔ ∃ op l r a b, e.at? incident.path = some (binary op l r) ∧
      l.value? = some a ∧ r.value? = some b ∧
      Evaluation.Mishap op a b incident.fault incident.event := by
  rw [incidents, List.mem_filterMap]
  constructor
  · intro h
    obtain ⟨path, -, h⟩ := h
    obtain ⟨-, -, hi⟩ | ⟨fault, event, hf, he, hi⟩ := e.incidentAt?_cases path
    · rw [hi] at h
      cases h
    · obtain rfl := Option.some.inj (hi.symm.trans h)
      obtain ⟨s, hs, hown⟩ := Option.bind_eq_some_iff.1 hf
      match s, hs, hown with
      | binary op l r, hs, hown =>
        have hevent : (binary op l r).ownEvent? = some event := by simpa [eventAt?, hs] using he
        obtain ⟨a, b, ha, hb, hmishap⟩ := Evaluation.mishap_iff.1 ⟨hown, hevent⟩
        exact ⟨op, l, r, a, b, hs, ha, hb, hmishap⟩
  · intro ⟨op, l, r, a, b, hs, ha, hb, hmishap⟩
    obtain ⟨hfault, hevent⟩ := Evaluation.mishap_iff.2 ⟨a, b, ha, hb, hmishap⟩
    refine ⟨incident.path, mem_walk_iff.2 (Option.isSome_iff_exists.2 ⟨_, hs⟩), ?_⟩
    simp [incidentAt?, faultAt?, eventAt?, hs, ownFault?, ownEvent?, hfault, hevent]

/-- Whoever is told of the faults, there is one record for each of them, in the same order, and both
belong to an operation that fails on the values of its operands. The record shows these values:
a division by zero has no result, any other operation has an exact one that is no word. -/
theorem log_tells_reports {σ : Type} (reporter : Reporter σ) (e : Expr) (s : σ) :
    (e.evaluateFor reporter s).value =
      (e.value?, reporter.reportAll s (e.incidents.map (·.fault))) ∧
    (e.evaluateFor reporter s).events = e.incidents.map (·.event) ∧
    (∀ incident, incident ∈ e.incidents ↔
      ∃ op l r a b, e.at? incident.path = some (binary op l r) ∧
        l.value? = some a ∧ r.value? = some b ∧
        Evaluation.Mishap op a b incident.fault incident.event) ∧
    (e.incidents.map (·.path)).Pairwise LeftOf ∧
    (∀ incident ∈ e.incidents, incident.event.level = .trace) ∧
    (∀ a, (Event.zeroDivisor a).message = "Division of " ++ Text.spelling a.toInt ++ " by zero") ∧
    (∀ op a b, (Event.overflowed op a b).message =
      Text.spelling a.toInt ++ " " ++ op.token ++ " " ++ Text.spelling b.toInt ++ " overflows") := by
  rw [evaluateFor_eq, ← faults_eq_map_incidents, ← trace_eq_map_incidents,
    ← failures_eq_map_incidents]
  refine ⟨rfl, rfl, fun incident => mem_incidents_iff, e.pairwise_failures, ?_, fun a => rfl,
    fun op a b => rfl⟩
  intro incident hmem
  obtain ⟨op, l, r, a, b, -, -, -, hmishap⟩ := mem_incidents_iff.1 hmem
  exact hmishap.level_eq

/-- Both sides of a product fail, each on values of its own, and the product is silent. -/
example : (binary .mul (binary .div (operand 7) (operand 0))
    (binary .sub (negate (operand 2147483647)) (operand 5))).trace =
      [.zeroDivisor 7, .overflowed .sub (-2147483647) 5] := by
  decide

end Expr
end PrefixCalc
