import Mathlib.Data.List.Basic
import Mathlib.Data.List.Induction
import PrefixCalc.Proofs.IntegerValues
import PrefixCalc.Proofs.Reports
import PrefixCalc.Workspace.History

/-! What every run of a workspace keeps. Only installing and clearing change the expression, only
printing it on words can add reports, and the list that all prints share holds the reports of those
prints one after the other. -/
namespace PrefixCalc

lemma PrintMode.ofLetter_of_not_letter {text : String} (h : ∀ mode : PrintMode, text ≠ mode.letter) :
    ofLetter text = .error .format := by
  unfold ofLetter
  split
  · rename_i mode hmode
    have hletter : mode.letter = text := by simpa using List.find?_some hmode
    exact absurd hletter.symm (h mode)
  · rfl

namespace Workspace

variable {β : Type} (kit : Assembly.Kit β)

lemma act_replace_of_ok {text : String} {e : Expr} (h : (Expr.ofText text).value = .ok e)
    (w : Workspace) : (w.act kit (.replace text)).value = (.done, { w with current := some e }) := by
  simp only [act, Logged.value_bind, h, Logged.value_pure]

lemma act_replace_of_error {text : String} {failure : Failure}
    (h : (Expr.ofText text).value = .error failure) (w : Workspace) :
    (w.act kit (.replace text)).value = (.failed failure, w) := by
  simp only [act, Logged.value_bind, h, Logged.value_pure]

lemma act_print_of_unknown {letter : String} (h : ∀ mode : PrintMode, letter ≠ mode.letter)
    (w : Workspace) : (w.act kit (.print letter)).value = (.unknownMode .format, w) := by
  simp only [act, PrintMode.ofLetter_of_not_letter h, Logged.value_pure]

lemma act_print_of_missing {w : Workspace} (h : w.current = none) (mode : PrintMode) :
    (w.act kit (.print mode.letter)).value = (.failed ⟨.fault .missing, []⟩, w) := by
  obtain ⟨current, saved, reports⟩ := w
  obtain rfl : current = none := h
  simp [act, PrintMode.ofLetter_letter, Expr.printCurrent, Answer.ofPrint]

lemma act_print_of_current {w : Workspace} {e : Expr} (h : w.current = some e) (mode : PrintMode) :
    (w.act kit (.print mode.letter)).value =
      (.ofPrint (e.print kit w.reports mode).value.text,
        { w with reports := (e.print kit w.reports mode).value.reports }) := by
  simp [act, PrintMode.ofLetter_letter, Expr.printCurrent, h]

lemma act_print_integer {w : Workspace} {e : Expr} (h : w.current = some e) :
    (w.act kit (.print PrintMode.integer.letter)).value =
      (.printed (e.value?.map fun v => Text.spelling v.toInt),
        { w with reports := w.reports ++ e.faults }) := by
  rw [act_print_of_current kit h, Expr.value_print_integer]
  rfl

/-- The other modes report nothing, whatever the expression, and if the builder keeps its word they
have a text. -/
lemma act_print_text {w : Workspace} {e : Expr} (h : w.current = some e) {mode : PrintMode}
    (hmode : mode ≠ .integer) :
    ∃ answer, (w.act kit (.print mode.letter)).value = (answer, w) ∧
      (kit.Lawful → ∃ text, answer = .printed (some text)) := by
  obtain ⟨current, saved, reports⟩ := w
  obtain rfl : current = some e := h
  rw [act_print_of_current kit rfl]
  cases mode with
  | integer => exact absurd rfl hmode
  | double => exact ⟨_, rfl, fun _ => ⟨_, rfl⟩⟩
  | full =>
    refine ⟨_, rfl, fun lawful => ⟨e.fullText, ?_⟩⟩
    rw [Expr.value_print_full lawful]
    rfl
  | minimal =>
    refine ⟨_, rfl, fun lawful => ⟨e.minimalText, ?_⟩⟩
    rw [Expr.value_print_minimal lawful]
    rfl

/-- Printing on words adds the reports of the expression, and any other print changes nothing. -/
lemma act_print (w : Workspace) (letter : String) : (w.act kit (.print letter)).value.2 =
    { w with reports := w.reports ++ (w.evaluated? (.print letter)).toList.flatMap Expr.faults } := by
  by_cases hletter : ∃ mode : PrintMode, letter = mode.letter
  · obtain ⟨mode, rfl⟩ := hletter
    rcases Option.eq_none_or_eq_some w.current with hcurrent | ⟨e, hcurrent⟩
    · have hnone : w.evaluated? (.print mode.letter) = none := by simp [evaluated?, hcurrent]
      rw [act_print_of_missing kit hcurrent, hnone]
      simp
    by_cases hmode : mode = .integer
    · subst hmode
      have hsome : w.evaluated? (.print PrintMode.integer.letter) = some e := by
        simp [evaluated?, hcurrent]
      rw [act_print_integer kit hcurrent, hsome]
      simp
    · have hother : mode.letter ≠ PrintMode.integer.letter := by
        cases mode <;> simp_all [PrintMode.letter]
      have hnone : w.evaluated? (.print mode.letter) = none := by simp [evaluated?, hother]
      obtain ⟨answer, hanswer, -⟩ := act_print_text kit hcurrent hmode
      rw [hanswer, hnone]
      simp
  · have hunknown : ∀ mode : PrintMode, letter ≠ mode.letter := fun mode h => hletter ⟨mode, h⟩
    have hnone : w.evaluated? (.print letter) = none := by simp [evaluated?, hunknown .integer]
    rw [act_print_of_unknown kit hunknown, hnone]
    simp

lemma current_act (w : Workspace) (action : Action) : (w.act kit action).value.2.current =
    if action = .clear then none else action.installed?.or w.current := by
  cases action with
  | replace text =>
    cases h : (Expr.ofText text).value with
    | ok e => simp [act_replace_of_ok kit h, Action.installed?, h, Except.toOption]
    | error failure => simp [act_replace_of_error kit h, Action.installed?, h, Except.toOption]
  | print letter => simp [act_print, Action.installed?]
  | clear | save | compare => rfl

lemma saved_act (w : Workspace) (action : Action) : (w.act kit action).value.2.saved =
    if action = .save then w.current else w.saved := by
  cases action with
  | replace text =>
    cases h : (Expr.ofText text).value with
    | ok e => simp [act_replace_of_ok kit h]
    | error failure => simp [act_replace_of_error kit h]
  | print letter => simp [act_print]
  | clear | save | compare => rfl

lemma reports_act (w : Workspace) (action : Action) : (w.act kit action).value.2.reports =
    w.reports ++ (w.evaluated? action).toList.flatMap Expr.faults := by
  cases action with
  | replace text =>
    cases h : (Expr.ofText text).value with
    | ok e => simp [act_replace_of_ok kit h, evaluated?]
    | error failure => simp [act_replace_of_error kit h, evaluated?]
  | print letter => rw [act_print]
  | clear | save | compare => simp [act, evaluated?]

/-- Every answer is the one that the workspace after the actions before it gives. -/
theorem getElem?_perform (w : Workspace) (actions : List Action) (i : Nat) :
    (w.perform kit actions).value[i]? = actions[i]?.map fun action =>
      let before := (actions.take i).foldl (fun w action => (w.act kit action).value.2) w
      (before.act kit action).value := by
  induction actions generalizing w i with
  | nil => simp [perform]
  | cons action actions ih =>
    cases i with
    | zero => simp [perform]
    | succ i => simpa [perform] using ih (w.act kit action).value.2 i

lemma evaluated_concat (actions : List Action) (action : Action) :
    evaluated kit (actions ++ [action]) =
      evaluated kit actions ++ ((after kit actions).evaluated? action).toList := by
  rw [evaluated, List.length_append, List.length_singleton, List.range_succ, List.filterMap_append]
  congr 1
  · refine List.filterMap_congr fun i hi => ?_
    have hlt := List.mem_range.1 hi
    rw [List.getElem?_append_left hlt, List.take_append_of_le_length (Nat.le_of_lt hlt)]
  · cases h : (after kit actions).evaluated? action <;> simp [h]

/-- The one list holds the reports of every evaluation, in the order of the actions. -/
theorem reports_after (actions : List Action) :
    (after kit actions).reports = (evaluated kit actions).flatMap Expr.faults := by
  induction actions using List.reverseRecOn with
  | nil => rfl
  | append_singleton actions action ih =>
    rw [after_concat, reports_act, evaluated_concat, ih, List.flatMap_append]

lemma installed_concat_iff {actions : List Action} {action : Action} {e : Expr} :
    Installed (actions ++ [action]) e ↔ action.installed? = some e ∨
      (action ≠ .clear ∧ action.installed? = none ∧ Installed actions e) := by
  constructor
  · rintro ⟨before, first, later, he, hinstalled, hlater⟩
    rcases List.eq_nil_or_concat later with rfl | ⟨later, last, rfl⟩
    · obtain ⟨-, hlast⟩ := List.append_inj' he rfl
      rw [(List.cons.inj hlast).1]
      exact .inl hinstalled
    · have he' : actions ++ [action] = (before ++ first :: later) ++ [last] := by simpa using he
      obtain ⟨hactions, hlast⟩ := List.append_inj' he' rfl
      rw [(List.cons.inj hlast).1]
      obtain ⟨hclear, hnone⟩ := hlater last (by simp)
      exact .inr ⟨hclear, hnone, before, first, later, hactions, hinstalled,
        fun a ha => hlater a (by simp [ha])⟩
  · rintro (hinstalled | ⟨hclear, hnone, before, first, later, rfl, hinstalled, hlater⟩)
    · exact ⟨actions, action, [], rfl, hinstalled, by simp⟩
    · refine ⟨before, first, later ++ [action], by simp, hinstalled, ?_⟩
      intro a ha
      rcases List.mem_append.1 ha with ha | ha
      · exact hlater a ha
      · rw [List.mem_singleton.1 ha]
        exact ⟨hclear, hnone⟩

/-- The current expression is the one installed last, if nothing was cleared since. -/
theorem current_after_iff {actions : List Action} {e : Expr} :
    (after kit actions).current = some e ↔ Installed actions e := by
  induction actions using List.reverseRecOn with
  | nil => simp [Installed, empty]
  | append_singleton actions action ih =>
    rw [after_concat, current_act, installed_concat_iff, ← ih]
    by_cases hclear : action = .clear
    · subst hclear
      simp [Action.installed?]
    · cases hinstalled : action.installed? <;> simp [hclear]

lemma saved_foldl (w : Workspace) {actions : List Action} (h : .save ∉ actions) :
    (actions.foldl (fun w action => (w.act kit action).value.2) w).saved = w.saved := by
  induction actions generalizing w with
  | nil => rfl
  | cons action actions ih =>
    obtain ⟨hfirst, hrest⟩ := List.ne_and_not_mem_of_not_mem_cons h
    rw [List.foldl_cons, ih _ hrest, saved_act, if_neg hfirst.symm]

/-- The copy is the expression that was current when the last copy was taken. -/
theorem saved_after {before later : List Action} (h : .save ∉ later) :
    (after kit (before ++ .save :: later)).saved = (after kit before).current := by
  rw [after, List.foldl_append, List.foldl_cons]
  exact saved_foldl kit _ h

/-- On words there is a text to print exactly when there is nothing to report. -/
lemma isSome_value?_iff {e : Expr} {reports : List Fault} :
    e.value?.isSome = true ↔ reports ++ e.faults = reports := by
  rw [List.append_right_eq_self, ← not_iff_not, ← ne_eq (e.faults), ← Expr.value?_eq_none_iff_faults]
  simp

/-- After any actions: the expression is the one installed last and not cleared since, the copy is
the expression of the last time one was saved, and the reports are those of the evaluations on words
and of nothing else. A failure changes nothing, and neither does a print in another mode. -/
theorem run_keeps_reports (actions : List Action) :
    let w := after kit actions
    (∀ i, (empty.perform kit actions).value[i]? =
      actions[i]?.map fun action => ((after kit (actions.take i)).act kit action).value) ∧
    (∀ e, w.current = some e ↔ Installed actions e) ∧
    (∀ before later, actions = before ++ .save :: later → .save ∉ later →
      w.saved = (after kit before).current) ∧
    (.save ∉ actions → w.saved = none) ∧
    (∃ equal, (w.act kit .compare).value = (.same equal, w) ∧
      (equal = true ↔ (w.current = none ∧ w.saved = none) ∨
        ∃ e, w.current = some e ∧ w.saved = some e)) ∧
    w.reports = (evaluated kit actions).flatMap Expr.faults ∧
    (∀ text failure, (Expr.ofText text).value = .error failure →
      (w.act kit (.replace text)).value = (.failed failure, w)) ∧
    (∀ letter, (∀ mode : PrintMode, letter ≠ mode.letter) →
      (w.act kit (.print letter)).value = (.unknownMode .format, w)) ∧
    (w.current = none → ∀ mode : PrintMode,
      (w.act kit (.print mode.letter)).value = (.failed ⟨.fault .missing, []⟩, w)) ∧
    (∀ e, w.current = some e →
      (∀ mode : PrintMode, mode ≠ .integer →
        ∃ answer, (w.act kit (.print mode.letter)).value = (answer, w) ∧
          (kit.Lawful → ∃ text, answer = .printed (some text))) ∧
      ∃ text reports, (w.act kit (.print PrintMode.integer.letter)).value =
          (.printed text, { w with reports := reports }) ∧
        reports = w.reports ++ e.faults ∧ (text.isSome = true ↔ reports = w.reports)) := by
  intro w
  refine ⟨getElem?_perform kit empty actions, fun e => current_after_iff kit, ?_,
    saved_foldl kit empty, ?_, reports_after kit actions,
    fun text failure h => act_replace_of_error kit h w,
    fun letter h => act_print_of_unknown kit h w, fun h mode => act_print_of_missing kit h mode, ?_⟩
  · rintro before later hactions hlater
    have hsaved := @saved_after _ kit before later hlater
    rwa [← hactions] at hsaved
  · refine ⟨_, rfl, ?_⟩
    cases hcurrent : w.current <;> cases hsaved : w.saved <;> simp [eq_comm]
  · intro e hcurrent
    refine ⟨fun mode hmode => act_print_text kit hcurrent hmode, _, _,
      act_print_integer kit hcurrent, rfl, ?_⟩
    rw [Option.isSome_map, isSome_value?_iff]

/-- The text that spells nothing leaves the quotient in place, and each print of it reports again. -/
example : (after Assembly.inBytes [.replace "/ 5 0", .print "i", .replace "+ 1", .print "p", .save,
    .clear, .print "i", .replace "/ 7 0", .print "i"]).reports = [.divide, .divide] := by
  decide +kernel

end Workspace
end PrefixCalc
