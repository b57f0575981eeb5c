import Mathlib.Data.List.Induction
import PrefixCalc.Proofs.Commands

/-! What a session remembers of the lines it was given is the expression that was defined last. -/
namespace PrefixCalc
namespace Session

/-- A definition is an equals sign with only blanks before it and its tokens behind it. -/
lemma exists_sign {line : String} {tokens : List String} (h : Text.words line = "=" :: tokens) :
    ∃ pre rest, line.toList = pre ++ '=' :: rest ∧ (∀ c ∈ pre, Text.isBlank c = true) ∧
      Text.words (String.ofList rest) = tokens := by
  obtain ⟨pre, post, hline, hpre, hpost⟩ := Text.exists_trimmed line.toList
  have htrimmed : Text.trimmed line.toList = (Text.trim line).toList := by simp [Text.trim]
  rw [htrimmed] at hline
  obtain ⟨rfl, htrim⟩ | ⟨-, b, rest, hb, htrim, rfl⟩ := Text.trim_of_words_eq_cons h
  · refine ⟨pre, post, by rw [hline, htrim]; rfl, hpre, ?_⟩
    rw [Text.words_eq, String.toList_ofList, Text.wordsOf_of_blank hpost, List.map_nil]
  · refine ⟨pre, b :: (rest ++ post), by rw [hline, htrim]; rfl, hpre, ?_⟩
    rw [Text.words_eq, Text.words_eq, String.toList_ofList, String.toList_ofList,
      Text.wordsOf_cons_of_blank hb, Text.wordsOf_append_of_blank hpost]

lemma words_definiens {line : String} {tokens : List String}
    (h : Text.words line = "=" :: tokens) : Text.words (definiens line) = tokens := by
  obtain ⟨pre, rest, hline, hpre, hrest⟩ := exists_sign h
  have hskip : ∀ c ∈ pre, decide (c ≠ '=') = true := by
    intro c hc
    rw [decide_eq_true_iff]
    rintro rfl
    exact absurd (hpre '=' hc) (by decide)
  have hdrop : (line.toList.dropWhile (· ≠ '=')).drop 1 = rest := by
    rw [hline, List.dropWhile_append_of_pos hskip]
    simp
  rw [definiens, hdrop, hrest]

lemma isDefinition_iff {line : String} : IsDefinition line ↔ ∃ e, defined? line = some e := by
  constructor
  · rintro ⟨tokens, e, hwords, he⟩
    refine ⟨e, ?_⟩
    rw [defined?, hwords]
    exact Expr.ofTokens_eq_ok_iff.1 he
  · rintro ⟨e, he⟩
    unfold defined? at he
    split at he
    · rename_i tokens hwords
      exact ⟨tokens, e, hwords, Expr.ofTokens_eq_ok_iff.2 he⟩
    · cases he

/-- What a line defines is what stands behind its equals sign. -/
lemma value_ofText_definiens {line : String} {e : Expr} (h : defined? line = some e) :
    (Expr.ofText (definiens line)).value = .ok e := by
  unfold defined? at h
  split at h
  · rename_i tokens hwords
    rw [Expr.ofText_eq_ok_iff_ofTokens, words_definiens hwords]
    exact Expr.ofTokens_eq_ok_iff.2 h
  · cases h

lemma lastDefined_of_no_definition {lines : List String} (h : ∀ line ∈ lines, ¬ IsDefinition line) :
    lastDefined lines = none := by
  have hnone : lines.filterMap defined? = [] := by
    rw [List.filterMap_eq_nil_iff]
    intro line hline
    apply Option.eq_none_iff_forall_ne_some.2
    intro e he
    exact h line hline (isDefinition_iff.2 ⟨e, he⟩)
  rw [lastDefined, hnone, List.getLast?_nil]

lemma lastDefined_of_last {before later : List String} {line : String} {e : Expr}
    (h : defined? line = some e) (hlater : ∀ l ∈ later, ¬ IsDefinition l) :
    lastDefined (before ++ line :: later) = some e := by
  rw [← List.singleton_append, lastDefined_append, lastDefined_append,
    lastDefined_of_no_definition hlater, Option.none_or]
  simp [lastDefined, h]

variable {β : Type} (kit : Assembly.Kit β)

lemma after_concat (lines : List String) (line : String) :
    after kit (lines ++ [line]) = ((after kit lines).execute kit line).value.session := by
  rw [after, List.foldl_append]
  rfl

/-- Whatever else the lines were, only the definitions among them left something behind. -/
theorem current_after (lines : List String) : (after kit lines).current = lastDefined lines := by
  induction lines using List.reverseRecOn with
  | nil => rfl
  | append_singleton lines line ih =>
    rw [after_concat, current_execute, ih, lastDefined_append]
    cases hline : defined? line <;> simp [lastDefined, hline]

/-- The reducers of the two sessions need not be the same. -/
theorem executeAll_congr {s s' : Session} (h : s.current = s'.current) (lines : List String) :
    (s.executeAll kit lines).value.map Reply.seen =
      (s'.executeAll kit lines).value.map Reply.seen := by
  induction lines generalizing s s' with
  | nil => rfl
  | cons line lines ih =>
    obtain ⟨hcontrol, houtput, hcurrent⟩ := replyTo_congr kit h (Text.words line)
    rw [← value_execute, ← value_execute] at hcontrol houtput hcurrent
    simp only [executeAll, Logged.value_bind, Logged.value_pure, List.map_cons, Reply.seen,
      hcontrol, houtput, ih hcurrent]

/-- After any lines the session has the expression of the last one that defines one, and how it
goes on depends on nothing else. -/
theorem remembers_last_definition (lines : List String) :
    ((∀ line ∈ lines, ¬ IsDefinition line) → (after kit lines).current = none) ∧
    (∀ before line later, lines = before ++ line :: later → IsDefinition line →
      (∀ l ∈ later, ¬ IsDefinition l) →
      ∃ e, (Expr.ofText (definiens line)).value = .ok e ∧ (after kit lines).current = some e) ∧
    (after kit lines).current = lastDefined lines ∧
    (∀ lines', lastDefined lines = lastDefined lines' → ∀ more,
      ((after kit lines).executeAll kit more).value.map Reply.seen =
        ((after kit lines').executeAll kit more).value.map Reply.seen) := by
  refine ⟨fun hnone => ?_, ?_, current_after kit lines, fun lines' hlast more => ?_⟩
  · rw [current_after, lastDefined_of_no_definition hnone]
  · rintro before line later rfl hline hlater
    obtain ⟨e, he⟩ := isDefinition_iff.1 hline
    refine ⟨e, value_ofText_definiens he, ?_⟩
    rw [current_after, lastDefined_of_last he hlater]
  · apply executeAll_congr
    rw [current_after, current_after, hlast]

/-- A malformed definition, a print and the end of the session leave the expression as it was. -/
example : (after Assembly.inBytes ["= + 5 7", "= * 2", "i", "end", ""]).current =
    some (.binary .add (.operand 5) (.operand 7)) := by decide +kernel

end Session
end PrefixCalc
