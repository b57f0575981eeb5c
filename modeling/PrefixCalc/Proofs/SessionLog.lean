import PrefixCalc.Proofs.Memory
import PrefixCalc.Proofs.RoundTrip

/-! What the log of a session tells of its expression. A definition leaves one record of what became
of it, and no other line leaves one. The record of a replacement holds the expression in prefix
order, so that the last of these records is enough to find the expression again. -/
namespace PrefixCalc

namespace Event

/-- Whether the message begins with this text. -/
def begins (start : String) (event : Event) : Bool :=
  start.toList.isPrefixOf event.message.toList

/-- A record on the debug level whose message is that this text takes the place of the
expression. -/
def Replaces (event : Event) (text : String) : Prop :=
  event.level = .debug ∧ event.message = "Replacing expression with " ++ text

/-- The fixed words or the number that a message begins with. -/
def opening : Event → String
  | accepted .. => "Accepted token '"
  | rejected .. => "Rejected token '"
  | built _ => "Built expression "
  | zeroDivisor _ => "Division of "
  | overflowed _ left _ => Text.spelling left.toInt
  | replaced _ => "Replacing expression with "
  | kept _ => "Keeping previous expression, '"

lemma prefix_append {a b : String} (h : a.toList <+: b.toList) (c : String) :
    a.toList <+: (b ++ c).toList := by
  rw [String.toList_append]
  exact h.trans (List.prefix_append _ _)

lemma opening_starts_message (event : Event) : event.opening.toList <+: event.message.toList := by
  have hself (text : String) : text.toList <+: text.toList := List.prefix_refl _
  cases event with
  | accepted token depth => exact prefix_append (prefix_append (prefix_append (hself _) _) _) _
  | rejected token depth => exact prefix_append (prefix_append (prefix_append (hself _) _) _) _
  | built text => exact prefix_append (hself _) _
  | zeroDivisor left => exact prefix_append (prefix_append (hself _) _) _
  | overflowed op left right =>
    have hsign := prefix_append (prefix_append (hself (Text.spelling left.toInt)) " ") op.token
    exact prefix_append (prefix_append (prefix_append hsign _) _) _
  | replaced text => exact prefix_append (hself _) _
  | kept malformed => exact prefix_append (prefix_append (hself _) _) _

lemma opening_cases {event : Event} {start : String} (h : event.begins start = true) :
    start.toList <+: event.opening.toList ∨ event.opening.toList <+: start.toList :=
  List.prefix_or_prefix_of_prefix (List.isPrefixOf_iff_prefix.1 h) event.opening_starts_message

/-- A number does not begin with a letter. -/
lemma spelling_not_letter {n : Int} {c : Char} (hc : c ≠ '-' ∧ c.isDigit = false) (cs : List Char) :
    ¬ (c :: cs <+: (Text.spelling n).toList ∨ (Text.spelling n).toList <+: c :: cs) := by
  intro h
  have hmem : c ∈ (Text.spelling n).toList := by
    cases hs : (Text.spelling n).toList with
    | nil => exact absurd (by simpa using hs) (Text.spelling_ne_empty n)
    | cons d ds =>
      rw [hs, List.cons_prefix_cons, List.cons_prefix_cons] at h
      obtain ⟨rfl, -⟩ | ⟨rfl, -⟩ := h <;> exact List.mem_cons_self
  obtain rfl | hdigit := Text.mem_spelling_cases hmem
  · exact hc.1 rfl
  · rw [hc.2] at hdigit
    exact Bool.noConfusion hdigit

lemma begins_of_opening {event : Event} {start : String}
    (h : start.toList <+: event.opening.toList) : event.begins start = true :=
  List.isPrefixOf_iff_prefix.2 (h.trans event.opening_starts_message)

theorem begins_replacing_iff {event : Event} :
    event.begins "Replacing expression" = true ↔ ∃ text, event = .replaced text := by
  constructor
  · intro h
    have hopening := opening_cases h
    cases event with
    | replaced text => exact ⟨text, rfl⟩
    | overflowed op left right =>
      exact absurd hopening (spelling_not_letter (c := 'R') (by decide) _)
    | accepted | rejected | built | zeroDivisor | kept => simp [opening] at hopening
  · rintro ⟨text, rfl⟩
    apply begins_of_opening
    simp [opening]

theorem begins_keeping_iff {event : Event} :
    event.begins "Keeping previous expression" = true ↔ ∃ malformed, event = .kept malformed := by
  constructor
  · intro h
    have hopening := opening_cases h
    cases event with
    | kept malformed => exact ⟨malformed, rfl⟩
    | overflowed op left right =>
      exact absurd hopening (spelling_not_letter (c := 'K') (by decide) _)
    | accepted | rejected | built | zeroDivisor | replaced => simp [opening] at hopening
  · rintro ⟨malformed, rfl⟩
    apply begins_of_opening
    simp [opening]

/-- The message alone tells such a record from all others. -/
theorem replaces_iff {event : Event} {text : String} :
    event.Replaces text ↔ event = .replaced text := by
  constructor
  · rintro ⟨-, hmessage⟩
    have hbegins : event.begins "Replacing expression" = true := by
      rw [begins, hmessage, List.isPrefixOf_iff_prefix]
      apply prefix_append
      simp
    obtain ⟨text', rfl⟩ := begins_replacing_iff.1 hbegins
    exact congrArg replaced ((String.append_right_inj _).1 hmessage)
  · rintro rfl
    exact ⟨rfl, rfl⟩

/-- The text that takes the place of the expression. -/
def replacement? : Event → Option String
  | replaced text => some text
  | _ => none

lemma replacement?_eq_some_iff {event : Event} {text : String} :
    event.replacement? = some text ↔ event.Replaces text := by
  rw [replaces_iff]
  cases event <;> simp [replacement?]

/-- What became of a definition. -/
def isVerdict (event : Event) : Bool :=
  event.begins "Replacing expression" || event.begins "Keeping previous expression"

lemma isVerdict_iff {event : Event} :
    event.isVerdict = true ↔
      (∃ text, event = .replaced text) ∨ ∃ malformed, event = .kept malformed := by
  rw [isVerdict, Bool.or_eq_true, begins_replacing_iff, begins_keeping_iff]

/-- The records of a log that tell what became of a definition. -/
def verdicts (log : List Event) : List Event := log.filter isVerdict

@[simp] lemma verdicts_nil : verdicts [] = [] := rfl

@[simp] lemma verdicts_append (a b : List Event) : verdicts (a ++ b) = verdicts a ++ verdicts b :=
  List.filter_append a b

lemma isVerdict_replaced (text : String) : (replaced text).isVerdict = true :=
  isVerdict_iff.2 (.inl ⟨text, rfl⟩)

lemma isVerdict_kept (malformed : String) : (kept malformed).isVerdict = true :=
  isVerdict_iff.2 (.inr ⟨malformed, rfl⟩)

lemma verdicts_singleton {event : Event} (h : event.isVerdict = true) :
    verdicts [event] = [event] := by
  simp [verdicts, h]

lemma verdicts_eq_nil_of_forall {log : List Event}
    (h : ∀ event ∈ log, (∀ text, event ≠ .replaced text) ∧ ∀ malformed, event ≠ .kept malformed) :
    verdicts log = [] := by
  apply List.filter_eq_nil_iff.2
  intro event hevent
  rw [isVerdict_iff]
  simp [h event hevent]

/-- A beginning that tells one kind of verdict from everything else finds all of that kind. -/
lemma exists_begins_iff {start : String} {verdict : String → Event}
    (htells : ∀ {event : Event}, event.begins start = true ↔ ∃ text, event = verdict text)
    (hverdict : ∀ text, (verdict text).isVerdict = true) (log : List Event) :
    (∃ event ∈ log, event.begins start = true) ↔ ∃ text, verdict text ∈ verdicts log := by
  simp only [verdicts, List.mem_filter, htells, hverdict, and_true]
  constructor
  · rintro ⟨_, hmem, text, rfl⟩
    exact ⟨text, hmem⟩
  · rintro ⟨text, hmem⟩
    exact ⟨_, hmem, text, rfl⟩

/-- A replacement is a verdict, so that none is lost with the other records. -/
lemma filterMap_verdicts (log : List Event) :
    (verdicts log).filterMap replacement? = log.filterMap replacement? := by
  rw [verdicts, List.filterMap_filter]
  congr 1
  funext event
  cases event with
  | replaced text => rw [if_pos (isVerdict_replaced text)]
  | accepted | rejected | built | zeroDivisor | overflowed | kept => simp [replacement?]

end Event

open Event (verdicts)

namespace Reducer

lemma verdicts_process (r : Reducer) (token : String) : verdicts (r.process token).events = [] := by
  obtain ⟨stack, failed⟩ := r
  apply Event.verdicts_eq_nil_of_forall
  cases failed with
  | true => simp [process_of_failed]
  | false =>
    cases h : reduce? token stack with
    | none => simp [process_of_reduce_none h]
    | some stack' => simp [process_of_reduce h]

lemma verdicts_acceptAll (r : Reducer) (tokens : List String) :
    verdicts (r.acceptAll tokens).events = [] := by
  induction tokens generalizing r with
  | nil => rfl
  | cons token tokens ih =>
    rw [acceptAll, Logged.events_bind, Event.verdicts_append, verdicts_process, List.nil_append]
    split
    · exact ih _
    · rfl

end Reducer

namespace Expr

lemma verdicts_event? (op : BinaryOp) (a b : Option Int32) :
    verdicts (Evaluation.event? op a b).toList = [] := by
  apply Event.verdicts_eq_nil_of_forall
  intro event hevent
  obtain hevent : Evaluation.event? op a b = some event := by simpa using hevent
  match a, b with
  | none, _ | some _, none => cases hevent
  | some a, some b =>
    by_cases hz : op = .div ∧ b = 0
    · obtain rfl : Event.zeroDivisor a = event := by simpa [Evaluation.event?, hz] using hevent
      simp
    · obtain ⟨-, rfl⟩ : op.checked a b = none ∧ Event.overflowed op a b = event := by
        simpa [Evaluation.event?, hz] using hevent
      simp

lemma verdicts_trace (e : Expr) : verdicts e.trace = [] := by
  induction e with
  | operand v => rfl
  | binary op l r ihl ihr => simp [ihl, ihr, verdicts_event?]
  | negate x ih => simpa using ih

lemma verdicts_print {β : Type} (kit : Assembly.Kit β) (e : Expr) (reports : List Fault)
    (mode : PrintMode) : verdicts (e.print kit reports mode).events = [] := by
  cases mode with
  | integer => simp [print, evaluate_eq, verdicts_trace]
  | double | full | minimal => rfl

end Expr

/-- What was installed is read back from its record. -/
lemma Expr.value_ofText_prefixText {tokens : List String} {e : Expr} (h : parse? tokens = some e) :
    (ofText e.prefixText).value = .ok e := by
  have hnonneg : e.nonneg = true := (Derives.iff_ofTokens.2 (ofTokens_eq_ok_iff.2 h)).nonneg
  rw [ofText_eq_ok_iff_ofTokens, words_prefixText, ofTokens_tokens_iff]
  exact ⟨hnonneg, rfl⟩

namespace Command

/-- Only an equals sign with words behind it defines anything. -/
lemma ofLine_ne_define {line : String}
    (h : ∀ token tokens, Text.words line ≠ "=" :: token :: tokens) (text : String) :
    ofLine line ≠ .define text := by
  cases hwords : Text.words line with
  | nil => simp [ofLine_of_words_eq_nil hwords]
  | cons w ws =>
    by_cases hsign : w = "="
    · subst hsign
      obtain ⟨-, hline⟩ | ⟨hne, -⟩ := ofLine_of_words_eq_cons hwords
      · simp [hline]
      · obtain ⟨token, tokens, rfl⟩ := List.exists_cons_of_ne_nil hne
        exact absurd hwords (h token tokens)
    · rw [ofLine_of_words hwords hsign]
      split
      · exact ofWord_ne_define w text
      · simp

end Command

namespace Session

lemma verdicts_define (s : Session) (text : String) :
    verdicts (s.define text).events =
      match Expr.parse? (Text.words text) with
      | some e => [.replaced e.prefixText]
      | none => [.kept (Text.trim text)] := by
  simp only [define, Logged.events_bind, Event.verdicts_append, Reducer.verdicts_acceptAll,
    List.nil_append, Reducer.clear_eq, Reducer.takeRoot_eq, Reducer.root?_acceptAll]
  cases hparse : Expr.parse? (Text.words text) with
  | none => simp [Event.verdicts_singleton (Event.isVerdict_kept _)]
  | some e =>
    simp [Reducer.accepted_of_parse? hparse, Event.verdicts_singleton (Event.isVerdict_replaced _)]

variable {β : Type} (kit : Assembly.Kit β)

lemma verdicts_perform {s : Session} {command : Command} (h : ∀ text, command ≠ .define text) :
    verdicts (s.perform kit command).events = [] := by
  cases command with
  | define text => exact absurd rfl (h text)
  | print mode =>
    cases hcurrent : s.current <;>
      simp [perform, print, Expr.printCurrent, hcurrent, Expr.verdicts_print]
  | blank | finish | unknown => rfl

/-- What a line leaves of these records, by its words. -/
inductive Recorded (line : String) : List Event → Prop
  | replaced {tokens : List String} {e : Expr} (words : Text.words line = "=" :: tokens)
      (spelled : Expr.parse? tokens = some e) : Recorded line [.replaced e.prefixText]
  | kept {token malformed : String} {tokens : List String}
      (words : Text.words line = "=" :: token :: tokens)
      (unspelled : Expr.parse? (token :: tokens) = none)
      (named : Text.words malformed = token :: tokens) : Recorded line [.kept malformed]
  | nothing (words : ∀ token tokens, Text.words line ≠ "=" :: token :: tokens) : Recorded line []

theorem recorded_execute (s : Session) (line : String) :
    Recorded line (verdicts (s.execute kit line).events) := by
  by_cases hwords : ∃ token tokens, Text.words line = "=" :: token :: tokens
  · obtain ⟨token, tokens, hwords⟩ := hwords
    obtain ⟨h, -⟩ | ⟨-, text, hline, htext⟩ := Command.ofLine_of_words_eq_cons hwords
    · cases h
    · rw [execute, hline, perform, verdicts_define, htext]
      cases hparse : Expr.parse? (token :: tokens) with
      | some e => exact .replaced hwords hparse
      | none => exact .kept hwords hparse (by rw [Text.words_trim, htext])
  · have hother : ∀ token tokens, Text.words line ≠ "=" :: token :: tokens := by
      intro token tokens h
      exact hwords ⟨token, tokens, h⟩
    rw [execute, verdicts_perform kit (Command.ofLine_ne_define hother)]
    exact .nothing hother

lemma defined?_of_words {line : String} {tokens : List String}
    (h : Text.words line = "=" :: tokens) : defined? line = Expr.parse? tokens := by
  simp only [defined?, h]

lemma defined?_of_other {line : String}
    (h : ∀ token tokens, Text.words line ≠ "=" :: token :: tokens) : defined? line = none := by
  unfold defined?
  split
  · rename_i tokens hwords
    cases tokens with
    | nil => exact Expr.parse?_nil
    | cons token tokens => exact absurd hwords (h token tokens)
  · rfl

/-- The text that a log was last told to take the place of the expression. -/
def lastReplacement (log : List Event) : Option String :=
  (log.filterMap Event.replacement?).getLast?

lemma lastReplacement_append (a b : List Event) :
    lastReplacement (a ++ b) = (lastReplacement b).or (lastReplacement a) := by
  rw [lastReplacement, List.filterMap_append, List.getLast?_append, lastReplacement,
    lastReplacement]

lemma lastReplacement_of_none {log : List Event}
    (h : ∀ event ∈ log, ∀ text, ¬ event.Replaces text) : lastReplacement log = none := by
  have hnone : log.filterMap Event.replacement? = [] := by
    apply List.filterMap_eq_nil_iff.2
    intro event hevent
    apply Option.eq_none_iff_forall_ne_some.2
    intro text htext
    exact h event hevent text (Event.replacement?_eq_some_iff.1 htext)
  rw [lastReplacement, hnone, List.getLast?_nil]

lemma lastReplacement_of_last {before later : List Event} {event : Event} {text : String}
    (h : event.Replaces text) (hlater : ∀ l ∈ later, ∀ t, ¬ l.Replaces t) :
    lastReplacement (before ++ event :: later) = some text := by
  rw [← List.singleton_append, lastReplacement_append, lastReplacement_append,
    lastReplacement_of_none hlater, Option.none_or]
  simp [lastReplacement, Event.replacement?_eq_some_iff.2 h]

/-- A line adds the record of a replacement in the same go as it defines the expression. -/
theorem lastReplacement_execute (s : Session) (line : String) :
    lastReplacement (s.execute kit line).events = (defined? line).map Expr.prefixText := by
  have hrecorded := recorded_execute kit s line
  rw [lastReplacement, ← Event.filterMap_verdicts]
  generalize verdicts (s.execute kit line).events = own at hrecorded
  cases hrecorded with
  | replaced words spelled =>
    rw [defined?_of_words words, spelled]
    rfl
  | kept words unspelled named =>
    rw [defined?_of_words words, unspelled]
    rfl
  | nothing words =>
    rw [defined?_of_other words]
    rfl

lemma events_executeAll_concat (s : Session) (lines : List String) (line : String) :
    (s.executeAll kit (lines ++ [line])).events = (s.executeAll kit lines).events ++
      ((lines.foldl (fun s line => (s.execute kit line).value.session) s).execute kit
        line).events := by
  induction lines generalizing s with
  | nil => simp [executeAll]
  | cons first lines ih => simp [executeAll, ih]

/-- However many lines there were, the last replacement in the log is of the expression as it
stands. -/
theorem lastReplacement_executeAll (lines : List String) :
    lastReplacement (empty.executeAll kit lines).events =
      (after kit lines).current.map Expr.prefixText := by
  induction lines using List.reverseRecOn with
  | nil => rfl
  | append_singleton lines line ih =>
    rw [events_executeAll_concat, lastReplacement_append, lastReplacement_execute, ih,
      after_concat, current_execute]
    cases defined? line <;> rfl

lemma value_ofText_current {lines : List String} {e : Expr}
    (h : (after kit lines).current = some e) : (Expr.ofText e.prefixText).value = .ok e := by
  rw [current_after] at h
  obtain ⟨line, -, hline⟩ := List.mem_filterMap.1 (List.mem_of_getLast? h)
  unfold defined? at hline
  split at hline
  · exact Expr.value_ofText_prefixText hline
  · cases hline

lemma Recorded.length_le {line : String} {own : List Event} (h : Recorded line own) :
    own.length ≤ 1 := by
  cases h <;> simp

lemma Recorded.exists_replaced_iff {line : String} {own : List Event} (h : Recorded line own) :
    (∃ text, .replaced text ∈ own) ↔ IsDefinition line := by
  rw [isDefinition_iff]
  cases h with
  | replaced words spelled => simp [defined?_of_words words, spelled]
  | kept words unspelled named => simp [defined?_of_words words, unspelled]
  | nothing words => simp [defined?_of_other words]

lemma isMalformed_iff {line : String} : IsMalformed line ↔
    ∃ token tokens, Text.words line = "=" :: token :: tokens ∧
      Expr.parse? (token :: tokens) = none := by
  simp only [IsMalformed, ne_eq, Expr.ofTokens_eq_ok_iff, Option.eq_none_iff_forall_ne_some]

lemma Recorded.exists_kept_iff {line : String} {own : List Event} (h : Recorded line own) :
    (∃ malformed, .kept malformed ∈ own) ↔ IsMalformed line := by
  rw [isMalformed_iff]
  cases h with
  | @replaced tokens e words spelled =>
    constructor
    · rintro ⟨malformed, hmem⟩
      simp at hmem
    · rintro ⟨token, rest, hwords, hparse⟩
      obtain ⟨-, rfl⟩ := List.cons.inj (words.symm.trans hwords)
      rw [hparse] at spelled
      cases spelled
  | kept words unspelled named => simp [words, unspelled]
  | nothing words => simp [words]

lemma Recorded.eq_nil {line : String} {own : List Event} (h : Recorded line own)
    (hwords : ∀ token tokens, Text.words line ≠ "=" :: token :: tokens) : own = [] := by
  cases h with
  | @replaced tokens e words spelled =>
    rw [← defined?_of_words words, defined?_of_other hwords] at spelled
    cases spelled
  | kept words => exact absurd words (hwords _ _)
  | nothing => rfl

/-- After any lines the expression can be found again from the last record of a replacement in the
log, and there is none without such a record. The next line adds at most one record of what became
of a definition: of a replacement if it is well formed, and of the expression being kept if it has
tokens but is malformed. Any other line, an equals sign alone among them, adds none. -/
theorem log_rebuilds_expression (lines : List String) :
    let log := (empty.executeAll kit lines).events
    ((∀ event ∈ log, ∀ text, ¬ event.Replaces text) → (after kit lines).current = none) ∧
    (∀ before event later text, log = before ++ event :: later → event.Replaces text →
      (∀ l ∈ later, ∀ t, ¬ l.Replaces t) →
      ∃ e, (Expr.ofText text).value = .ok e ∧ (after kit lines).current = some e) ∧
    (∀ line, let own := ((after kit lines).execute kit line).events
      (empty.executeAll kit (lines ++ [line])).events = log ++ own ∧
      (verdicts own).length ≤ 1 ∧
      ((∃ event ∈ own, event.begins "Replacing expression" = true) ↔ IsDefinition line) ∧
      ((∃ event ∈ own, event.begins "Keeping previous expression" = true) ↔ IsMalformed line) ∧
      ((∀ token tokens, Text.words line ≠ "=" :: token :: tokens) → verdicts own = [])) := by
  intro log
  have hlast : lastReplacement log = (after kit lines).current.map Expr.prefixText :=
    lastReplacement_executeAll kit lines
  refine ⟨?_, ?_, ?_⟩
  · intro hnone
    rw [lastReplacement_of_none hnone] at hlast
    simpa using hlast.symm
  · intro before event later text hlog hevent hlater
    rw [hlog, lastReplacement_of_last hevent hlater] at hlast
    obtain ⟨e, he, rfl⟩ := Option.map_eq_some_iff.1 hlast.symm
    exact ⟨e, value_ofText_current kit he, he⟩
  · intro line own
    have hrecorded : Recorded line (verdicts own) := recorded_execute kit (after kit lines) line
    rw [Event.exists_begins_iff Event.begins_replacing_iff Event.isVerdict_replaced,
      Event.exists_begins_iff Event.begins_keeping_iff Event.isVerdict_kept]
    exact ⟨events_executeAll_concat kit empty lines line, hrecorded.length_le,
      hrecorded.exists_replaced_iff, hrecorded.exists_kept_iff, hrecorded.eq_nil⟩

/-- The record holds the plain spelling, and nothing that came later made another one. -/
example : lastReplacement (empty.executeAll Assembly.inBytes
    ["= + 5 007", "= * 2", "p", "=", "=7", "end"]).events = some "+ 5 7" := by decide +kernel

end Session
end PrefixCalc
