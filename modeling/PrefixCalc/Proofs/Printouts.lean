import PrefixCalc.Proofs.Delivery
import PrefixCalc.Proofs.IntegerValues
import PrefixCalc.Proofs.Lines
import PrefixCalc.Proofs.Memory
import PrefixCalc.Proofs.Reports
import PrefixCalc.Proofs.Spelling

/-! A print always says something, and it can be told what. There is a value or a fault and never
both; the messages of the faults have blanks in them, and what is printed of an expression is one
word of ASCII. -/
namespace PrefixCalc
namespace Text

/-- ASCII that leaves a mark. -/
def Visible (text : String) : Prop := ∀ c ∈ text.toList, 0x21 ≤ c.toNat ∧ c.toNat ≤ 0x7E

/-- ASCII without control characters, a line feed among them. -/
def Printable (text : String) : Prop := ∀ c ∈ text.toList, 0x20 ≤ c.toNat ∧ c.toNat ≤ 0x7E

instance : DecidablePred Visible := fun text => List.decidableBAll _ text.toList
instance : DecidablePred Printable := fun text => List.decidableBAll _ text.toList

lemma Visible.printable {text : String} (h : Visible text) : Printable text := by
  intro c hc
  have := h c hc
  omega

lemma visible_append {a b : String} : Visible (a ++ b) ↔ Visible a ∧ Visible b := by
  rw [Visible, String.toList_append, List.forall_mem_append]
  rfl

lemma visible_of_digits {text : String} (h : ∀ c ∈ text.toList, c.isDigit = true) :
    Visible text := by
  intro c hc
  have hcode := toNat_of_isDigit (h c hc)
  omega

lemma visible_repr (n : Nat) : Visible n.repr := by
  apply visible_of_digits
  rw [Nat.toList_repr]
  exact (plain_toDigits n).digits

lemma visible_spelling (n : Int) : Visible (spelling n) := by
  rw [spelling, Int.repr_eq_if]
  split
  · exact visible_repr _
  · exact visible_append.2 ⟨by decide, visible_repr _⟩

end Text

open Text (Visible Printable visible_append)

lemma Fault.printable_message (fault : Fault) : Printable fault.message := by
  cases fault <;> decide

lemma Fault.message_ne_of_visible {text : String} (h : Visible text) (fault : Fault) :
    text ≠ fault.message := by
  rintro rfl
  revert h
  cases fault <;> decide

lemma Operator.visible_symbol (op : Operator) : Visible op.symbol := by
  rcases op with op | _
  · cases op <;> decide
  · decide

namespace FixedPoint

lemma visible_sign (negative : Bool) : Visible (sign negative) := by cases negative <;> decide

lemma visible_text (places digits : Nat) : Visible (text places digits) := by
  rw [text, visible_append, visible_append]
  refine ⟨⟨Text.visible_repr _, by decide⟩, ?_⟩
  apply Text.visible_of_digits
  intro c hc
  rw [String.toList_ofList] at hc
  exact Text.isDigit_of_mem_leftpad hc

theorem visible_ofBinary64 (x : Binary64) : Visible (ofBinary64 x) := by
  cases x with
  | nan => decide
  | infinite negative => exact visible_append.2 ⟨visible_sign negative, by decide⟩
  | finite negative significand exponent =>
    exact visible_append.2 ⟨visible_sign negative, visible_text _ _⟩

end FixedPoint

namespace Expr

lemma visible_infixTexts (e : Expr) : Visible e.fullText ∧ Visible e.minimalText := by
  refine infixTexts_induction Text.visible_spelling Operator.visible_symbol ?_ ?_ e
  · intro a b ha hb
    exact visible_append.2 ⟨ha, hb⟩
  · intro a ha
    exact visible_append.2 ⟨visible_append.2 ⟨by decide, ha⟩, by decide⟩

variable {β : Type} {kit : Assembly.Kit β}

/-- Whatever is printed of an expression is visible, in every mode. -/
theorem visible_of_print (lawful : kit.Lawful) {e : Expr} {reports : List Fault}
    {mode : PrintMode} {text : String}
    (h : (e.print kit reports mode).value.text = .ok (some text)) : Visible text := by
  cases mode with
  | integer =>
    rw [value_print_integer] at h
    obtain ⟨v, -, rfl⟩ := Option.map_eq_some_iff.1 (Except.ok.inj h)
    exact Text.visible_spelling _
  | double =>
    obtain rfl := Option.some.inj (Except.ok.inj h)
    exact FixedPoint.visible_ofBinary64 _
  | full =>
    rw [value_print_full lawful] at h
    obtain rfl := Option.some.inj (Except.ok.inj h)
    exact e.visible_infixTexts.1
  | minimal =>
    rw [value_print_minimal lawful] at h
    obtain rfl := Option.some.inj (Except.ok.inj h)
    exact e.visible_infixTexts.2

/-- An evaluation never reports that something is malformed or missing. -/
lemma arithmetic_of_mem_faults {e : Expr} {fault : Fault} (h : fault ∈ e.faults) :
    fault = .overflow ∨ fault = .divide := by
  rw [faults_eq_filterMap] at h
  obtain ⟨part, -, hpart⟩ := List.mem_filterMap.1 h
  cases part with
  | operand v => cases hpart
  | binary op l r =>
    obtain ⟨a, b, -, -, -, rfl⟩ := Evaluation.fault?_eq_some_iff.1 hpart
    split
    · exact .inr rfl
    · exact .inl rfl
  | negate x => cases hpart

/-- These lines tell what a print of the expression comes to. The number it has as a word, or the
faults that leave it without one, from left to right; in the other modes a text that cannot be
taken for a fault. -/
def Told (kit : Assembly.Kit β) (e : Expr) (mode : PrintMode) (texts : List String) : Prop :=
  match mode with
  | .integer =>
    (∃ v, e.value? = some v ∧ e.faults = [] ∧ texts = [Text.spelling v.toInt]) ∨
    (e.value? = none ∧ texts ≠ [] ∧ texts = e.faults.map Fault.message ∧
      (∀ text ∈ texts, text = "Overflow Error" ∨ text = "Divide Error") ∧
      List.Forall₂ e.FailsAt e.failures e.faults ∧ e.failures.Pairwise LeftOf)
  | _ => ∃ text, (e.print kit [] mode).value.text = .ok (some text) ∧ texts = [text] ∧
      ∀ fault : Fault, text ≠ fault.message

lemma Told.ne_nil {e : Expr} {mode : PrintMode} {texts : List String}
    (h : e.Told kit mode texts) : texts ≠ [] := by
  cases mode with
  | integer =>
    obtain ⟨v, -, -, rfl⟩ | ⟨-, hne, -⟩ := h
    · exact List.cons_ne_nil _ _
    · exact hne
  | double | full | minimal =>
    obtain ⟨text, -, rfl, -⟩ := h
    exact List.cons_ne_nil _ _

/-- Where a text comes without reports, it is told alone. -/
lemma told_of_text (lawful : kit.Lawful) {e : Expr} {mode : PrintMode} {text : String}
    (h : (e.print kit [] mode).value = ⟨.ok (some text), []⟩) :
    ∃ shown, (e.print kit [] mode).value.text = .ok (some shown) ∧
      (e.print kit [] mode).value.reports.map Fault.message ++ [text] = [shown] ∧
      ∀ fault : Fault, shown ≠ fault.message := by
  have htext : (e.print kit [] mode).value.text = .ok (some text) := by rw [h]
  refine ⟨text, htext, ?_, Fault.message_ne_of_visible (visible_of_print lawful htext)⟩
  rw [h]
  rfl

/-- A print of an expression does not fail, and its lines tell what it comes to. -/
theorem exists_told (lawful : kit.Lawful) (e : Expr) (mode : PrintMode) :
    ∃ text, (e.print kit [] mode).value.text = .ok text ∧
      e.Told kit mode ((e.print kit [] mode).value.reports.map Fault.message ++ text.toList) := by
  cases mode with
  | integer =>
    rw [value_print_integer]
    refine ⟨_, rfl, ?_⟩
    cases hv : e.value? with
    | none =>
      have hfaults := value?_eq_none_iff_faults.1 hv
      refine .inr ⟨hv, by simpa using hfaults, by simp, ?_, e.forall₂_failures, e.pairwise_failures⟩
      intro text htext
      simp only [Option.map_none, Option.toList_none, List.append_nil, List.nil_append,
        List.mem_map] at htext
      obtain ⟨fault, hfault, rfl⟩ := htext
      obtain rfl | rfl := arithmetic_of_mem_faults hfault
      · exact .inl rfl
      · exact .inr rfl
    | some v =>
      have hfaults := faults_eq_nil_of_value? hv
      exact .inl ⟨v, hv, hfaults, by simp [hfaults]⟩
  | double => exact ⟨_, rfl, told_of_text lawful rfl⟩
  | full =>
    have hfull := value_print_full lawful e []
    exact ⟨_, congrArg Printout.text hfull, told_of_text lawful hfull⟩
  | minimal =>
    have hminimal := value_print_minimal lawful e []
    exact ⟨_, congrArg Printout.text hminimal, told_of_text lawful hminimal⟩

end Expr

namespace Session

lemma written_eq_empty_iff {texts : List String} : written texts = "" ↔ texts = [] := by
  cases texts with
  | nil => simp
  | cons text texts => simp [written]

lemma bytesOf_eq_nil_iff {text : String} : bytesOf text = [] ↔ text = "" := by
  constructor
  · intro h
    have htext := Text.decode?_bytesOf text
    rw [h] at htext
    exact Option.some.inj (htext.symm.trans (Text.decode?_bytesOf ""))
  · rintro rfl
    rfl

variable {β : Type} {kit : Assembly.Kit β}

lemma replyTo_letter (s : Session) (mode : PrintMode) :
    s.replyTo kit [mode.letter] = s.shown kit mode := by
  cases mode <;> rfl

section Lawful

variable (lawful : kit.Lawful)
include lawful

/-- A sink without bounds gets the whole output of the reply, and the line is not aborted. -/
theorem run_executeOn (s : Session) (line : String) (flushFails : Bool) :
    ∃ control, (s.replyTo kit (Text.words line)).control = .ok control ∧
      ((s.executeOn kit line).run ⟨none, flushFails⟩).value =
        ⟨bytesOf (s.replyTo kit (Text.words line)).output,
          .ok ((control, (s.replyTo kit (Text.words line)).session), ⟨none, flushFails⟩)⟩ := by
  have hcontrol := control_execute lawful s line
  rw [value_execute] at hcontrol
  refine ⟨_, hcontrol, ?_⟩
  rw [executeOn_eq, Writing.value_bind_liftM, value_execute,
    Writing.run_bind_of_ok (Writing.writeAll_of_fit rfl), hcontrol]
  simp [pure, Sink.after]

/-- A print goes on and changes nothing, and its lines tell what there is to tell. -/
theorem exists_shown (s : Session) (mode : PrintMode) :
    ∃ texts, s.shown kit mode = ⟨.ok .goOn, written texts, s⟩ ∧ texts ≠ [] ∧
      (∀ text ∈ texts, Printable text) ∧
      (s.current = none → texts = ["Expression Missing"]) ∧
      (∀ e, s.current = some e → e.Told kit mode texts) := by
  cases hcurrent : s.current with
  | none =>
    have hshown : s.shown kit mode = ⟨.ok .goOn, written ["Expression Missing"], s⟩ := by
      rw [shown, hcurrent]
      rfl
    refine ⟨_, hshown, List.cons_ne_nil _ _, ?_, fun _ => rfl, ?_⟩
    · exact List.forall_mem_singleton.2 (by decide)
    · rintro e ⟨⟩
  | some e =>
    obtain ⟨text, htext, htold⟩ := e.exists_told lawful mode
    have hshown : s.shown kit mode = ⟨.ok .goOn, written
        ((e.print kit [] mode).value.reports.map Fault.message ++ text.toList), s⟩ := by
      rw [shown, hcurrent]
      exact tell_of_lastLines (lastLines_of_text htext) s
    refine ⟨_, hshown, htold.ne_nil, ?_, ?_, ?_⟩
    · intro line hline
      rw [List.mem_append, List.mem_map, Option.mem_toList] at hline
      obtain ⟨fault, -, rfl⟩ | rfl := hline
      · exact fault.printable_message
      · exact (Expr.visible_of_print lawful htext).printable
    · rintro ⟨⟩
    · rintro _ ⟨⟩
      exact htold

theorem output_shown_ne_empty (s : Session) (mode : PrintMode) :
    (s.shown kit mode).output ≠ "" := by
  obtain ⟨texts, hshown, hne, -⟩ := exists_shown lawful s mode
  rw [hshown]
  exact fun h => hne (written_eq_empty_iff.1 h)

theorem output_replyTo_eq_empty_iff {s : Session} {ws : List String} :
    (s.replyTo kit ws).output = "" ↔ ws = [] ∨ ws = ["end"] ∨
      ∃ tokens e, ws = "=" :: tokens ∧ (Expr.ofTokens tokens).value = .ok e := by
  simp only [Expr.ofTokens_eq_ok_iff]
  unfold replyTo
  split
  case h_3 => simp [Expr.parse?_nil]
  case h_4 tokens _ => cases hparse : Expr.parse? tokens <;> simp [hparse]
  all_goals simp_all [output_shown_ne_empty lawful]

end Lawful

/-- Whatever the session is, and with a sink that takes everything: a print is not aborted but goes
on, changes nothing, and writes lines that tell what the expression comes to or that there is none.
And no line at all is met with silence but a blank one, the end and a definition. -/
theorem print_is_never_silent (lawful : kit.Lawful) (s : Session) (line : String)
    (flushFails : Bool) :
    (∀ mode : PrintMode, Text.words line = [mode.letter] → ∃ texts : List String,
      ((s.executeOn kit line).run ⟨none, flushFails⟩).value =
        ⟨bytesOf (written texts), .ok ((.goOn, s), ⟨none, flushFails⟩)⟩ ∧
      (∀ text ∈ texts, Printable text) ∧
      (s.current = none → texts = ["Expression Missing"]) ∧
      (∀ e, s.current = some e → e.Told kit mode texts)) ∧
    (∀ mode failure, (Expr.printCurrent kit s.current mode []).value.text = .error failure →
      failure.fault? ≠ none) ∧
    (∃ output result, ((s.executeOn kit line).run ⟨none, flushFails⟩).value =
        ⟨output, .ok (result, ⟨none, flushFails⟩)⟩ ∧
      (output = [] ↔ (∀ c ∈ line.toList, Text.isBlank c = true) ∨ Text.words line = ["end"] ∨
        IsDefinition line)) := by
  obtain ⟨control, hcontrol, hrun⟩ := run_executeOn lawful s line flushFails
  rw [hrun]
  refine ⟨?_, ?_, ?_⟩
  · intro mode hmode
    obtain ⟨texts, hshown, -, hprintable, hmissing, htold⟩ := exists_shown lawful s mode
    rw [hmode, replyTo_letter, hshown] at hcontrol ⊢
    obtain rfl := Except.ok.inj hcontrol
    exact ⟨texts, rfl, hprintable, hmissing, htold⟩
  · intro mode failure htext hforeign
    obtain ⟨lines, hlines⟩ := exists_lastLines lawful s.current mode []
    simp [lastLines, htext, hforeign] at hlines
  · refine ⟨_, _, rfl, ?_⟩
    have hblank : Text.words line = [] ↔ ∀ c ∈ line.toList, Text.isBlank c = true := by
      rw [Text.words_eq, List.map_eq_nil_iff, Text.wordsOf_eq_nil_iff]
    rw [bytesOf_eq_nil_iff, output_replyTo_eq_empty_iff lawful, hblank, IsDefinition]

/-- A builder that keeps bytes has all that is needed. Both sides of the sum fail, and that is all
that is told of it. -/
theorem print_is_never_silent_of_two_failures :
    let s := after Assembly.inBytes ["= + / 1 0 * 65536 65536"]
    Assembly.inBytes.Lawful ∧ (s.shown Assembly.inBytes .integer).output =
        "Divide Error\nOverflow Error\n" ∧
      ∃ texts, ((s.executeOn Assembly.inBytes " i").run ⟨none, false⟩).value =
          ⟨bytesOf (written texts), .ok ((.goOn, s), ⟨none, false⟩)⟩ ∧
        ∀ text ∈ texts, Printable text := by
  intro s
  have hwords : Text.words " i" = [PrintMode.integer.letter] := by decide
  obtain ⟨texts, hrun, hprintable, -⟩ :=
    (print_is_never_silent Assembly.lawful_inBytes s " i" false).1 .integer hwords
  exact ⟨Assembly.lawful_inBytes, by decide +kernel, texts, hrun, hprintable⟩

end Session
end PrefixCalc
