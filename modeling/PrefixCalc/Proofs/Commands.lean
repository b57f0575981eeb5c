import PrefixCalc.Proofs.Readings
import PrefixCalc.Session.Definitions

/-! The words of a line decide the reply to it, although a line is trimmed, compared and split in
turn and its words are never taken as a whole. -/
namespace PrefixCalc
namespace Text

lemma not_blank_of_mem_flush {first : List Char} {rest : List (List Char)}
    (hfirst : ∀ c ∈ first, isBlank c = false)
    (hrest : ∀ w ∈ rest, w ≠ [] ∧ ∀ c ∈ w, isBlank c = false) :
    ∀ w ∈ flush first rest, w ≠ [] ∧ ∀ c ∈ w, isBlank c = false := by
  cases first with
  | nil => exact hrest
  | cons c cs => exact List.forall_mem_cons.2 ⟨⟨List.cons_ne_nil c cs, hfirst⟩, hrest⟩

lemma not_blank_of_mem_scan (cs : List Char) : (∀ c ∈ (scan cs).1, isBlank c = false) ∧
    ∀ w ∈ (scan cs).2, w ≠ [] ∧ ∀ c ∈ w, isBlank c = false := by
  induction cs with
  | nil => simp
  | cons c cs ih =>
    obtain ⟨hfirst, hrest⟩ := ih
    cases hc : isBlank c with
    | false =>
      rw [scan_cons_of_not_blank hc]
      exact ⟨List.forall_mem_cons.2 ⟨hc, hfirst⟩, hrest⟩
    | true =>
      rw [scan_cons_of_blank hc]
      exact ⟨by simp, not_blank_of_mem_flush hfirst hrest⟩

/-- A word is not empty, and there is no blank in it. -/
theorem not_blank_of_mem_words {text w : String} (h : w ∈ words text) :
    w ≠ "" ∧ ∀ c ∈ w.toList, isBlank c = false := by
  rw [words_eq] at h
  obtain ⟨cs, hcs, rfl⟩ := List.mem_map.1 h
  obtain ⟨hfirst, hrest⟩ := not_blank_of_mem_scan text.toList
  have hword := not_blank_of_mem_flush hfirst hrest cs hcs
  simpa using hword

lemma trim_of_words_eq_nil {text : String} (h : words text = []) : trim text = "" := by
  rw [words_eq, List.map_eq_nil_iff, ← wordsOf_trimmed, wordsOf_eq_nil_iff] at h
  cases htrim : trimmed text.toList with
  | nil => rw [trim, htrim, String.ofList_nil]
  | cons c cs =>
    have hblank := h c (by simp [htrim])
    rw [not_blank_of_trimmed_eq_cons htrim] at hblank
    exact Bool.noConfusion hblank

/-- Between the blanks around it a line is its first word alone, or that word, a blank and the
others. -/
lemma trim_of_words_eq_cons {text w : String} {ws : List String} (h : words text = w :: ws) :
    (ws = [] ∧ trim text = w) ∨
      (ws ≠ [] ∧ ∃ b rest, isBlank b = true ∧ (trim text).toList = w.toList ++ b :: rest ∧
        words (String.ofList rest) = ws) := by
  rw [words_eq, ← wordsOf_trimmed] at h
  obtain ⟨cs, css, hwords, rfl, rfl⟩ := List.map_eq_cons_iff.1 h
  obtain ⟨rfl, htrim⟩ | ⟨hne, b, rest, hb, htrim, hrest⟩ := trimmed_cases hwords
  · exact .inl ⟨rfl, by rw [trim, htrim]⟩
  · refine .inr ⟨by simpa using hne, b, rest, hb, by simpa [trim] using htrim, ?_⟩
    rw [words_eq, String.toList_ofList, hrest]

/-- A line has one word if there are only blanks around it. -/
theorem words_eq_singleton_iff {text w : String} :
    words text = [w] ↔ (w ≠ "" ∧ ∀ c ∈ w.toList, isBlank c = false) ∧
      ∃ pre post : String, (∀ c ∈ pre.toList, isBlank c = true) ∧
        (∀ c ∈ post.toList, isBlank c = true) ∧ text = pre ++ w ++ post := by
  constructor
  · intro h
    refine ⟨not_blank_of_mem_words (h ▸ List.mem_cons_self), ?_⟩
    obtain ⟨-, htrim⟩ | ⟨hne, -⟩ := trim_of_words_eq_cons h
    · obtain ⟨pre, post, htext, hpre, hpost⟩ := exists_trimmed text.toList
      refine ⟨String.ofList pre, String.ofList post, by simpa using hpre, by simpa using hpost, ?_⟩
      apply String.toList_injective
      rw [← htrim, trim, htext]
      simp [← htext]
    · exact absurd rfl hne
  · rintro ⟨⟨hne, hw⟩, pre, post, hpre, hpost, rfl⟩
    rw [words_eq, String.toList_append, String.toList_append, wordsOf_append_of_blank hpost,
      wordsOf_blank_append hpre, wordsOf_of_not_blank hw (by simpa using hne)]
    simp

end Text

namespace Command

/-- What a word asks for on its own. -/
def ofWord : String → Command
  | "end" => .finish
  | "i" => .print .integer
  | "d" => .print .double
  | "p" => .print .full
  | "P" => .print .minimal
  | _ => .unknown

lemma ofWord_of_not_letter {text : String} (hend : text ≠ "end")
    (h : ∀ mode : PrintMode, text ≠ mode.letter) : ofWord text = .unknown := by
  unfold ofWord
  split
  · exact absurd rfl hend
  · exact absurd rfl (h .integer)
  · exact absurd rfl (h .double)
  · exact absurd rfl (h .full)
  · exact absurd rfl (h .minimal)
  · rfl

lemma ofWord_eq {text : String} (hend : text ≠ "end") :
    ofWord text = match PrintMode.ofLetter text with
      | .ok mode => .print mode
      | .error _ => .unknown := by
  cases h : PrintMode.ofLetter text with
  | ok mode =>
    obtain rfl := PrintMode.ofLetter_eq_ok_iff.1 h
    cases mode <;> rfl
  | error fault =>
    apply ofWord_of_not_letter hend
    rintro mode rfl
    rw [PrintMode.ofLetter_letter] at h
    cases h

lemma ofWord_of_blank {text : String} {b : Char} (hb : Text.isBlank b = true)
    (hmem : b ∈ text.toList) : ofWord text = .unknown := by
  have hblank : text.toList.any Text.isBlank = true := List.any_eq_true.2 ⟨b, hmem, hb⟩
  apply ofWord_of_not_letter
  · rintro rfl
    exact absurd hblank (by decide)
  · rintro mode rfl
    cases mode <;> exact absurd hblank (by decide)

lemma ofWord_of_sign {text : String} {cs : List Char} (h : text.toList = '=' :: cs) :
    ofWord text = .unknown := by
  apply ofWord_of_not_letter
  · rintro rfl
    cases h
  · rintro mode rfl
    cases mode <;> cases h

/-- A line whose first word is not an equals sign alone defines nothing. -/
lemma ofTrimmed_eq_ofWord {text w : String} {tail : List Char}
    (hw : w ≠ "" ∧ ∀ c ∈ w.toList, Text.isBlank c = false) (hsign : w ≠ "=")
    (htext : text.toList = w.toList ++ tail) : ofTrimmed text = ofWord text := by
  obtain ⟨c, cs, hcs⟩ : ∃ c cs, w.toList = c :: cs :=
    List.exists_cons_of_ne_nil (by simpa using hw.1)
  rw [hcs, List.cons_append] at htext
  have hempty : text ≠ "" := by
    rintro rfl
    cases htext
  rw [ofTrimmed, if_neg hempty]
  by_cases hend : text = "end"
  · rw [if_pos hend, hend]
    rfl
  rw [if_neg hend, htext]
  by_cases hc : c = '='
  · subst hc
    rw [ofWord_of_sign htext]
    cases cs with
    | nil => exact absurd (String.toList_injective hcs) hsign
    | cons d ds =>
      have hd : Text.isBlank d = false := hw.2 d (by simp [hcs])
      simp [hd]
  · rw [ofWord_eq hend]
    split
    · rename_i hrest
      exact absurd (List.cons.inj hrest).1 hc
    · rfl

lemma ofLine_of_words_eq_nil {line : String} (h : Text.words line = []) : ofLine line = .blank := by
  rw [ofLine, Text.trim_of_words_eq_nil h]
  rfl

/-- A word that is not an equals sign says all when it is alone, and nothing when it is not. -/
theorem ofLine_of_words {line w : String} {ws : List String} (h : Text.words line = w :: ws)
    (hsign : w ≠ "=") : ofLine line = if ws = [] then ofWord w else .unknown := by
  have hw := Text.not_blank_of_mem_words (h ▸ List.mem_cons_self)
  obtain ⟨rfl, htrim⟩ | ⟨hws, b, rest, hb, htrim, -⟩ := Text.trim_of_words_eq_cons h
  · rw [if_pos rfl, ofLine, htrim]
    exact ofTrimmed_eq_ofWord hw hsign (List.append_nil _).symm
  · rw [if_neg hws, ofLine, ofTrimmed_eq_ofWord hw hsign htrim]
    exact ofWord_of_blank hb (by simp [htrim])

lemma ofWord_ne_define (w text : String) : ofWord w ≠ .define text := by
  unfold ofWord
  split <;> exact Command.noConfusion

end Command

lemma Expr.parse?_nil : parse? [] = none := by decide

namespace Session

@[simp] lemma session_tell (s : Session) (printout : Printout) :
    (s.tell printout).session = s := by
  unfold tell
  cases lastLines printout <;> rfl

lemma tell_of_lastLines {printout : Printout} {lines : List String}
    (h : lastLines printout = .ok lines) (s : Session) :
    s.tell printout =
      ⟨.ok .goOn, written (printout.reports.map Fault.message ++ lines), s⟩ := by
  simp only [tell, h]

/-- Whose session it is does not matter to what is told of a print. -/
lemma tell_congr (s s' : Session) (printout : Printout) :
    (s.tell printout).control = (s'.tell printout).control ∧
      (s.tell printout).output = (s'.tell printout).output := by
  unfold tell
  cases lastLines printout <;> exact ⟨rfl, rfl⟩

lemma lastLines_of_text {printout : Printout} {text : Option String}
    (h : printout.text = .ok text) : lastLines printout = .ok text.toList := by
  cases text <;> simp [lastLines, h]

variable {β : Type}

/-- No print is aborted: without an expression it comes to a fault, and with one it comes to a text
or to nothing. -/
theorem exists_lastLines {kit : Assembly.Kit β} (lawful : kit.Lawful) (current : Option Expr)
    (mode : PrintMode) (reports : List Fault) :
    ∃ lines, lastLines (Expr.printCurrent kit current mode reports).value = .ok lines := by
  cases current with
  | none => exact ⟨_, rfl⟩
  | some e =>
    obtain ⟨text, htext⟩ := e.exists_text_print lawful reports mode
    exact ⟨_, lastLines_of_text htext⟩

variable (kit : Assembly.Kit β)

lemma value_perform_ofWord (s : Session) {w : String} (h : w ≠ "=") :
    (s.perform kit (Command.ofWord w)).value = s.replyTo kit [w] := by
  unfold Command.ofWord
  split
  · rfl
  · rfl
  · rfl
  · rfl
  · rfl
  · have hreply : s.replyTo kit [w] = ⟨.ok .goOn, "Format Error\n", s⟩ := by simp_all [replyTo]
    rw [hreply]
    rfl

lemma replyTo_of_words (s : Session) {w : String} {ws : List String} (hw : w ≠ "=")
    (hws : ws ≠ []) : s.replyTo kit (w :: ws) = ⟨.ok .goOn, "Format Error\n", s⟩ := by
  unfold replyTo
  split <;> simp_all

theorem value_execute (s : Session) (line : String) :
    (s.execute kit line).value = s.replyTo kit (Text.words line) := by
  cases hwords : Text.words line with
  | nil =>
    rw [execute, Command.ofLine_of_words_eq_nil hwords]
    rfl
  | cons w ws =>
    by_cases hsign : w = "="
    · subst hsign
      rw [value_execute_of_words_eq_cons kit s hwords]
      cases ws with
      | nil =>
        rw [Expr.parse?_nil]
        rfl
      | cons token tokens => rfl
    · rw [execute, Command.ofLine_of_words hwords hsign]
      split
      · rename_i hws
        rw [hws, value_perform_ofWord kit s hsign]
      · rename_i hws
        rw [replyTo_of_words kit s hsign hws]
        rfl

/-- No line is aborted, and only the word `end` ends a session. -/
theorem control_execute {kit : Assembly.Kit β} (lawful : kit.Lawful) (s : Session)
    (line : String) : (s.execute kit line).value.control =
      .ok (if Text.words line = ["end"] then .finish else .goOn) := by
  have hshown : ∀ mode, (s.shown kit mode).control = .ok .goOn := by
    intro mode
    obtain ⟨lines, hlines⟩ := exists_lastLines lawful s.current mode []
    rw [shown, tell_of_lastLines hlines]
  rw [value_execute]
  generalize Text.words line = ws
  unfold replyTo
  split
  case h_4 tokens _ => cases Expr.parse? tokens <;> simp
  all_goals simp_all

/-- What is seen of a reply depends on the expression of the session, not on its reducer. -/
theorem replyTo_congr {s s' : Session} (h : s.current = s'.current) (ws : List String) :
    (s.replyTo kit ws).control = (s'.replyTo kit ws).control ∧
      (s.replyTo kit ws).output = (s'.replyTo kit ws).output ∧
      (s.replyTo kit ws).session.current = (s'.replyTo kit ws).session.current := by
  unfold replyTo
  split <;> simp [shown, tell_congr s s', h]

theorem current_execute (s : Session) (line : String) :
    (s.execute kit line).value.session.current = (defined? line).or s.current := by
  rw [value_execute, defined?]
  generalize Text.words line = ws
  unfold replyTo
  split
  case h_3 => simp [Expr.parse?_nil]
  case h_4 tokens _ => cases hparse : Expr.parse? tokens <;> simp [hparse]
  all_goals simp_all [shown]

end Session
end PrefixCalc
