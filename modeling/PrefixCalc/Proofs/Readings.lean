import PrefixCalc.Proofs.Reduction
import PrefixCalc.Proofs.Trimming

/-! One reading behind four entrances: a list of tokens, a text, a reducer that is fed every token
whatever it answers, and the line of a session that defines an expression. -/
namespace PrefixCalc
namespace Reducer

@[simp] lemma clear_eq (r : Reducer) : r.clear = empty := rfl

lemma root?_of_failed {r : Reducer} (h : r.failed = true) : r.root? = none := by
  obtain ⟨stack, failed⟩ := r
  obtain rfl : failed = true := h
  simp [root?]

/-- Feeding goes on after a token that did not fit, but nothing changes any more. -/
theorem value_feed (r : Reducer) (tokens : List String) :
    (r.feed tokens).value = (r.acceptAll tokens).value.2 := by
  induction tokens generalizing r with
  | nil => rfl
  | cons token tokens ih =>
    cases hanswer : (r.process token).value.1 with
    | true => simpa [feed, acceptAll, hanswer] using ih _
    | false =>
      have hrefused := stack_process_of_refused hanswer
      have hrest : (feed ⟨r.stack, true⟩ tokens).value = ⟨r.stack, true⟩ := by
        rw [feed_of_failed rfl, Logged.value_pure]
      simpa [feed, acceptAll, hanswer, hrefused] using hrest

lemma failed_acceptAll {r : Reducer} {tokens : List String}
    (h : (r.acceptAll tokens).value.1 = false) : (r.acceptAll tokens).value.2.failed = true := by
  induction tokens generalizing r with
  | nil => simp [acceptAll] at h
  | cons token tokens ih =>
    cases hanswer : (r.process token).value.1 with
    | true =>
      simp only [acceptAll, Logged.value_bind, hanswer, if_true] at h ⊢
      exact ih h
    | false => simp [acceptAll, hanswer, stack_process_of_refused hanswer]

/-- A root is left only if every token was accepted, and then it is what the tokens spell. -/
theorem root?_acceptAll (tokens : List String) :
    (empty.acceptAll tokens.reverse).value.2.root? = Expr.parse? tokens := by
  rw [Expr.parse?, Expr.ofTokens]
  cases hanswer : (empty.acceptAll tokens.reverse).value.1 with
  | false => simp [hanswer, root?_of_failed (failed_acceptAll hanswer), Except.toOption]
  | true =>
    cases hroot : (empty.acceptAll tokens.reverse).value.2.root? <;>
      simp [hanswer, takeRoot_eq, hroot, Except.toOption]

lemma accepted_of_parse? {tokens : List String} {e : Expr} (h : Expr.parse? tokens = some e) :
    (empty.acceptAll tokens.reverse).value.1 = true := by
  by_contra hanswer
  have hroot := root?_of_failed (failed_acceptAll (Bool.not_eq_true _ ▸ hanswer))
  rw [root?_acceptAll, h] at hroot
  exact Option.some_ne_none e hroot

theorem takeRoot_feed_clear (r : Reducer) (tokens : List String) :
    (r.clear.feed tokens.reverse).value.takeRoot.1 = Expr.parse? tokens := by
  rw [takeRoot_eq, clear_eq, value_feed, root?_acceptAll]

end Reducer

namespace Session

theorem value_define (s : Session) (text : String) :
    (s.define text).value =
      match Expr.parse? (Text.words text) with
      | some e => ⟨.ok .goOn, "", ⟨some e, Reducer.empty⟩⟩
      | none => ⟨.ok .goOn, "Format Error\n", ⟨s.current, Reducer.empty⟩⟩ := by
  simp only [define, Logged.value_bind, Reducer.clear_eq, Reducer.takeRoot_eq,
    Reducer.root?_acceptAll]
  cases hparse : Expr.parse? (Text.words text) with
  | none => rfl
  | some e =>
    rw [Reducer.accepted_of_parse? hparse]
    rfl

/-- Only the words of a line that begins with `=` matter to the reply. -/
theorem value_execute_of_words_eq_cons {β : Type} (kit : Assembly.Kit β) (s : Session)
    {line : String} {tokens : List String} (h : Text.words line = "=" :: tokens) :
    (s.execute kit line).value =
      match Expr.parse? tokens with
      | some e => ⟨.ok .goOn, "", ⟨some e, Reducer.empty⟩⟩
      | none => ⟨.ok .goOn, "Format Error\n",
          ⟨s.current, if tokens = [] then s.reducer else Reducer.empty⟩⟩ := by
  obtain ⟨rfl, hline⟩ | ⟨hne, text, hline, rfl⟩ := Command.ofLine_of_words_eq_cons h
  · rw [execute, hline, show Expr.parse? [] = none from by decide]
    rfl
  · rw [execute, hline, if_neg hne]
    exact value_define s text

end Session

namespace Expr

/-- A text, its words, a reducer fed with them to the end and a session that is told to define the
text all agree on what they spell. A session that took the expression writes nothing; one that kept
its own says so. -/
theorem readings_agree {β : Type} (kit : Assembly.Kit β) (text : String) (r : Reducer)
    (s : Session) :
    let tokens := Text.words text
    let fed := (r.clear.feed tokens.reverse).value
    let reply := (s.execute kit ("= " ++ text)).value
    (∀ e, ((ofTokens tokens).value = .ok e ↔ (ofText text).value = .ok e) ∧
      ((ofTokens tokens).value = .ok e ↔ fed.takeRoot.1 = some e) ∧
      ((ofTokens tokens).value = .ok e ↔ reply = ⟨.ok .goOn, "", ⟨some e, Reducer.empty⟩⟩)) ∧
    ((∀ e, (ofTokens tokens).value ≠ .ok e) →
      (ofText text).value = .error ⟨.fault .format, [s!"could not build a tree from '{text}'"]⟩ ∧
      fed.takeRoot.1 = none ∧ reply.control = .ok .goOn ∧ reply.output = "Format Error\n" ∧
      reply.session.current = s.current) := by
  intro tokens fed reply
  have hfed : fed.takeRoot.1 = parse? tokens := Reducer.takeRoot_feed_clear r tokens
  have hsign : ∀ c ∈ ['='], Text.isBlank c = false :=
    List.forall_mem_singleton.2 (Text.isBlank_eq_false_of_graph (by decide) (by decide))
  have hline : Text.words ("= " ++ text) = "=" :: tokens :=
    Text.words_append_blank hsign (List.cons_ne_nil _ _) (b := ' ') rfl text
  have hreply : reply = _ := Session.value_execute_of_words_eq_cons kit s hline
  refine ⟨fun e => ⟨ofText_eq_ok_iff_ofTokens.symm, ?_, ?_⟩, fun hnone => ?_⟩
  · rw [hfed, ofTokens_eq_ok_iff]
  · rw [ofTokens_eq_ok_iff, hreply]
    cases parse? tokens <;> simp
  · have hparse : parse? tokens = none :=
      Option.eq_none_iff_forall_ne_some.2 fun e he => hnone e (ofTokens_eq_ok_iff.2 he)
    have htext : (ofText text).value =
        .error ⟨.fault .format, [s!"could not build a tree from '{text}'"]⟩ := by
      cases htokens : (ofTokens tokens).value with
      | ok e => exact absurd htokens (hnone e)
      | error fault =>
        rw [value_ofText, htokens, fault_of_ofTokens_error htokens]
        rfl
    rw [hparse] at hfed hreply
    rw [hreply]
    exact ⟨htext, hfed, rfl, rfl, rfl⟩

end Expr
end PrefixCalc
