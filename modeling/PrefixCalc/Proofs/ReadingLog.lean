import PrefixCalc.Proofs.Counting

/-! What the log of a reading tells. Every token that was taken has one record, and the depth in it
is the surplus of the tokens from there to the end of the list. A token that was refused has the
last record, with the depth that the tokens behind it had left. -/
namespace PrefixCalc

namespace Reducer

/-- Whether all of these tokens are taken when they are fed from the last to the first, and the
reducer after the last that was fed. -/
def fed (tokens : List String) : Bool × Reducer := (empty.acceptAll tokens.reverse).value

/-- The log of tokens that were all taken: in front of the others a token is fed after them, and its
record comes last. -/
inductive Accepted : List String → List Event → Prop
  | nothing : Accepted [] []
  | token {token : String} {rest : List String} {log : List Event} (behind : Accepted rest log)
      (counted : ((fed (token :: rest)).2.depth : Int) =
        Token.operands (token :: rest) - Token.binaries (token :: rest)) :
      Accepted (token :: rest) (log ++ [.accepted token (fed (token :: rest)).2.depth])

/-- This token is refused, and none was refused of those behind it. -/
def RefusedFirst (token : String) (rest : List String) : Prop :=
  (fed rest).1 = true ∧ ((fed rest).2.process token).value.1 = false

lemma acceptAll_append (a b : List String) (r : Reducer) :
    r.acceptAll (a ++ b) = do
      let s ← r.acceptAll a
      if s.1 then s.2.acceptAll b else return (false, s.2) := by
  induction a generalizing r with
  | nil => simp [acceptAll]
  | cons token a ih =>
    rw [List.cons_append, acceptAll, acceptAll, bind_assoc]
    congr 1
    funext s
    cases s.1 with
    | false => simp
    | true => simpa using ih s.2

/-- Behind a refusal nothing is fed any more. -/
lemma acceptAll_append_of_refused {a : List String} {r : Reducer}
    (h : (r.acceptAll a).value.1 = false) (b : List String) :
    r.acceptAll (a ++ b) = r.acceptAll a := by
  rw [acceptAll_append]
  apply Logged.ext
  · simp only [Logged.value_bind, h]
    exact Prod.ext h.symm rfl
  · simp [h]

lemma acceptAll_reverse_cons {tokens : List String} {stack : List Expr}
    (h : reduceAll? tokens.reverse [] = some stack) (token : String) :
    (empty.acceptAll (token :: tokens).reverse).value.1 = (process ⟨stack, false⟩ token).value.1 ∧
    (empty.acceptAll (token :: tokens).reverse).events =
      (empty.acceptAll tokens.reverse).events ++ (process ⟨stack, false⟩ token).events := by
  have hfed : (empty.acceptAll tokens.reverse).value = (true, ⟨stack, false⟩) := value_acceptAll h
  rw [List.reverse_cons, acceptAll_append]
  cases hanswer : (process ⟨stack, false⟩ token).value.1 <;> simp [acceptAll, hfed, hanswer]

lemma fed_of_reduceAll {tokens : List String} {stack : List Expr}
    (h : reduceAll? tokens.reverse [] = some stack) : fed tokens = (true, ⟨stack, false⟩) :=
  value_acceptAll h

lemma taken_iff {tokens : List String} :
    (fed tokens).1 = true ↔ ∃ stack, reduceAll? tokens.reverse [] = some stack := by
  cases h : reduceAll? tokens.reverse [] with
  | none =>
    have hrefused : (fed tokens).1 = false := accepted_acceptAll_of_none h
    simp [hrefused]
  | some stack => simp [fed_of_reduceAll h]

lemma depth_fed {tokens : List String} (h : (fed tokens).1 = true) :
    ((fed tokens).2.depth : Int) = Token.operands tokens - Token.binaries tokens := by
  obtain ⟨stack, hstack⟩ := taken_iff.1 h
  rw [fed_of_reduceAll hstack]
  exact (surplus_of_reduceAll hstack).symm

lemma refusedFirst_iff {token : String} {rest : List String} :
    RefusedFirst token rest ↔
      ∃ stack, reduceAll? rest.reverse [] = some stack ∧ reduce? token stack = none := by
  constructor
  · rintro ⟨htaken, hrefused⟩
    obtain ⟨stack, hstack⟩ := taken_iff.1 htaken
    refine ⟨stack, hstack, ?_⟩
    rw [fed_of_reduceAll hstack] at hrefused
    cases hr : reduce? token stack with
    | none => rfl
    | some next => simp [process_of_reduce hr] at hrefused
  · rintro ⟨stack, hstack, hr⟩
    refine ⟨taken_iff.2 ⟨stack, hstack⟩, ?_⟩
    rw [fed_of_reduceAll hstack, process_of_reduce_none hr]

theorem accepted_of_taken {tokens : List String} (h : (fed tokens).1 = true) :
    Accepted tokens (empty.acceptAll tokens.reverse).events := by
  induction tokens with
  | nil => exact .nothing
  | cons token tokens ih =>
    obtain ⟨stack, hstack⟩ := taken_iff.1 h
    obtain ⟨below, hbelow, hr⟩ := Option.bind_eq_some_iff.1
      ((reduceAll?_reverse_cons token tokens []).symm.trans hstack)
    have hdepth : stack.length = (fed (token :: tokens)).2.depth := by
      rw [fed_of_reduceAll hstack]
      rfl
    rw [(acceptAll_reverse_cons hbelow token).2, process_of_reduce hr, hdepth]
    exact .token (ih (taken_iff.2 ⟨below, hbelow⟩)) (depth_fed h)

/-- Whatever stands in front of the refused token leaves no trace. -/
theorem events_of_refusedFirst {token : String} {rest : List String} (h : RefusedFirst token rest)
    (before : List String) :
    (fed (before ++ token :: rest)).1 = false ∧
    (empty.acceptAll (before ++ token :: rest).reverse).events =
      (empty.acceptAll rest.reverse).events ++ [.rejected token (fed rest).2.depth] := by
  obtain ⟨stack, hstack, hr⟩ := refusedFirst_iff.1 h
  obtain ⟨hanswer, hevents⟩ := acceptAll_reverse_cons hstack token
  rw [process_of_reduce_none hr] at hanswer hevents
  rw [fed, List.reverse_append, acceptAll_append_of_refused hanswer, fed_of_reduceAll hstack]
  exact ⟨hanswer, hevents⟩

/-- When not all tokens are taken, one is refused first. -/
theorem exists_refusedFirst {tokens : List String} (h : (fed tokens).1 = false) :
    ∃ before token rest, tokens = before ++ token :: rest ∧ RefusedFirst token rest := by
  induction tokens with
  | nil => exact Bool.noConfusion h
  | cons token tokens ih =>
    cases htaken : (fed tokens).1 with
    | false =>
      obtain ⟨before, refused, rest, rfl, hrefused⟩ := ih htaken
      exact ⟨token :: before, refused, rest, rfl, hrefused⟩
    | true =>
      obtain ⟨stack, hstack⟩ := taken_iff.1 htaken
      refine ⟨[], token, tokens, rfl, htaken, ?_⟩
      rw [fed_of_reduceAll hstack, ← (acceptAll_reverse_cons hstack token).1]
      exact h

lemma Accepted.length_eq {tokens : List String} {log : List Event} (h : Accepted tokens log) :
    log.length = tokens.length := by
  induction h with
  | nothing => rfl
  | token _ _ ih => simp [ih]

lemma Accepted.getLast?_eq {token : String} {rest : List String} {log : List Event}
    (h : Accepted (token :: rest) log) :
    log.getLast? = some (.accepted token (fed (token :: rest)).2.depth) := by
  cases h with
  | token => simp

end Reducer

namespace Expr
open Reducer

lemma events_ofTokens (tokens : List String) :
    (ofTokens tokens).events = (Reducer.empty.acceptAll tokens.reverse).events := by
  unfold ofTokens
  rw [Logged.events_bind]
  split
  · split <;> simp
  · simp

lemma exists_ofTokens_ok_iff {tokens : List String} :
    (∃ e, (ofTokens tokens).value = .ok e) ↔ (fed tokens).1 = true ∧ (fed tokens).2.depth = 1 := by
  rw [taken_iff]
  constructor
  · rintro ⟨e, he⟩
    have hstack := ofTokens_eq_ok_iff_reduceAll.1 he
    exact ⟨⟨[e], hstack⟩, by rw [fed_of_reduceAll hstack]; rfl⟩
  · rintro ⟨⟨stack, hstack⟩, hdepth⟩
    rw [fed_of_reduceAll hstack] at hdepth
    obtain ⟨e, rfl⟩ := List.length_eq_one_iff.1 hdepth
    exact ⟨e, ofTokens_eq_ok_iff_reduceAll.2 hstack⟩

/-- Leftover operands show in the depth of the last record, and a refusal is not a taken token. -/
theorem exists_ofTokens_ok_iff_getLast? {tokens : List String} :
    (∃ e, (ofTokens tokens).value = .ok e) ↔ ∃ token rest, tokens = token :: rest ∧
      (ofTokens tokens).events.getLast? = some (.accepted token 1) := by
  rw [exists_ofTokens_ok_iff, events_ofTokens]
  cases htaken : (fed tokens).1 with
  | false =>
    obtain ⟨before, token, rest, rfl, hrefused⟩ := exists_refusedFirst htaken
    rw [(events_of_refusedFirst hrefused before).2]
    simp
  | true =>
    have haccepted := accepted_of_taken htaken
    cases tokens with
    | nil => simp [fed, acceptAll, Reducer.empty, depth]
    | cons token rest =>
      rw [haccepted.getLast?_eq]
      simp [eq_comm]

/-- The log of a reading has a record for every token up to the first that is refused, from the end
of the list, each with the depth after it as a count of tokens, and one for the refusal. From the
last record alone one can tell whether there is an expression. -/
theorem log_follows_reading (tokens : List String) :
    let log := (ofTokens tokens).events
    ((fed tokens).1 = true → Accepted tokens log ∧ log.length = tokens.length) ∧
    ((fed tokens).1 = false ↔
      ∃ before token rest, tokens = before ++ token :: rest ∧ RefusedFirst token rest) ∧
    (∀ before token rest, tokens = before ++ token :: rest → RefusedFirst token rest →
      ∃ records, Accepted rest records ∧ log = records ++ [.rejected token (fed rest).2.depth] ∧
        ((fed rest).2.depth : Int) = Token.operands rest - Token.binaries rest) ∧
    ((∃ e, (ofTokens tokens).value = .ok e) ↔
      ∃ token rest, tokens = token :: rest ∧ log.getLast? = some (.accepted token 1)) ∧
    (∀ token depth, (Event.accepted token depth).level = .trace ∧
      (Event.rejected token depth).level = .debug) := by
  intro log
  have hlog : log = (Reducer.empty.acceptAll tokens.reverse).events := events_ofTokens tokens
  refine ⟨?_, ?_, ?_, exists_ofTokens_ok_iff_getLast?, fun token depth => ⟨rfl, rfl⟩⟩
  · intro htaken
    rw [hlog]
    have haccepted := accepted_of_taken htaken
    exact ⟨haccepted, haccepted.length_eq⟩
  · constructor
    · exact exists_refusedFirst
    · rintro ⟨before, token, rest, rfl, hrefused⟩
      exact (events_of_refusedFirst hrefused before).1
  · rintro before token rest rfl hrefused
    rw [hlog, (events_of_refusedFirst hrefused before).2]
    exact ⟨_, accepted_of_taken hrefused.1, rfl, depth_fed hrefused.1⟩

end Expr
end PrefixCalc
