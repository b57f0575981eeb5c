import Mathlib.Tactic.Lemma
import PrefixCalc.Expr.Reading

/-! Feeding a whole list of tokens, as a partial function on stacks. A list is accepted exactly
when every token fits the stack that the tokens before it have left. -/
namespace PrefixCalc
namespace Reducer

/-- The stack after tokens in the order in which they are fed, if all of them fit. -/
def reduceAll? : List String → List Expr → Option (List Expr)
  | [], stack => some stack
  | token :: tokens, stack => (reduce? token stack).bind (reduceAll? tokens)

lemma reduce?_operand {token : String} {v : Int32}
    (h : Token.classify token = some (.operand v)) (stack : List Expr) :
    reduce? token stack = some (.operand v :: stack) := by simp [reduce?, h, push?]

@[simp] lemma reduce?_negate (x : Expr) (stack : List Expr) :
    reduce? Operator.negate.token (x :: stack) = some (.negate x :: stack) := by
  simp [reduce?, push?]

@[simp] lemma reduce?_binary (op : BinaryOp) (l r : Expr) (stack : List Expr) :
    reduce? op.token (l :: r :: stack) = some (.binary op l r :: stack) := by
  simp [reduce?, push?]

/-- All that an accepted token can do to a stack. -/
lemma reduce?_cases {token : String} {stack stack' : List Expr}
    (h : reduce? token stack = some stack') :
    (∃ v, Token.classify token = some (.operand v) ∧ stack' = .operand v :: stack) ∨
    (∃ x rest, token = Operator.negate.token ∧ stack = x :: rest ∧ stack' = .negate x :: rest) ∨
    (∃ op l r rest, token = BinaryOp.token op ∧ stack = l :: r :: rest ∧
      stack' = .binary op l r :: rest) := by
  obtain ⟨t, ht, hp⟩ := Option.bind_eq_some_iff.1 h
  match t, stack, hp with
  | .operand v, stack, hp =>
    exact .inl ⟨v, ht, (Option.some.inj hp).symm⟩
  | .operator .negate, x :: rest, hp =>
    have htoken := Token.classify_eq_operator_iff.1 ht
    exact .inr (.inl ⟨x, rest, htoken, rfl, (Option.some.inj hp).symm⟩)
  | .operator (.binary op), l :: r :: rest, hp =>
    have htoken := Token.classify_eq_operator_iff.1 ht
    exact .inr (.inr ⟨op, l, r, rest, htoken, rfl, (Option.some.inj hp).symm⟩)

lemma reduceAll?_append (a b : List String) (stack : List Expr) :
    reduceAll? (a ++ b) stack = (reduceAll? a stack).bind (reduceAll? b) := by
  induction a generalizing stack with
  | nil => rfl
  | cons token a ih =>
    cases h : reduce? token stack with
    | none => simp [reduceAll?, h]
    | some stack' => simp [reduceAll?, h, ih]

lemma reduceAll?_singleton (token : String) (stack : List Expr) :
    reduceAll? [token] stack = reduce? token stack := by
  cases h : reduce? token stack <;> simp [reduceAll?, h]

/-- Read from the left, what stands first is the last to reach the stack. -/
lemma reduceAll?_reverse_append (a b : List String) (stack : List Expr) :
    reduceAll? (a ++ b).reverse stack =
      (reduceAll? b.reverse stack).bind (reduceAll? a.reverse) := by
  rw [List.reverse_append, reduceAll?_append]

lemma reduceAll?_reverse_cons (token : String) (tokens : List String) (stack : List Expr) :
    reduceAll? (token :: tokens).reverse stack =
      (reduceAll? tokens.reverse stack).bind (reduce? token) := by
  rw [List.reverse_cons, reduceAll?_append]
  congr 1
  funext stack'
  exact reduceAll?_singleton token stack'

lemma value_acceptAll {tokens : List String} {stack stack' : List Expr}
    (h : reduceAll? tokens stack = some stack') :
    (acceptAll ⟨stack, false⟩ tokens).value = (true, ⟨stack', false⟩) := by
  induction tokens generalizing stack with
  | nil =>
    obtain rfl := Option.some.inj h
    rfl
  | cons token tokens ih =>
    obtain ⟨next, hn, ht⟩ := Option.bind_eq_some_iff.1 h
    simp [acceptAll, process_of_reduce hn, ih ht]

lemma accepted_acceptAll_of_none {tokens : List String} {stack : List Expr}
    (h : reduceAll? tokens stack = none) : (acceptAll ⟨stack, false⟩ tokens).value.1 = false := by
  induction tokens generalizing stack with
  | nil => simp [reduceAll?] at h
  | cons token tokens ih =>
    cases hn : reduce? token stack with
    | none => simp [acceptAll, process_of_reduce_none hn]
    | some next =>
      have ht : reduceAll? tokens next = none := by simpa [reduceAll?, hn] using h
      simpa [acceptAll, process_of_reduce hn] using ih ht

end Reducer

namespace Expr
open Reducer

/-- A list of tokens is read when, fed from its end, it leaves one expression. -/
theorem value_ofTokens (tokens : List String) :
    (ofTokens tokens).value =
      match reduceAll? tokens.reverse [] with
      | some [e] => .ok e
      | _ => .error .format := by
  cases h : reduceAll? tokens.reverse [] with
  | none =>
    have ha : (Reducer.empty.acceptAll tokens.reverse).value.1 = false :=
      accepted_acceptAll_of_none h
    simp [ofTokens, ha]
  | some stack =>
    have ha : (Reducer.empty.acceptAll tokens.reverse).value = (true, ⟨stack, false⟩) :=
      value_acceptAll h
    match stack with
    | [] => simp [ofTokens, ha, takeRoot_eq, root?]
    | [e] => simp [ofTokens, ha, takeRoot_eq, root?]
    | _ :: _ :: _ => simp [ofTokens, ha, takeRoot_eq, root?]

lemma ofTokens_eq_ok_iff_reduceAll {tokens : List String} {e : Expr} :
    (ofTokens tokens).value = .ok e ↔ reduceAll? tokens.reverse [] = some [e] := by
  rw [value_ofTokens]
  constructor
  · intro h
    split at h
    · rename_i e' hs
      rw [hs, Except.ok.inj h]
    · simp at h
  · intro h
    rw [h]

/-- Reading knows no other fault. -/
lemma fault_of_ofTokens_error {tokens : List String} {fault : Fault}
    (h : (ofTokens tokens).value = .error fault) : fault = .format := by
  rw [value_ofTokens] at h
  split at h
  · simp at h
  · exact (Except.error.inj h).symm

/-- A text is read through its words, and a fault in them is told with the text. -/
theorem value_ofText (text : String) :
    (ofText text).value = (ofTokens (Text.words text)).value.mapError
      fun fault => ⟨.fault fault, [s!"could not build a tree from '{text}'"]⟩ := by
  cases h : (ofTokens (Text.words text)).value with
  | ok e =>
    simp only [ofText, Logged.value_bind, h]
    rfl
  | error fault =>
    simp only [ofText, Logged.value_bind, h]
    rfl

lemma ofText_eq_ok_iff_ofTokens {text : String} {e : Expr} :
    (ofText text).value = .ok e ↔ (ofTokens (Text.words text)).value = .ok e := by
  rw [value_ofText]
  cases (ofTokens (Text.words text)).value with
  | ok e' =>
    change Except.ok e' = _ ↔ _
    simp
  | error fault =>
    change Except.error _ = _ ↔ _
    simp

end Expr
end PrefixCalc
