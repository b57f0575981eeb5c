import Mathlib.Data.List.Induction
import PrefixCalc.Proofs.Derivations
import PrefixCalc.Reducer.History

/-! What every run of a reducer keeps, whatever the order of feeding, failing, emptying and taking.
The one invariant is that the accepted tokens are a forest of the stacked expressions. -/
namespace PrefixCalc

namespace Reducer

/-- The answer to a token is what the flag says afterwards. -/
lemma failed_process (r : Reducer) (token : String) :
    (r.process token).value.2.failed = !(r.process token).value.1 := by
  obtain ⟨stack, failed⟩ := r
  cases failed with
  | true => rfl
  | false =>
    cases hr : reduce? token stack with
    | none => simp [process_of_reduce_none hr]
    | some stack' => simp [process_of_reduce hr]

lemma isSome_root? (r : Reducer) : r.root?.isSome = true ↔ r.failed = false ∧ r.depth = 1 := by
  match r with
  | ⟨[], false⟩ => simp [root?, depth]
  | ⟨[_], false⟩ => simp [root?, depth]
  | ⟨_ :: _ :: _, false⟩ => simp [root?, depth]
  | ⟨_, true⟩ => simp [root?]

namespace Account

/-- Some token was refused after the last time the reducer was emptied. -/
def Refused (actions : List Action) : Prop :=
  ∃ (before : List Action) (token : String) (later : List String),
    actions = before ++ .process token :: later.map .process ∧
      ((after before).reducer.process token).value.1 = false

/-- All that processing a token can do to an account. -/
lemma act_process_cases (a : Account) (token : String) :
    ((a.reducer.process token).value.1 = true ∧
      ∃ stack, reduce? token a.reducer.stack = some stack ∧
        a.act (.process token) = ⟨⟨stack, false⟩, token :: a.accepted⟩) ∨
    ((a.reducer.process token).value.1 = false ∧
      a.act (.process token) = ⟨⟨a.reducer.stack, true⟩, a.accepted⟩) := by
  obtain ⟨⟨stack, failed⟩, accepted⟩ := a
  cases failed with
  | true => exact .inr ⟨rfl, rfl⟩
  | false =>
    cases hr : reduce? token stack with
    | none =>
      refine .inr ⟨by rw [process_of_reduce_none hr], ?_⟩
      simp [act, Reducer.act, process_of_reduce_none hr, recorded]
    | some stack' =>
      refine .inl ⟨by rw [process_of_reduce hr], stack', rfl, ?_⟩
      simp [act, Reducer.act, process_of_reduce hr, recorded]

lemma act_clear (a : Account) : a.act .clear = empty := rfl

lemma act_takeRoot (a : Account) : a.act .takeRoot = empty := by
  simp [act, Reducer.act, takeRoot_eq, recorded, empty]

lemma act_of_failed {a : Account} (h : a.reducer.failed = true) (token : String) :
    a.act (.process token) = a := by
  obtain ⟨⟨stack, failed⟩, accepted⟩ := a
  obtain rfl : failed = true := h
  rfl

/-- A step keeps the forest: a token that fits joins it, any other leaves it alone. -/
theorem forest_act {a : Account} (h : Forest a.accepted a.reducer.stack) (action : Action) :
    Forest (a.act action).accepted (a.act action).reducer.stack := by
  cases action with
  | process token =>
    rcases a.act_process_cases token with ⟨-, stack, hr, ha⟩ | ⟨-, ha⟩
    · rw [ha]
      exact h.reduce hr
    · rw [ha]
      exact h
  | clear =>
    rw [act_clear]
    exact Forest.nil
  | takeRoot =>
    rw [act_takeRoot]
    exact Forest.nil

theorem forest_after (actions : List Action) :
    Forest (after actions).accepted (after actions).reducer.stack := by
  induction actions using List.reverseRecOn with
  | nil => exact Forest.nil
  | append_singleton actions action ih =>
    rw [after_concat]
    exact forest_act ih action

lemma foldl_of_failed {a : Account} (h : a.reducer.failed = true) (later : List String) :
    (later.map Action.process).foldl act a = a := by
  induction later with
  | nil => rfl
  | cons token later ih => rw [List.map_cons, List.foldl_cons, act_of_failed h, ih]

/-- From a refusal on, tokens change nothing. -/
lemma after_refused {actions : List Action} {token : String}
    (h : ((after actions).reducer.process token).value.1 = false) (later : List String) :
    (after (actions ++ .process token :: later.map .process)).reducer =
      ⟨(after actions).reducer.stack, true⟩ := by
  have hstep : ((after actions).act (.process token)).reducer =
      ⟨(after actions).reducer.stack, true⟩ := by
    rcases (after actions).act_process_cases token with ⟨hb, -⟩ | ⟨-, ha⟩
    · rw [h] at hb
      exact Bool.noConfusion hb
    · rw [ha]
  have hfailed : ((after actions).act (.process token)).reducer.failed = true := by rw [hstep]
  rw [after, List.foldl_append, List.foldl_cons]
  change ((later.map Action.process).foldl act ((after actions).act (.process token))).reducer = _
  rw [foldl_of_failed hfailed, hstep]

/-- Only a token can be refused, and only a token leaves an earlier refusal in force. -/
lemma refused_concat_iff {actions : List Action} {action : Action} :
    Refused (actions ++ [action]) ↔ ∃ token, action = .process token ∧
      (((after actions).reducer.process token).value.1 = false ∨ Refused actions) := by
  constructor
  · rintro ⟨before, first, later, he, hb⟩
    rcases List.eq_nil_or_concat later with rfl | ⟨later, last, rfl⟩
    · obtain ⟨rfl, hlast⟩ := List.append_inj' he rfl
      exact ⟨first, (List.cons.inj hlast).1, .inl hb⟩
    · have he' : actions ++ [action] =
          (before ++ .process first :: later.map .process) ++ [.process last] := by simpa using he
      obtain ⟨hactions, hlast⟩ := List.append_inj' he' rfl
      exact ⟨last, (List.cons.inj hlast).1, .inr ⟨before, first, later, hactions, hb⟩⟩
  · rintro ⟨token, rfl, hb | ⟨before, first, later, rfl, hb⟩⟩
    · exact ⟨actions, token, [], rfl, hb⟩
    · exact ⟨before, first, later ++ [token], by simp, hb⟩

/-- The flag tells whether a token was refused after the last time the reducer was emptied. -/
theorem failed_after_iff (actions : List Action) :
    (after actions).reducer.failed = true ↔ Refused actions := by
  induction actions using List.reverseRecOn with
  | nil =>
    constructor
    · intro h
      exact Bool.noConfusion h
    · rintro ⟨before, token, later, he, -⟩
      simp at he
  | append_singleton actions action ih =>
    rw [after_concat, refused_concat_iff, ← ih]
    cases action with
    | process token =>
      have hflag : ((after actions).act (.process token)).reducer.failed =
          !((after actions).reducer.process token).value.1 :=
        failed_process (after actions).reducer token
      rw [hflag, Bool.not_eq_true']
      constructor
      · intro hb
        exact ⟨token, rfl, .inl hb⟩
      · rintro ⟨_, he, hb | hf⟩
        · cases he
          exact hb
        · rw [process_of_failed hf]
          rfl
    | clear =>
      rw [act_clear]
      exact iff_of_false Bool.false_ne_true (by simp)
    | takeRoot =>
      rw [act_takeRoot]
      exact iff_of_false Bool.false_ne_true (by simp)

/-- At every point of every run the stack is exactly what the accepted tokens make of it, a
refusal lasts until the reducer is emptied, and the root is taken without a trace. -/
theorem run_accounted (actions : List Action) :
    let a := after actions
    a.reducer = actions.foldl (fun r action => (r.act action).value.2) Reducer.empty ∧
    a.reducer.stack.flatMap Expr.tokens = a.accepted.map Token.respell ∧
    a.reducer.depth = a.reducer.stack.length ∧
    (a.reducer.depth : Int) = Token.operands a.accepted - Token.binaries a.accepted ∧
    (∀ e ∈ a.reducer.stack, ∀ v, .operand v ∈ e.postorder →
      0 ≤ v.toInt ∧ v.toInt ≤ greatestWord) ∧
    (∀ token v, Token.classify token = some (.operand v) → Expr.leaf v = .ok (.operand v)) ∧
    (∀ token, (a.reducer.process token).value.1 = false → ∀ later : List String,
      let b := after (actions ++ .process token :: later.map .process)
      b.reducer.stack = a.reducer.stack ∧
        ∀ next, (b.reducer.process next).value = (false, b.reducer)) ∧
    (a.reducer.root?.isSome = true ↔ ¬ Refused actions ∧ a.reducer.depth = 1) ∧
    (a.reducer.act .clear).value = (.done, Reducer.empty) ∧
    (a.reducer.act .takeRoot).value = (.taken a.reducer.root?, Reducer.empty) := by
  intro a
  have hforest : Forest a.accepted a.reducer.stack := forest_after actions
  refine ⟨reducer_foldl actions empty, hforest.flatMap_tokens, rfl, ?_, ?_, ?_, ?_, ?_, rfl, ?_⟩
  · have hcount := hforest.operands_eq
    rw [hcount, depth]
    omega
  · intro e he v hv
    have hnonneg := Expr.nonneg_iff.1 (hforest.nonneg e he) v hv
    exact ⟨nonneg_iff_toInt_nonneg.1 hnonneg, (isWord_toInt v).2⟩
  · intro token v hv
    exact if_pos (Token.nonneg_of_classify hv)
  · intro token hrefused later b
    have hb : b.reducer = ⟨a.reducer.stack, true⟩ := after_refused hrefused later
    refine ⟨by rw [hb], ?_⟩
    intro next
    rw [hb, process_of_failed rfl]
    rfl
  · have hflag : a.reducer.failed = false ↔ ¬ Refused actions := by
      rw [← failed_after_iff, Bool.not_eq_true]
    rw [isSome_root?, hflag]
  · simp [Reducer.act, takeRoot_eq]

end Account
end Reducer
end PrefixCalc
