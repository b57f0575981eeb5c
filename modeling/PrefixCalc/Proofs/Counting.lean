import Mathlib.Tactic.ByContra
import PrefixCalc.Proofs.Derivations

/-! Which lists of tokens spell an expression is told by counting operands and binary operators, and
no such list goes on to become a longer one. A token needs as many expressions on the stack as keep
the count positive behind it. -/
namespace PrefixCalc
namespace Token

/-- How many more operands than binary operators there are. -/
def surplus (tokens : List String) : Int := operands tokens - binaries tokens

lemma surplus_append (a b : List String) : surplus (a ++ b) = surplus a + surplus b := by
  simp only [surplus, operands_append, binaries_append]
  omega

lemma surplus_cons {token : String} {t : Token} (h : classify token = some t)
    (tokens : List String) : surplus (token :: tokens) = surplus tokens + t.gain := by
  cases t with
  | operand v =>
    simp only [surplus, operands_cons_operand h, binaries_cons_operand h, gain]
    omega
  | operator op =>
    obtain rfl := classify_eq_operator_iff.1 h
    cases op with
    | binary op =>
      have hb : binaries (Operator.token (.binary op) :: tokens) = binaries tokens + 1 :=
        binaries_cons_binary op tokens
      simp only [surplus, operands_cons_operator, hb, gain]
      omega
    | negate =>
      simp only [surplus, operands_cons_operator, binaries_cons_negate, gain]
      omega

/-- All tokens belong to the language, and wherever the list is cut, the operands behind the cut
outnumber the binary operators there. -/
structure WellCounted (tokens : List String) : Prop where
  classified : ∀ token ∈ tokens, classify token ≠ none
  outnumbered : ∀ rest, rest ≠ [] → rest <:+ tokens → binaries rest + 1 ≤ operands rest

lemma wellCounted_nil : WellCounted [] where
  classified := by simp
  outnumbered rest hne hrest := absurd (List.suffix_nil.1 hrest) hne

lemma wellCounted_cons {token : String} {tokens : List String} :
    WellCounted (token :: tokens) ↔
      (∃ t, classify token = some t ∧ 1 ≤ surplus tokens + t.gain) ∧ WellCounted tokens := by
  constructor
  · intro h
    obtain ⟨t, ht⟩ := Option.ne_none_iff_exists'.1 (h.classified token List.mem_cons_self)
    have hwhole := h.outnumbered (token :: tokens) (List.cons_ne_nil _ _) (List.suffix_refl _)
    refine ⟨⟨t, ht, ?_⟩, ?_, ?_⟩
    · rw [← surplus_cons ht, surplus]
      omega
    · intro other hother
      exact h.classified other (List.mem_cons_of_mem token hother)
    · intro rest hne hrest
      exact h.outnumbered rest hne (hrest.trans (List.suffix_cons token tokens))
  · rintro ⟨⟨t, ht, hgain⟩, h⟩
    refine ⟨List.forall_mem_cons.2 ⟨by simp [ht], h.classified⟩, ?_⟩
    intro rest hne hrest
    obtain rfl | hrest := List.suffix_cons_iff.1 hrest
    · rw [← surplus_cons ht, surplus] at hgain
      omega
    · exact h.outnumbered rest hne hrest

end Token

namespace Reducer
open Token (surplus WellCounted)

/-- A token fits a stack exactly when at least one expression is there afterwards. -/
lemma exists_push?_iff (t : Token) (stack : List Expr) :
    (∃ stack', push? t stack = some stack') ↔ 1 ≤ (stack.length : Int) + t.gain := by
  match t, stack with
  | .operand _, stack =>
    simp only [push?, Token.gain, Option.some.injEq, exists_eq', true_iff]
    omega
  | .operator .negate, [] => simp [push?, Token.gain]
  | .operator .negate, _ :: stack =>
    simp only [push?, Token.gain, Option.some.injEq, exists_eq', true_iff, List.length_cons]
    omega
  | .operator (.binary _), [] => simp [push?, Token.gain]
  | .operator (.binary _), [_] => simp [push?, Token.gain]
  | .operator (.binary _), _ :: _ :: stack =>
    simp only [push?, Token.gain, Option.some.injEq, exists_eq', true_iff, List.length_cons]
    omega

lemma surplus_of_reduceAll {tokens : List String} {stack : List Expr}
    (h : reduceAll? tokens.reverse [] = some stack) : surplus tokens = stack.length := by
  have hcount := (Forest.of_reduceAll h).operands_eq
  rw [surplus]
  omega

/-- The depth that each token asks of the stack is a count of the tokens behind it. -/
theorem exists_reduceAll?_iff (tokens : List String) :
    (∃ stack, reduceAll? tokens.reverse [] = some stack) ↔ WellCounted tokens := by
  induction tokens with
  | nil => exact iff_of_true ⟨[], rfl⟩ Token.wellCounted_nil
  | cons token tokens ih =>
    rw [Token.wellCounted_cons, ← ih, reduceAll?_reverse_cons]
    constructor
    · rintro ⟨stack', h⟩
      obtain ⟨stack, hs, hr⟩ := Option.bind_eq_some_iff.1 h
      obtain ⟨t, ht, hp⟩ := Option.bind_eq_some_iff.1 hr
      refine ⟨⟨t, ht, ?_⟩, stack, hs⟩
      rw [surplus_of_reduceAll hs]
      exact (exists_push?_iff t stack).1 ⟨stack', hp⟩
    · rintro ⟨⟨t, ht, hgain⟩, stack, hs⟩
      rw [surplus_of_reduceAll hs] at hgain
      obtain ⟨stack', hp⟩ := (exists_push?_iff t stack).2 hgain
      refine ⟨stack', ?_⟩
      rw [hs, Option.bind_some, reduce?, ht]
      exact hp

end Reducer

namespace Expr
open Reducer

/-- These tokens spell an expression. -/
def Spelled (tokens : List String) : Prop := ∃ e, (ofTokens tokens).value = .ok e

lemma spelled_iff_wellCounted {tokens : List String} :
    Spelled tokens ↔ Token.WellCounted tokens ∧ Token.surplus tokens = 1 := by
  simp only [Spelled, ofTokens_eq_ok_iff_reduceAll]
  constructor
  · rintro ⟨e, he⟩
    exact ⟨(exists_reduceAll?_iff tokens).1 ⟨[e], he⟩, surplus_of_reduceAll he⟩
  · rintro ⟨h, hone⟩
    obtain ⟨stack, hs⟩ := (exists_reduceAll?_iff tokens).2 h
    have hlength : stack.length = 1 := by
      have hstack := surplus_of_reduceAll hs
      omega
    obtain ⟨e, rfl⟩ := List.length_eq_one_iff.1 hlength
    exact ⟨e, hs⟩

lemma value_ofTokens_of_not_spelled {tokens : List String} (h : ¬ Spelled tokens) :
    (ofTokens tokens).value = .error .format := by
  cases hv : (ofTokens tokens).value with
  | ok e => exact absurd ⟨e, hv⟩ h
  | error fault => rw [fault_of_ofTokens_error hv]

lemma Spelled.ne_nil {tokens : List String} (h : Spelled tokens) : tokens ≠ [] := by
  obtain ⟨e, he⟩ := h
  exact (Derives.iff_ofTokens.2 he).ne_nil

/-- Tokens behind a complete expression would have to be worth nothing, but they have a surplus. -/
lemma Spelled.eq_nil_of_append {tokens more : List String} (h : Spelled tokens)
    (h' : Spelled (tokens ++ more)) : more = [] := by
  by_contra hne
  obtain ⟨-, hone⟩ := spelled_iff_wellCounted.1 h
  obtain ⟨hcounted, hone'⟩ := spelled_iff_wellCounted.1 h'
  have hmore := hcounted.outnumbered more hne (List.suffix_append tokens more)
  rw [Token.surplus_append, hone, Token.surplus] at hone'
  omega

/-- Of two spellings at the start of a list neither is longer. -/
lemma Spelled.append_inj {ls rs ls' rs' : List String} (h : Spelled ls) (h' : Spelled ls')
    (heq : ls ++ rs = ls' ++ rs') : ls = ls' ∧ rs = rs' := by
  obtain ⟨more, rfl, rfl⟩ | ⟨more, rfl, rfl⟩ := List.append_eq_append_iff.1 heq
  · obtain rfl := h.eq_nil_of_append h'
    simp
  · obtain rfl := h'.eq_nil_of_append h
    simp

theorem flatten_inj_of_spelled {parts parts' : List (List String)}
    (h : ∀ part ∈ parts, Spelled part) (h' : ∀ part ∈ parts', Spelled part)
    (heq : parts.flatten = parts'.flatten) : parts = parts' := by
  induction parts generalizing parts' with
  | nil =>
    cases parts' with
    | nil => rfl
    | cons part parts' =>
      have hnil := (List.append_eq_nil_iff.1 heq.symm).1
      exact absurd hnil (h' part List.mem_cons_self).ne_nil
  | cons part parts ih =>
    obtain ⟨hpart, hparts⟩ := List.forall_mem_cons.1 h
    cases parts' with
    | nil => exact absurd (List.append_eq_nil_iff.1 heq).1 hpart.ne_nil
    | cons part' parts' =>
      obtain ⟨hpart', hparts'⟩ := List.forall_mem_cons.1 h'
      obtain ⟨rfl, hrest⟩ := hpart.append_inj hpart' heq
      rw [ih hparts hparts' hrest]

/-- Tokens spell an expression exactly when all of them belong to the language, every end of the
list has more operands than binary operators, and the whole list one more. So no spelling is the
start of another, and a list of tokens falls apart into spellings in at most one way. -/
theorem spelled_iff_counted (tokens : List String) :
    (Spelled tokens ↔
      (∀ token ∈ tokens, Token.classify token ≠ none) ∧
      (∀ rest, rest ≠ [] → rest <:+ tokens → Token.binaries rest + 1 ≤ Token.operands rest) ∧
      Token.operands tokens = Token.binaries tokens + 1) ∧
    (Spelled tokens → ∀ more, more ≠ [] → (ofTokens (tokens ++ more)).value = .error .format) ∧
    (∀ parts parts' : List (List String), (∀ part ∈ parts, Spelled part) →
      (∀ part ∈ parts', Spelled part) → parts.flatten = tokens → parts'.flatten = tokens →
      parts = parts') := by
  refine ⟨?_, ?_, ?_⟩
  · have hone : Token.surplus tokens = 1 ↔ Token.operands tokens = Token.binaries tokens + 1 := by
      rw [Token.surplus]
      omega
    rw [spelled_iff_wellCounted, hone]
    constructor
    · rintro ⟨⟨hclassified, houtnumbered⟩, hcount⟩
      exact ⟨hclassified, houtnumbered, hcount⟩
    · rintro ⟨hclassified, houtnumbered, hcount⟩
      exact ⟨⟨hclassified, houtnumbered⟩, hcount⟩
  · intro h more hne
    apply value_ofTokens_of_not_spelled
    intro h'
    exact hne (h.eq_nil_of_append h')
  · intro parts parts' h h' hparts hparts'
    exact flatten_inj_of_spelled h h' (hparts.trans hparts'.symm)

/-- It is not enough to count the whole list. -/
example : parse? ["5", "+", "7"] = none := by decide

end Expr
end PrefixCalc
