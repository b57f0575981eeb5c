import Mathlib.Logic.ExistsUnique
import PrefixCalc.Expr.Context
import PrefixCalc.Proofs.Counting

/-! An expression in the middle of a list of tokens can be exchanged for another one. The machine
never looks into a stacked expression, so a gap in one of them is moved about whatever fills it. -/
namespace PrefixCalc
namespace Expr.Context

lemma operators_le_fill (c : Context) (e : Expr) : e.operators ≤ (c.fill e).operators := by
  induction c with
  | hole => exact Nat.le_refl _
  | left op c r ih =>
    simp only [fill, operators]
    omega
  | right op l c ih =>
    simp only [fill, operators]
    omega
  | negate c ih =>
    simp only [fill, operators]
    omega

/-- Anything around an expression adds an operator to it. -/
lemma eq_hole_of_fill_eq {c : Context} {e : Expr} (h : c.fill e = e) : c = hole := by
  have hoperators := congrArg operators h
  cases c with
  | hole => rfl
  | left op c r =>
    have hle := c.operators_le_fill e
    simp only [fill, operators] at hoperators
    omega
  | right op l c =>
    have hle := c.operators_le_fill e
    simp only [fill, operators] at hoperators
    omega
  | negate c =>
    have hle := c.operators_le_fill e
    simp only [fill, operators] at hoperators
    omega

/-- Two ways to fill it tell a context from every other. -/
theorem eq_of_fill_eq {c d : Context} {e e' : Expr} (hne : e ≠ e') (h : c.fill e = d.fill e)
    (h' : c.fill e' = d.fill e') : c = d := by
  induction c generalizing d with
  | hole => exact (eq_hole_of_fill_eq h.symm).symm
  | left op c r ih =>
    cases d with
    | hole => exact eq_hole_of_fill_eq h
    | left op' d r' =>
      obtain ⟨rfl, hpart, rfl⟩ := Expr.binary.inj h
      rw [ih hpart (Expr.binary.inj h').2.1]
    | right op' l d =>
      -- what is filled in on the left of one stands still on the left of the other
      have hpart : c.fill e = c.fill e' :=
        (Expr.binary.inj h).2.1.trans (Expr.binary.inj h').2.1.symm
      exact absurd (c.fill_injective hpart) hne
    | negate d => exact Expr.noConfusion h
  | right op l c ih =>
    cases d with
    | hole => exact eq_hole_of_fill_eq h
    | left op' d r =>
      have hpart : c.fill e = c.fill e' :=
        (Expr.binary.inj h).2.2.trans (Expr.binary.inj h').2.2.symm
      exact absurd (c.fill_injective hpart) hne
    | right op' l' d =>
      obtain ⟨rfl, rfl, hpart⟩ := Expr.binary.inj h
      rw [ih hpart (Expr.binary.inj h').2.2]
    | negate d => exact Expr.noConfusion h
  | negate c ih =>
    cases d with
    | hole => exact eq_hole_of_fill_eq h
    | left op d r => exact Expr.noConfusion h
    | right op l d => exact Expr.noConfusion h
    | negate d => rw [ih (Expr.negate.inj h) (Expr.negate.inj h')]

end Expr.Context

namespace Reducer

/-- A stack with a gap in one of its expressions. -/
structure GappedStack where
  above : List Expr
  around : Expr.Context
  below : List Expr

namespace GappedStack

def fill (g : GappedStack) (e : Expr) : List Expr := g.above ++ g.around.fill e :: g.below

/-- What becomes of the gap when the token fits the stack. -/
def push? : Token → GappedStack → Option GappedStack
  | .operand v, ⟨above, c, below⟩ => some ⟨.operand v :: above, c, below⟩
  | .operator .negate, ⟨[], c, below⟩ => some ⟨[], .negate c, below⟩
  | .operator .negate, ⟨x :: above, c, below⟩ => some ⟨.negate x :: above, c, below⟩
  | .operator (.binary _), ⟨[], _, []⟩ => none
  | .operator (.binary op), ⟨[], c, r :: below⟩ => some ⟨[], .left op c r, below⟩
  | .operator (.binary op), ⟨[l], c, below⟩ => some ⟨[], .right op l c, below⟩
  | .operator (.binary op), ⟨l :: r :: above, c, below⟩ => some ⟨.binary op l r :: above, c, below⟩

/-- A token does the same to the gap and to what fills it. -/
theorem push?_fill (t : Token) (g : GappedStack) (e : Expr) :
    Reducer.push? t (g.fill e) = (g.push? t).map (·.fill e) := by
  match t, g with
  | .operand _, ⟨_, _, _⟩ => rfl
  | .operator .negate, ⟨[], _, _⟩ => rfl
  | .operator .negate, ⟨_ :: _, _, _⟩ => rfl
  | .operator (.binary _), ⟨[], _, []⟩ => rfl
  | .operator (.binary _), ⟨[], _, _ :: _⟩ => rfl
  | .operator (.binary _), ⟨[_], _, _⟩ => rfl
  | .operator (.binary _), ⟨_ :: _ :: _, _, _⟩ => rfl

lemma reduce?_fill (token : String) (g : GappedStack) :
    (∀ e, reduce? token (g.fill e) = none) ∨
      ∃ g' : GappedStack, ∀ e, reduce? token (g.fill e) = some (g'.fill e) := by
  cases ht : Token.classify token with
  | none => exact .inl fun e => by simp [reduce?, ht]
  | some t =>
    have hpush : ∀ e, reduce? token (g.fill e) = (g.push? t).map (·.fill e) := by
      intro e
      rw [← push?_fill, reduce?, ht]
      rfl
    cases hg : g.push? t with
    | none => exact .inl fun e => by rw [hpush, hg, Option.map_none]
    | some g' => exact .inr ⟨g', fun e => by rw [hpush, hg, Option.map_some]⟩

/-- Whether tokens fit does not depend on what fills the gap, and the gap ends up in one place. -/
theorem reduceAll?_fill (tokens : List String) (g : GappedStack) :
    (∀ e, reduceAll? tokens (g.fill e) = none) ∨
      ∃ g' : GappedStack, ∀ e, reduceAll? tokens (g.fill e) = some (g'.fill e) := by
  induction tokens generalizing g with
  | nil => exact .inr ⟨g, fun e => rfl⟩
  | cons token tokens ih =>
    obtain hnone | ⟨next, hnext⟩ := reduce?_fill token g
    · exact .inl fun e => by rw [reduceAll?, hnone, Option.bind_none]
    · have hrest : ∀ e,
          reduceAll? (token :: tokens) (g.fill e) = reduceAll? tokens (next.fill e) := by
        intro e
        rw [reduceAll?, hnext, Option.bind_some]
      obtain hnone | ⟨g', hg'⟩ := ih next
      · exact .inl fun e => by rw [hrest, hnone]
      · exact .inr ⟨g', fun e => by rw [hrest, hg']⟩

lemma fill_eq_singleton_iff {g : GappedStack} {e w : Expr} :
    g.fill e = [w] ↔ (g.above = [] ∧ g.below = []) ∧ g.around.fill e = w := by
  obtain ⟨above, c, below⟩ := g
  cases above with
  | nil =>
    simp only [fill, List.nil_append, List.cons.injEq, true_and]
    exact and_comm
  | cons x above => simp [fill]

end GappedStack

/-- The tokens of an expression do the work of the expression itself. -/
lemma reduceAll?_around {tokens : List String} {e : Expr} (h : Derives tokens e)
    (pre post : List String) :
    reduceAll? (pre ++ tokens ++ post).reverse [] =
      (reduceAll? post.reverse []).bind fun below => reduceAll? pre.reverse (e :: below) := by
  rw [reduceAll?_reverse_append]
  congr 1
  funext below
  rw [reduceAll?_reverse_append, h.reduceAll, Option.bind_some]

end Reducer

namespace Expr
open Reducer

lemma Context.ofTokens_around (pre post : List String) :
    (∀ tokens e, (ofTokens tokens).value = .ok e → ¬ Spelled (pre ++ tokens ++ post)) ∨
      ∃ c : Context, ∀ tokens e, (ofTokens tokens).value = .ok e →
        (ofTokens (pre ++ tokens ++ post)).value = .ok (c.fill e) := by
  cases hpost : reduceAll? post.reverse [] with
  | none =>
    refine .inl fun tokens e he => ?_
    rintro ⟨w, hw⟩
    rw [ofTokens_eq_ok_iff_reduceAll, reduceAll?_around (Derives.iff_ofTokens.2 he), hpost] at hw
    cases hw
  | some below =>
    have hwhole : ∀ tokens e w, (ofTokens tokens).value = .ok e →
        ((ofTokens (pre ++ tokens ++ post)).value = .ok w ↔
          reduceAll? pre.reverse (GappedStack.fill ⟨[], .hole, below⟩ e) = some [w]) := by
      intro tokens e w he
      rw [ofTokens_eq_ok_iff_reduceAll, reduceAll?_around (Derives.iff_ofTokens.2 he), hpost]
      rfl
    obtain hnone | ⟨g, hg⟩ := GappedStack.reduceAll?_fill pre.reverse ⟨[], .hole, below⟩
    · refine .inl fun tokens e he => ?_
      rintro ⟨w, hw⟩
      rw [hwhole tokens e w he, hnone] at hw
      cases hw
    · simp only [hg, Option.some.injEq, GappedStack.fill_eq_singleton_iff] at hwhole
      by_cases hends : g.above = [] ∧ g.below = []
      · refine .inr ⟨g.around, fun tokens e he => ?_⟩
        exact (hwhole tokens e _ he).2 ⟨hends, rfl⟩
      · refine .inl fun tokens e he => ?_
        rintro ⟨w, hw⟩
        exact hends ((hwhole tokens e w he).1 hw).1

/-- Tokens around an expression either never make an expression of it, or put it into one and the
same context, whatever it is. So one expression in the middle can be exchanged for another, and
that changes nothing else. -/
theorem ofTokens_replaced (pre post : List String) :
    ((∀ tokens, Spelled tokens → (ofTokens (pre ++ tokens ++ post)).value = .error .format) ∨
      ∃! c : Context, ∀ tokens e, (ofTokens tokens).value = .ok e →
        (ofTokens (pre ++ tokens ++ post)).value = .ok (c.fill e)) ∧
    (∀ tokens tokens', Spelled tokens → Spelled tokens' →
      (Spelled (pre ++ tokens ++ post) ↔ Spelled (pre ++ tokens' ++ post))) ∧
    (∀ tokens tokens' e e' w w', (ofTokens tokens).value = .ok e →
      (ofTokens tokens').value = .ok e' → (ofTokens (pre ++ tokens ++ post)).value = .ok w →
      (ofTokens (pre ++ tokens' ++ post)).value = .ok w' →
      ∃ c : Context, w = c.fill e ∧ w' = c.fill e') := by
  obtain hnone | ⟨c, hc⟩ := Context.ofTokens_around pre post
  · refine ⟨.inl ?_, ?_, ?_⟩
    · rintro tokens ⟨e, he⟩
      exact value_ofTokens_of_not_spelled (hnone tokens e he)
    · rintro tokens tokens' ⟨e, he⟩ ⟨e', he'⟩
      exact iff_of_false (hnone tokens e he) (hnone tokens' e' he')
    · intro tokens _ e _ w _ he _ hw _
      exact absurd ⟨w, hw⟩ (hnone tokens e he)
  · refine ⟨.inr ⟨c, hc, ?_⟩, ?_, ?_⟩
    · intro d hd
      have hfill : ∀ tokens e, (ofTokens tokens).value = .ok e → d.fill e = c.fill e := by
        intro tokens e he
        exact Except.ok.inj ((hd tokens e he).symm.trans (hc tokens e he))
      have hzero := hfill ["0"] (.operand 0) (Derives.iff_ofTokens.1 (.operand (by decide)))
      have hone := hfill ["1"] (.operand 1) (Derives.iff_ofTokens.1 (.operand (by decide)))
      exact Context.eq_of_fill_eq (by decide) hzero hone
    · rintro tokens tokens' ⟨e, he⟩ ⟨e', he'⟩
      exact iff_of_true ⟨_, hc tokens e he⟩ ⟨_, hc tokens' e' he'⟩
    · intro tokens tokens' e e' w w' he he' hw hw'
      refine ⟨c, ?_, ?_⟩
      · exact Except.ok.inj (hw.symm.trans (hc tokens e he))
      · exact Except.ok.inj (hw'.symm.trans (hc tokens' e' he'))

end Expr
end PrefixCalc
