import PrefixCalc.Grammar
import PrefixCalc.Proofs.Reduction
import PrefixCalc.Proofs.Spelling

/-! The stack machine reads exactly the prefix grammar. Seen from the left, the tokens fed so far
are always the derivations of the stacked expressions put one behind the other. -/
namespace PrefixCalc

/-- Tokens that fall into derivations of these expressions, in this order. -/
inductive Forest : List String → List Expr → Prop
  | nil : Forest [] []
  | cons {ts us : List String} {e : Expr} {es : List Expr} (first : Derives ts e)
      (rest : Forest us es) : Forest (ts ++ us) (e :: es)

/-- A derivation as a tree of its own, which also shows where each operand ends. -/
inductive Derivation where
  | operand (token : String) (value : Int32) (read : Token.classify token = some (.operand value))
  | negate (part : Derivation)
  | binary (op : BinaryOp) (left right : Derivation)

namespace Derivation

def tokens : Derivation → List String
  | operand token _ _ => [token]
  | negate part => Operator.negate.token :: part.tokens
  | binary op left right => op.token :: (left.tokens ++ right.tokens)

def result : Derivation → Expr
  | operand _ value _ => .operand value
  | negate part => .negate part.result
  | binary op left right => .binary op left.result right.result

lemma derives (d : Derivation) : Derives d.tokens d.result := by
  induction d with
  | operand token value read => exact Derives.operand read
  | negate part ih => exact Derives.negate ih
  | binary op left right ihl ihr => exact Derives.binary ihl ihr

end Derivation

namespace Forest
open Reducer

lemma derives_of_singleton {ts : List String} {e : Expr} (h : Forest ts [e]) : Derives ts e := by
  cases h with
  | cons first rest =>
    cases rest with
    | nil => simpa using first

/-- A token in front of the forest is attached to its first trees. -/
lemma reduce {token : String} {tokens : List String} {stack stack' : List Expr}
    (h : Forest tokens stack) (hr : reduce? token stack = some stack') :
    Forest (token :: tokens) stack' := by
  rcases reduce?_cases hr with ⟨v, hv, rfl⟩ | ⟨x, rest, rfl, rfl, rfl⟩ |
      ⟨op, l, r, rest, rfl, rfl, rfl⟩
  · exact cons (Derives.operand hv) h
  · cases h with
    | cons first rest => exact cons (Derives.negate first) rest
  · cases h with
    | @cons ls _ _ _ left below =>
      cases below with
      | @cons rs us _ _ right rest =>
        have hd : Derives (op.token :: (ls ++ rs)) (.binary op l r) := Derives.binary left right
        have hf := cons hd rest
        rwa [List.cons_append, List.append_assoc] at hf

/-- The invariant of the machine, for tokens fed from the last to the first. -/
theorem of_reduceAll {tokens : List String} {stack : List Expr}
    (h : reduceAll? tokens.reverse [] = some stack) : Forest tokens stack := by
  induction tokens generalizing stack with
  | nil =>
    obtain rfl := Option.some.inj h
    exact nil
  | cons token tokens ih =>
    rw [reduceAll?_reverse_cons] at h
    obtain ⟨below, hb, hr⟩ := Option.bind_eq_some_iff.1 h
    exact (ih hb).reduce hr

end Forest

namespace Derives
open Reducer

/-- Whatever is on the stack already, the tokens of an expression put that expression on top. -/
theorem reduceAll {tokens : List String} {e : Expr} (h : Derives tokens e) (stack : List Expr) :
    reduceAll? tokens.reverse stack = some (e :: stack) := by
  induction h generalizing stack with
  | operand read =>
    rw [List.reverse_singleton, reduceAll?_singleton, reduce?_operand read]
  | negate _ ih =>
    rw [reduceAll?_reverse_cons, ih, Option.bind_some, reduce?_negate]
  | @binary op ls rs l r _ _ ihl ihr =>
    -- the right operand is fed first and lies below the left one
    have hparts : reduceAll? (ls ++ rs).reverse stack = some (l :: r :: stack) := by
      rw [reduceAll?_reverse_append, ihr, Option.bind_some, ihl]
    rw [reduceAll?_reverse_cons, hparts, Option.bind_some, reduce?_binary]

theorem iff_reduceAll {tokens : List String} {e : Expr} :
    Derives tokens e ↔ reduceAll? tokens.reverse [] = some [e] := by
  constructor
  · intro h
    exact h.reduceAll []
  · intro h
    exact (Forest.of_reduceAll h).derives_of_singleton

theorem iff_ofTokens {tokens : List String} {e : Expr} :
    Derives tokens e ↔ (Expr.ofTokens tokens).value = .ok e :=
  iff_reduceAll.trans Expr.ofTokens_eq_ok_iff_reduceAll.symm

lemma unique {tokens : List String} {e e' : Expr} (h : Derives tokens e)
    (h' : Derives tokens e') : e = e' := by
  have hs := (h.reduceAll []).symm.trans (h'.reduceAll [])
  exact (List.cons.inj (Option.some.inj hs)).1

/-- An expression is written with the tokens it was read from, in their plain spelling. -/
theorem map_respell {tokens : List String} {e : Expr} (h : Derives tokens e) :
    tokens.map Token.respell = e.tokens := by
  induction h with
  | operand read =>
    rw [List.map_singleton, Token.respell_of_classify read]
    rfl
  | negate _ ih =>
    rw [List.map_cons, Token.respell_operator_token, ih]
    rfl
  | @binary op _ _ _ _ _ _ ihl ihr =>
    rw [List.map_cons, List.map_append, ihl, ihr, Token.respell_binary_token]
    rfl

lemma classify_ne_none {tokens : List String} {e : Expr} (h : Derives tokens e) :
    ∀ token ∈ tokens, Token.classify token ≠ none := by
  induction h with
  | operand read => simp [read]
  | negate _ ih => simpa using ih
  | binary _ _ ihl ihr =>
    intro token ht
    rcases List.mem_cons.1 ht with rfl | ht
    · simp
    · rcases List.mem_append.1 ht with hl | hr
      · exact ihl token hl
      · exact ihr token hr

lemma length_eq {tokens : List String} {e : Expr} (h : Derives tokens e) :
    tokens.length = e.tokens.length := by rw [← h.map_respell, List.length_map]

/-- There is one operand more than there are binary operators. -/
theorem operands_eq {tokens : List String} {e : Expr} (h : Derives tokens e) :
    Token.operands tokens = Token.binaries tokens + 1 := by
  induction h with
  | operand read =>
    rw [Token.operands_cons_operand read, Token.binaries_cons_operand read]
    rfl
  | negate _ ih => rw [Token.operands_cons_operator, Token.binaries_cons_negate, ih]
  | binary _ _ ihl ihr =>
    rw [Token.operands_cons_binary, Token.binaries_cons_binary, Token.operands_append,
      Token.binaries_append]
    omega

lemma reduceAll_append {ls rs : List String} {l r : Expr} (hl : Derives ls l) (hr : Derives rs r) :
    reduceAll? (ls ++ rs).reverse [] = some [l, r] := by
  rw [reduceAll?_reverse_append, hr.reduceAll, Option.bind_some, hl.reduceAll]

/-- Two adjacent derivations leave only one place where the first can end. -/
theorem split_unique {ls rs ls' rs' : List String} {l r l' r' : Expr} (hl : Derives ls l)
    (hr : Derives rs r) (hl' : Derives ls' l') (hr' : Derives rs' r') (h : ls ++ rs = ls' ++ rs') :
    ls = ls' ∧ rs = rs' := by
  have he : l = l' := by
    have hs := hl.reduceAll_append hr
    rw [h, hl'.reduceAll_append hr'] at hs
    exact (List.cons.inj (Option.some.inj hs)).1.symm
  have hlength : ls.length = ls'.length := by rw [hl.length_eq, hl'.length_eq, he]
  exact List.append_inj h hlength

lemma exists_derivation {tokens : List String} {e : Expr} (h : Derives tokens e) :
    ∃ d : Derivation, d.tokens = tokens ∧ d.result = e := by
  induction h with
  | @operand token v read => exact ⟨.operand token v read, rfl, rfl⟩
  | negate _ ih =>
    obtain ⟨d, rfl, rfl⟩ := ih
    exact ⟨.negate d, rfl, rfl⟩
  | @binary op _ _ _ _ _ _ ihl ihr =>
    obtain ⟨left, rfl, rfl⟩ := ihl
    obtain ⟨right, rfl, rfl⟩ := ihr
    exact ⟨.binary op left right, rfl, rfl⟩

end Derives

namespace Forest

lemma flatMap_tokens {tokens : List String} {es : List Expr} (h : Forest tokens es) :
    es.flatMap Expr.tokens = tokens.map Token.respell := by
  induction h with
  | nil => rfl
  | cons first _ ih => rw [List.flatMap_cons, List.map_append, first.map_respell, ih]

/-- Every tree of a forest accounts for one operand. -/
lemma operands_eq {tokens : List String} {es : List Expr} (h : Forest tokens es) :
    Token.operands tokens = Token.binaries tokens + es.length := by
  induction h with
  | nil => rfl
  | cons first _ ih =>
    have hfirst := first.operands_eq
    rw [Token.operands_append, Token.binaries_append, List.length_cons]
    omega

lemma nonneg {tokens : List String} {es : List Expr} (h : Forest tokens es) :
    ∀ e ∈ es, e.nonneg = true := by
  induction h with
  | nil => simp
  | cons first _ ih =>
    intro e he
    rcases List.mem_cons.1 he with rfl | he
    · exact first.nonneg
    · exact ih e he

end Forest

/-- The machine only ever returns one expression for the tokens of a derivation, so the tokens of
an operator already tell which constructor and which parts it was made from. -/
lemma Derivation.eq_of_tokens_eq {d d' : Derivation} (h : d.tokens = d'.tokens) : d = d' := by
  have hr : d.result = d'.result := by
    have hd := d.derives
    rw [h] at hd
    exact hd.unique d'.derives
  induction d generalizing d' with
  | operand token value read =>
    cases d' with
    | operand token' value' read' =>
      obtain rfl := (List.cons.inj h).1
      obtain rfl := Expr.operand.inj hr
      rfl
    | negate _ => exact Expr.noConfusion hr
    | binary _ _ _ => exact Expr.noConfusion hr
  | negate part ih =>
    cases d' with
    | operand _ _ _ => exact Expr.noConfusion hr
    | negate part' => rw [ih (List.cons.inj h).2 (Expr.negate.inj hr)]
    | binary _ _ _ => exact Expr.noConfusion hr
  | binary op left right ihl ihr =>
    cases d' with
    | operand _ _ _ => exact Expr.noConfusion hr
    | negate _ => exact Expr.noConfusion hr
    | binary op' left' right' =>
      obtain ⟨rfl, hleft, hright⟩ := Expr.binary.inj hr
      obtain ⟨hls, hrs⟩ := left.derives.split_unique right.derives left'.derives right'.derives
        (List.cons.inj h).2
      rw [ihl hls hleft, ihr hrs hright]

namespace Expr

/-- Reading accepts exactly the token lists of the prefix grammar, with the expression of their
only derivation; every other list is a format fault. -/
theorem ofTokens_iff_derivation (tokens : List String) :
    (∀ e, (ofTokens tokens).value = .ok e ↔ Derives tokens e) ∧
    (∀ e e', Derives tokens e → Derives tokens e' → e = e') ∧
    (∀ e, Derives tokens e ↔ ∃ d : Derivation, d.tokens = tokens ∧ d.result = e) ∧
    (∀ d d' : Derivation, d.tokens = tokens → d'.tokens = tokens → d = d') ∧
    (∀ (op op' : BinaryOp) (ls rs ls' rs' : List String) (l r l' r' : Expr),
      tokens = op.token :: (ls ++ rs) → Derives ls l → Derives rs r →
      tokens = op'.token :: (ls' ++ rs') → Derives ls' l' → Derives rs' r' →
      op = op' ∧ ls = ls' ∧ rs = rs') ∧
    ((∀ e, ¬ Derives tokens e) → (ofTokens tokens).value = .error .format) := by
  refine ⟨fun e => Derives.iff_ofTokens.symm, fun e e' h h' => h.unique h', ?_, ?_, ?_, ?_⟩
  · intro e
    constructor
    · exact Derives.exists_derivation
    · rintro ⟨d, rfl, rfl⟩
      exact d.derives
  · intro d d' h h'
    exact Derivation.eq_of_tokens_eq (h.trans h'.symm)
  · intro op op' ls rs ls' rs' l r l' r' h hl hr h' hl' hr'
    obtain ⟨hop, htail⟩ := List.cons.inj (h.symm.trans h')
    exact ⟨BinaryOp.token_injective hop, hl.split_unique hr hl' hr' htail⟩
  · intro h
    cases hv : (ofTokens tokens).value with
    | ok e => exact absurd (Derives.iff_ofTokens.2 hv) (h e)
    | error fault => rw [fault_of_ofTokens_error hv]

end Expr
end PrefixCalc
