import Mathlib.Data.List.Forall2
import PrefixCalc.Proofs.Derivations

/-! Writing an expression and reading it again, and reading a text and writing the expression. -/
namespace PrefixCalc
namespace Text

/-- Words that are joined by blanks come apart again. -/
theorem words_intercalate {ws : List String} (hne : ∀ w ∈ ws, w ≠ "")
    (hb : ∀ w ∈ ws, ∀ c ∈ w.toList, isBlank c = false) : words (" ".intercalate ws) = ws := by
  induction ws with
  | nil => rfl
  | cons w ws ih =>
    have hw : w.toList ≠ [] := by simpa using hne w List.mem_cons_self
    have hbw := hb w List.mem_cons_self
    by_cases hws : ws = []
    · subst hws
      rw [String.intercalate_singleton, words_eq, wordsOf_of_not_blank hbw hw]
      simp
    · have hrest := ih (fun w h => hne w (List.mem_cons_of_mem _ h))
        (fun w h => hb w (List.mem_cons_of_mem _ h))
      have hlist : (w ++ " " ++ " ".intercalate ws).toList =
          w.toList ++ ' ' :: (" ".intercalate ws).toList := by simp
      rw [String.intercalate_cons_of_ne_nil hws, words_eq, hlist,
        wordsOf_append_blank hbw hw (by decide), List.map_cons, ← words_eq, hrest,
        String.ofList_toList]

end Text

namespace Operator

lemma token_ne_empty (op : Operator) : op.token ≠ "" := by
  rcases op with op | _
  · cases op <;> decide
  · decide

lemma not_blank_of_mem_token (op : Operator) : ∀ c ∈ op.token.toList, Text.isBlank c = false := by
  have hall : op.token.toList.all (fun c => !Text.isBlank c) = true := by
    rcases op with op | _
    · cases op <;> rfl
    · rfl
  intro c hc
  simpa using List.all_eq_true.1 hall c hc

end Operator

namespace Expr

lemma label_ne_empty (e : Expr) : e.label ≠ "" := by
  cases e with
  | operand v => exact Text.spelling_ne_empty _
  | binary op _ _ => exact (Operator.binary op).token_ne_empty
  | negate _ => exact Operator.negate.token_ne_empty

lemma not_blank_of_mem_label (e : Expr) : ∀ c ∈ e.label.toList, Text.isBlank c = false := by
  cases e with
  | operand v =>
    intro c hc
    exact Text.not_blank_of_mem_spelling hc
  | binary op _ _ => exact (Operator.binary op).not_blank_of_mem_token
  | negate _ => exact Operator.negate.not_blank_of_mem_token

theorem words_prefixText (e : Expr) : Text.words e.prefixText = e.tokens := by
  apply Text.words_intercalate
  · intro token ht
    rw [tokens_eq_map_label] at ht
    obtain ⟨s, -, rfl⟩ := List.mem_map.1 ht
    exact s.label_ne_empty
  · intro token ht
    rw [tokens_eq_map_label] at ht
    obtain ⟨s, -, rfl⟩ := List.mem_map.1 ht
    exact s.not_blank_of_mem_label

theorem derives_tokens {e : Expr} (h : e.nonneg = true) : Derives e.tokens e := by
  induction e with
  | operand v => exact Derives.operand (Token.classify_spelling_of_nonneg (by simpa [nonneg] using h))
  | binary op l r ihl ihr =>
    obtain ⟨hl, hr⟩ : l.nonneg = true ∧ r.nonneg = true := by simpa [nonneg] using h
    exact Derives.binary (ihl hl) (ihr hr)
  | negate x ih => exact Derives.negate (ih h)

/-- A negative leaf spoils the whole list, wherever it stands. -/
lemma nonneg_of_derives_tokens {e e' : Expr} (h : Derives e.tokens e') : e.nonneg = true := by
  rw [nonneg_iff]
  intro v hv
  by_contra hneg
  have hmem : Text.spelling v.toInt ∈ e.tokens := by
    rw [tokens_eq_map_label]
    exact List.mem_map.2 ⟨operand v, e.preorder_perm_postorder.mem_iff.2 hv, rfl⟩
  exact h.classify_ne_none _ hmem (Token.classify_spelling_of_neg hneg)

lemma ofTokens_tokens_iff {e e' : Expr} :
    (ofTokens e.tokens).value = .ok e' ↔ e.nonneg = true ∧ e' = e := by
  rw [← Derives.iff_ofTokens]
  constructor
  · intro h
    have hn := nonneg_of_derives_tokens h
    exact ⟨hn, h.unique (derives_tokens hn)⟩
  · rintro ⟨hn, rfl⟩
    exact derives_tokens hn

/-- The labels fix the arities, so that tokens that go on differently still begin with the same
expression. A negative operand may look like an operator and an operand, but it is one token. -/
theorem tokens_append_inj {e e' : Expr} {rest rest' : List String}
    (h : e.tokens ++ rest = e'.tokens ++ rest') : e = e' ∧ rest = rest' := by
  induction e generalizing e' rest rest' with
  | operand v =>
    cases e' with
    | operand w =>
      obtain ⟨hlabel, hrest⟩ := List.cons.inj h
      exact ⟨congrArg operand (Int32.toInt_inj.1 (Text.spelling_injective hlabel)), hrest⟩
    | binary op l r => exact absurd (List.cons.inj h).1 (Token.spelling_ne_token _ (.binary op))
    | negate x => exact absurd (List.cons.inj h).1 (Token.spelling_ne_token _ .negate)
  | binary op l r ihl ihr =>
    cases e' with
    | operand w => exact absurd (List.cons.inj h).1.symm (Token.spelling_ne_token _ (.binary op))
    | binary op' l' r' =>
      rw [tokens, tokens, List.cons_append, List.cons_append, List.append_assoc,
        List.append_assoc] at h
      obtain ⟨hlabel, hparts⟩ := List.cons.inj h
      obtain ⟨rfl, hright⟩ := ihl hparts
      obtain ⟨rfl, hrest⟩ := ihr hright
      exact ⟨by rw [BinaryOp.token_injective hlabel], hrest⟩
    | negate x =>
      exact absurd (Operator.token_injective (List.cons.inj h).1 : Operator.binary op = .negate)
        Operator.noConfusion
  | negate x ih =>
    cases e' with
    | operand w => exact absurd (List.cons.inj h).1.symm (Token.spelling_ne_token _ .negate)
    | binary op l r =>
      exact absurd (Operator.token_injective (List.cons.inj h).1 : Operator.negate = .binary op)
        Operator.noConfusion
    | negate y =>
      obtain ⟨rfl, hrest⟩ := ih (List.cons.inj h).2
      exact ⟨rfl, hrest⟩

theorem tokens_injective {e e' : Expr} (h : e.tokens = e'.tokens) : e = e' :=
  (tokens_append_inj (congrArg (· ++ []) h)).1

end Expr

lemma Token.forall₂_same_iff {ts us : List String} (ht : ∀ t ∈ ts, classify t ≠ none)
    (hu : ∀ u ∈ us, classify u ≠ none) :
    List.Forall₂ Same ts us ↔ ts.map respell = us.map respell := by
  induction ts generalizing us with
  | nil => simp [eq_comm]
  | cons t ts ih =>
    cases us with
    | nil => simp
    | cons u us =>
      have hsame := same_iff_respell_eq (ht t List.mem_cons_self) (hu u List.mem_cons_self)
      have htail := ih (fun t h => ht t (List.mem_cons_of_mem _ h))
        (fun u h => hu u (List.mem_cons_of_mem _ h))
      rw [List.forall₂_cons, List.map_cons, List.map_cons, List.cons.injEq, hsame, htail]

/-- The two texts are read as one expression exactly when they agree word by word up to the
spelling of operands. -/
lemma Derives.eq_iff_same {ts us : List String} {e e' : Expr} (h : Derives ts e)
    (h' : Derives us e') : e = e' ↔ List.Forall₂ Token.Same ts us := by
  rw [Token.forall₂_same_iff h.classify_ne_none h'.classify_ne_none, h.map_respell, h'.map_respell]
  constructor
  · rintro rfl
    rfl
  · exact Expr.tokens_injective

namespace Expr

/-- Reading undoes writing for the expressions without negative leaves, and only for them; writing
undoes reading up to the spelling of the operands. -/
theorem prefixText_roundTrip :
    (∀ e : Expr, ((ofText e.prefixText).value = .ok e ↔ e.nonneg = true) ∧
      (e.nonneg = false →
        ∃ failure, (ofText e.prefixText).value = .error failure ∧
          failure.cause = .fault .format)) ∧
    (∀ tokens e, (ofTokens tokens).value = .ok e →
      Text.words e.prefixText = tokens.map Token.respell ∧
      ∀ token ∈ tokens,
        (∃ op : Operator, token = op.token ∧ Token.respell token = token) ∨
        (∃ v, Token.classify token = some (.operand v) ∧
          Text.Plain (Token.respell token).toList ∧
          Text.integer? (Token.respell token).toList = some v.toInt)) ∧
    (∀ text text' e e', (ofText text).value = .ok e → (ofText text').value = .ok e' →
      (e = e' ↔ List.Forall₂ Token.Same (Text.words text) (Text.words text'))) := by
  refine ⟨fun e => ⟨?_, ?_⟩, fun tokens e h => ⟨?_, ?_⟩, fun text text' e e' h h' => ?_⟩
  · rw [ofText_eq_ok_iff_ofTokens, words_prefixText, ofTokens_tokens_iff]
    simp
  · intro hn
    rw [value_ofText, words_prefixText]
    cases hv : (ofTokens e.tokens).value with
    | ok e' =>
      rw [(ofTokens_tokens_iff.1 hv).1] at hn
      exact Bool.noConfusion hn
    | error fault => exact ⟨_, rfl, congrArg Cause.fault (fault_of_ofTokens_error hv)⟩
  · rw [words_prefixText, (Derives.iff_ofTokens.2 h).map_respell]
  · intro token ht
    exact Token.respell_cases ((Derives.iff_ofTokens.2 h).classify_ne_none token ht)
  · rw [ofText_eq_ok_iff_ofTokens, ← Derives.iff_ofTokens] at h h'
    exact h.eq_iff_same h'

end Expr
end PrefixCalc
