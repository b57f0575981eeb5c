import Mathlib.Tactic.Lemma
import PrefixCalc.Expr.Infix
import PrefixCalc.Proofs.Spelling
import PrefixCalc.Text.Brackets

/-! The two infix texts of an expression side by side. The one with few brackets is the other with
some pairs left out, and brackets match in both. -/
namespace PrefixCalc
namespace Text

namespace Thinned

lemma refl (cs : List Char) : Thinned cs cs := by
  induction cs with
  | nil => exact nil
  | cons c cs ih => exact ih.keep c

lemma append {a a' b b' : List Char} (h : Thinned a b) (h' : Thinned a' b') :
    Thinned (a ++ a') (b ++ b') := by
  induction h with
  | nil => exact h'
  | keep c _ ih => exact ih.keep c
  | drop bracket _ ih => exact ih.drop bracket

lemma sublist {a b : List Char} (h : Thinned a b) : a.Sublist b := by
  induction h with
  | nil => exact .slnil
  | keep c _ ih => exact ih.cons_cons c
  | drop _ _ ih => exact ih.cons _

lemma withoutBrackets_eq {a b : List Char} (h : Thinned a b) :
    withoutBrackets a = withoutBrackets b := by
  simp only [withoutBrackets]
  induction h with
  | nil => rfl
  | keep c _ ih => rw [List.filter_cons, List.filter_cons, ih]
  | drop bracket _ ih => rw [List.filter_cons_of_neg (by simp [bracket]), ih]

/-- A pair of brackets may stay or go. -/
lemma inBrackets {a b : List Char} (h : Thinned a b) :
    Thinned a ('(' :: (b ++ [')'])) := by
  have hclose : Thinned (a ++ []) (b ++ [')']) := h.append (nil.drop rfl)
  rw [List.append_nil] at hclose
  exact hclose.drop rfl

end Thinned

/-- All that reading one character can do to the number of open brackets. -/
lemma openAfter_cons_cases {n m : Nat} {c : Char} {cs : List Char}
    (h : openAfter n (c :: cs) = some m) :
    (c = '(' ∧ openAfter (n + 1) cs = some m) ∨
    (c = ')' ∧ ∃ k, n = k + 1 ∧ openAfter k cs = some m) ∨
    (isBracket c = false ∧ openAfter n cs = some m) := by
  by_cases hopen : c = '('
  · subst hopen
    rw [openAfter_open] at h
    exact .inl ⟨rfl, h⟩
  by_cases hclose : c = ')'
  · subst hclose
    cases n with
    | zero => simp [openAfter] at h
    | succ k =>
      rw [openAfter_close] at h
      exact .inr (.inl ⟨rfl, k, rfl, h⟩)
  · have hbracket : isBracket c = false := by simp [isBracket, hopen, hclose]
    rw [openAfter_cons_of_not_bracket hbracket] at h
    exact .inr (.inr ⟨hbracket, h⟩)

/-- A bracket that is open from the beginning stays open. -/
lemma openAfter_succ {n m : Nat} {cs : List Char} (h : openAfter n cs = some m) :
    openAfter (n + 1) cs = some (m + 1) := by
  induction cs generalizing n with
  | nil => exact congrArg (Option.map (· + 1)) h
  | cons c cs ih =>
    obtain ⟨rfl, h⟩ | ⟨rfl, k, rfl, h⟩ | ⟨hbracket, h⟩ := openAfter_cons_cases h
    · rw [openAfter_open, ih h]
    · rw [openAfter_close, ih h]
    · rw [openAfter_cons_of_not_bracket hbracket, ih h]

lemma count_of_openAfter {n m : Nat} {cs : List Char} (h : openAfter n cs = some m) :
    n + cs.count '(' = m + cs.count ')' := by
  induction cs generalizing n with
  | nil => exact Option.some.inj h
  | cons c cs ih =>
    obtain ⟨rfl, h⟩ | ⟨rfl, k, rfl, h⟩ | ⟨hbracket, h⟩ := openAfter_cons_cases h
    · have hrest := ih h
      simp
      omega
    · have hrest := ih h
      simp
      omega
    · simp only [isBracket, Bool.or_eq_false_iff, decide_eq_false_iff_not] at hbracket
      simpa [hbracket.1, hbracket.2] using ih h

namespace Balanced

lemma of_no_bracket {cs : List Char} (h : ∀ c ∈ cs, isBracket c = false) : Balanced cs := by
  induction cs with
  | nil => rfl
  | cons c cs ih =>
    obtain ⟨hc, hcs⟩ := List.forall_mem_cons.1 h
    exact (openAfter_cons_of_not_bracket hc 0 cs).trans (ih hcs)

lemma append {a b : List Char} (ha : Balanced a) (hb : Balanced b) : Balanced (a ++ b) := by
  rw [Balanced, openAfter_append, ha]
  exact hb

lemma inBrackets {cs : List Char} (h : Balanced cs) : Balanced ('(' :: (cs ++ [')'])) := by
  rw [Balanced, openAfter_open, openAfter_append, openAfter_succ h]
  rfl

/-- Nothing is closed before it is opened, and in the end everything is closed. -/
theorem counts {cs : List Char} (h : Balanced cs) :
    (∀ p, p <+: cs → p.count ')' ≤ p.count '(') ∧ cs.count '(' = cs.count ')' := by
  constructor
  · rintro p ⟨rest, rfl⟩
    rw [Balanced, openAfter_append] at h
    obtain ⟨m, hm, -⟩ := Option.bind_eq_some_iff.1 h
    have hcount := count_of_openAfter hm
    omega
  · have hcount := count_of_openAfter h
    omega

end Balanced

lemma isBracket_of_mem_spelling {n : Int} {c : Char} (h : c ∈ (spelling n).toList) :
    isBracket c = false := by
  obtain rfl | hdigit := mem_spelling_cases h
  · decide
  · have hcode := toNat_of_isDigit hdigit
    simp only [isBracket, Bool.or_eq_false_iff, decide_eq_false_iff_not]
    constructor <;> rintro rfl <;> exact absurd hcode (by decide)

lemma count_of_no_bracket {cs : List Char} (h : ∀ c ∈ cs, isBracket c = false) :
    cs.count '(' = 0 :=
  List.count_eq_zero.2 fun hmem => Bool.noConfusion (h '(' hmem)

end Text

lemma Operator.isBracket_of_mem_symbol (op : Operator) :
    ∀ c ∈ op.symbol.toList, Text.isBracket c = false := by
  have hall : op.symbol.toList.all (fun c => !Text.isBracket c) = true := by
    rcases op with op | _
    · cases op <;> rfl
    · rfl
  intro c hc
  simpa using List.all_eq_true.1 hall c hc

namespace Expr

/-- The fully bracketed text without the brackets around the whole of it. -/
def bareText : Expr → String
  | operand v => Text.spelling v.toInt
  | binary op l r => l.fullText ++ op.symbol ++ r.fullText
  | negate x => Operator.negate.symbol ++ x.fullText

lemma fullText_eq (e : Expr) : e.fullText = bracketIf e.isOperator e.bareText := by cases e <;> rfl

lemma isOperator_of_wrapsLeft {op : BinaryOp} {x : Expr} (h : wrapsLeft op x = true) :
    x.isOperator = true := by
  cases x with
  | operand v => cases op <;> exact h
  | binary _ _ _ | negate _ => rfl

lemma isOperator_of_wrapsRight {op : BinaryOp} {x : Expr} (h : wrapsRight op x = true) :
    x.isOperator = true := by
  cases x with
  | operand v => cases op <;> simp [wrapsRight, barePart, isOperand] at h
  | binary _ _ _ | negate _ => rfl

lemma isOperator_of_wrapsNegated {x : Expr} (h : wrapsNegated x = true) : x.isOperator = true := by
  cases x with
  | operand v => exact h
  | binary _ _ _ | negate _ => rfl

/-- A bracket kept around an operand stands where the full text has one, too. -/
lemma thinned_bracketIf {x : Expr} (h : Text.Thinned x.minimalText.toList x.bareText.toList)
    {wrap : Bool} (hwrap : wrap = true → x.isOperator = true) :
    Text.Thinned (bracketIf wrap x.minimalText).toList x.fullText.toList := by
  rw [fullText_eq]
  cases wrap with
  | true =>
    rw [hwrap rfl, bracketIf_true, bracketIf_true, toList_bracketed, toList_bracketed]
    exact (h.append (.refl _)).keep '('
  | false =>
    cases x.isOperator with
    | true =>
      rw [bracketIf_false, bracketIf_true, toList_bracketed]
      exact h.inBrackets
    | false => exact h

theorem thinned_minimalText (e : Expr) : Text.Thinned e.minimalText.toList e.bareText.toList := by
  induction e with
  | operand v => exact .refl _
  | binary op l r ihl ihr =>
    have hleft := thinned_bracketIf ihl (@isOperator_of_wrapsLeft op l)
    have hright := thinned_bracketIf ihr (@isOperator_of_wrapsRight op r)
    simp only [minimalText, bareText, String.toList_append]
    exact (hleft.append (.refl _)).append hright
  | negate x ih =>
    have hpart := thinned_bracketIf ih isOperator_of_wrapsNegated
    simp only [minimalText, bareText, String.toList_append]
    exact (Text.Thinned.refl _).append hpart

theorem balanced_infixTexts (e : Expr) :
    Text.Balanced e.fullText.toList ∧ Text.Balanced e.minimalText.toList := by
  refine @infixTexts_induction (fun text => Text.Balanced text.toList) ?_ ?_ ?_ ?_ e
  · exact fun n => .of_no_bracket fun _ => Text.isBracket_of_mem_spelling
  · exact fun op => .of_no_bracket op.isBracket_of_mem_symbol
  · intro a b ha hb
    rw [String.toList_append]
    exact ha.append hb
  · intro a ha
    rw [toList_bracketed]
    exact ha.inBrackets

lemma count_symbol (op : Operator) : op.symbol.toList.count '(' = 0 :=
  Text.count_of_no_bracket op.isBracket_of_mem_symbol

/-- Every operator has a pair of brackets of its own. -/
theorem count_fullText (e : Expr) : e.fullText.toList.count '(' = e.operators := by
  induction e with
  | operand v => exact Text.count_of_no_bracket fun _ => Text.isBracket_of_mem_spelling
  | binary op l r ihl ihr =>
    have hsymbol : op.symbol.toList.count '(' = 0 := count_symbol (.binary op)
    simp [fullText, toList_bracketed, operators, ihl, ihr, hsymbol]
  | negate x ih =>
    have hsymbol := count_symbol .negate
    simp [fullText, toList_bracketed, operators, ih, hsymbol]

/-- Of the two texts that every builder gives, the one with few brackets is the full one without
some pairs of brackets: nothing else is left out, the brackets match in both, and the full text has
one pair for each operator. -/
theorem texts_differ_in_brackets (e : Expr) :
    (∀ {β : Type} {kit : Assembly.Kit β}, kit.Lawful →
      e.renderMinimal kit = .ok e.minimalText ∧ e.renderFull kit = .ok e.fullText) ∧
    Text.Thinned e.minimalText.toList e.fullText.toList ∧
    e.minimalText.toList.Sublist e.fullText.toList ∧
    Text.withoutBrackets e.minimalText.toList = Text.withoutBrackets e.fullText.toList ∧
    (∀ text ∈ [e.minimalText.toList, e.fullText.toList],
      (∀ p, p <+: text → p.count ')' ≤ p.count '(') ∧ text.count '(' = text.count ')') ∧
    e.fullText.toList.count '(' = e.operators ∧
    e.minimalText.toList.count '(' ≤ e.operators := by
  have hthinned : Text.Thinned e.minimalText.toList e.fullText.toList :=
    @thinned_bracketIf e e.thinned_minimalText false fun h => Bool.noConfusion h
  refine ⟨fun lawful => ⟨renderMinimal_eq lawful e, renderFull_eq lawful e⟩, hthinned,
    hthinned.sublist, hthinned.withoutBrackets_eq, ?_, e.count_fullText, ?_⟩
  · simp only [List.forall_mem_cons]
    exact ⟨e.balanced_infixTexts.2.counts, e.balanced_infixTexts.1.counts, by simp⟩
  · rw [← e.count_fullText]
    exact hthinned.sublist.count_le '('

end Expr
end PrefixCalc
