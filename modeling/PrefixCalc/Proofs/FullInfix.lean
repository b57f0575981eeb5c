import PrefixCalc.Expr.Infix
import PrefixCalc.Proofs.InfixReading

/-! Infix text with brackets around every operation. A reader gets the expression back as long as no
leaf is negative, and even with negative leaves two expressions never share a text: a bracket tells
what kind of expression follows, and what stands behind a leaf is never a digit. -/
namespace PrefixCalc.Expr
open InfixReading

lemma toList_fullText_binary (op : BinaryOp) (l r : Expr) (rest : List Char) :
    (binary op l r).fullText.toList ++ rest =
      '(' :: (l.fullText.toList ++ signOf op :: (r.fullText.toList ++ ')' :: rest)) := by
  simp [fullText, toList_bracketed, toList_symbol]

lemma toList_fullText_negate (x : Expr) (rest : List Char) :
    (negate x).fullText.toList ++ rest = '(' :: '-' :: (x.fullText.toList ++ ')' :: rest) := by
  simp [fullText, toList_bracketed, Operator.symbol]

/-- Between brackets, an operator joins two factors, whatever its level. -/
lemma reads_pair {op : BinaryOp} {cs cs' rest : List Char} {l r : Expr}
    (hl : Reads .factor none cs l (signOf op :: cs'))
    (hr : Reads .factor none cs' r (')' :: rest)) :
    Reads .sum none cs (binary op l r) (')' :: rest) := by
  cases op with
  | add | sub =>
    have hleft : Reads .product none cs l _ :=
      .first (by decide) hl (.stop (by simp [signOf, operator?]))
    have hright : Reads .product none cs' r _ := .first (by decide) hr (.close .product r rest)
    exact .first (by decide) hleft (.next rfl hright (.close .sum _ rest))
  | mul | div =>
    have hproduct : Reads .product none cs _ _ :=
      .first (by decide) hl (.next rfl hr (.close .product _ rest))
    exact .first (by decide) hproduct (.close .sum _ rest)

/-- A fully bracketed text is a factor, whatever stands behind it. -/
theorem reads_fullText {e : Expr} (h : e.nonneg = true) {rest : List Char}
    (hr : Text.NoDigit rest) : Reads .factor none (e.fullText.toList ++ rest) e rest := by
  induction e generalizing rest with
  | operand v => exact reads_spelling (by simpa [nonneg] using h) hr
  | binary op l r ihl ihr =>
    obtain ⟨hl, hr⟩ : l.nonneg = true ∧ r.nonneg = true := by simpa [nonneg] using h
    rw [toList_fullText_binary]
    have hleft := ihl hl (noDigit_signOf op (r.fullText.toList ++ ')' :: rest))
    have hright := ihr hr (noDigit_close rest)
    exact .brackets (reads_pair hleft hright)
  | negate x ih =>
    rw [toList_fullText_negate]
    have hminus := Reads.minus (ih h (noDigit_close rest))
    have hproduct : Reads .product none _ _ _ := .first (by decide) hminus (.close .product _ rest)
    exact .brackets (.first (by decide) hproduct (.close .sum _ rest))

lemma ofInfix?_fullText {e : Expr} (h : e.nonneg = true) : ofInfix? e.fullText = some e := by
  have hfactor := reads_fullText h Text.noDigit_nil
  rw [List.append_nil] at hfactor
  have hproduct : Reads .product none _ e [] := .first (by decide) hfactor (.ended .product e)
  exact ofInfix?_eq_some_iff.2 (.first (by decide) hproduct (.ended .sum e))

/-- How a fully bracketed text can begin. -/
lemma toList_fullText_cases (e : Expr) :
    (∃ n, e.fullText.toList = Nat.toDigits 10 n) ∨
    (∃ v n, e = operand v ∧ e.fullText.toList = '-' :: Nat.toDigits 10 n) ∨
    (∃ cs, e.fullText.toList = '(' :: cs) := by
  cases e with
  | operand v =>
    by_cases hv : 0 ≤ v.toInt
    · exact .inl ⟨_, Text.toList_spelling_of_nonneg hv⟩
    · exact .inr (.inl ⟨v, _, rfl, Text.toList_spelling_of_neg (by omega)⟩)
  | binary op l r => exact .inr (.inr ⟨_, toList_bracketed _⟩)
  | negate x => exact .inr (.inr ⟨_, toList_bracketed _⟩)

/-- The minus of a negation is told from that of a negative leaf by what follows its digits. -/
lemma minus_fullText_ne {x l : Expr} {op : BinaryOp} {rest tail : List Char} :
    '-' :: (x.fullText.toList ++ ')' :: rest) ≠ l.fullText.toList ++ signOf op :: tail := by
  intro h
  rcases l.toList_fullText_cases with ⟨n, hl⟩ | ⟨v, n, -, hl⟩ | ⟨cs, hl⟩
  · rw [hl] at h
    exact Text.toDigits_append_ne_cons rfl _ _ h.symm
  · rw [hl, List.cons_append] at h
    have htail := (List.cons.inj h).2
    rcases x.toList_fullText_cases with ⟨m, hx⟩ | ⟨w, m, -, hx⟩ | ⟨ds, hx⟩
    · rw [hx] at htail
      have hrest := (Text.toDigits_append_inj (noDigit_close rest) (noDigit_signOf op tail) htail).2
      have hsign : ')' = signOf op := (List.cons.inj hrest).1
      cases op <;> simp [signOf] at hsign
    · rw [hx] at htail
      exact Text.toDigits_append_ne_cons rfl _ _ htail.symm
    · rw [hx] at htail
      exact Text.toDigits_append_ne_cons rfl _ _ htail.symm
  · rw [hl] at h
    simp at h

/-- The text of an expression ends at a place of its own, and what it says is one expression. -/
theorem fullText_append_inj {e e' : Expr} {rest rest' : List Char} (hr : Text.NoDigit rest)
    (hr' : Text.NoDigit rest') (h : e.fullText.toList ++ rest = e'.fullText.toList ++ rest') :
    e = e' ∧ rest = rest' := by
  induction e generalizing e' rest rest' with
  | operand v =>
    cases e' with
    | operand w =>
      obtain ⟨hvalue, hrest⟩ := Text.spelling_append_inj hr hr' h
      exact ⟨congrArg operand (Int32.toInt_inj.1 hvalue), hrest⟩
    | binary op l r =>
      rw [toList_fullText_binary] at h
      exact absurd h (Text.spelling_append_ne_cons rfl (by decide) _ _)
    | negate x =>
      rw [toList_fullText_negate] at h
      exact absurd h (Text.spelling_append_ne_cons rfl (by decide) _ _)
  | binary op l r ihl ihr =>
    rw [toList_fullText_binary] at h
    cases e' with
    | operand w => exact absurd h.symm (Text.spelling_append_ne_cons rfl (by decide) _ _)
    | binary op' l' r' =>
      rw [toList_fullText_binary] at h
      obtain ⟨rfl, hright⟩ := ihl (noDigit_signOf _ _) (noDigit_signOf _ _) (List.cons.inj h).2
      obtain ⟨hsign, hright⟩ := List.cons.inj hright
      obtain ⟨rfl, hrest⟩ := ihr (noDigit_close _) (noDigit_close _) hright
      exact ⟨by rw [signOf_injective hsign], (List.cons.inj hrest).2⟩
    | negate x =>
      rw [toList_fullText_negate] at h
      exact absurd (List.cons.inj h).2.symm minus_fullText_ne
  | negate x ih =>
    rw [toList_fullText_negate] at h
    cases e' with
    | operand w => exact absurd h.symm (Text.spelling_append_ne_cons rfl (by decide) _ _)
    | binary op l r =>
      rw [toList_fullText_binary] at h
      exact absurd (List.cons.inj h).2 minus_fullText_ne
    | negate y =>
      rw [toList_fullText_negate] at h
      obtain ⟨rfl, hrest⟩ := ih (noDigit_close _) (noDigit_close _)
        (List.cons.inj (List.cons.inj h).2).2
      exact ⟨rfl, (List.cons.inj hrest).2⟩

/-- The bracketed text of an expression, which every builder gives, is read as that expression
unless there is a negative leaf; whatever the leaves, no other expression has the same text. -/
theorem fullText_roundTrip (e : Expr) :
    (∀ {β : Type} {kit : Assembly.Kit β}, kit.Lawful → e.renderFull kit = .ok e.fullText) ∧
    (ofInfix? e.fullText = some e ↔ e.nonneg = true) ∧
    ∀ e' : Expr, e.fullText = e'.fullText ↔ e = e' := by
  refine ⟨fun lawful => renderFull_eq lawful e, ⟨nonneg_of_ofInfix?, ofInfix?_fullText⟩,
    fun e' => ⟨fun h => ?_, fun h => by rw [h]⟩⟩
  exact (fullText_append_inj Text.noDigit_nil Text.noDigit_nil (by rw [h])).1

/-- A negation, a negative leaf and a difference of negative leaves, all told apart. -/
example : [(negate (operand 5)).fullText, (operand (-5)).fullText, (negate (operand (-5))).fullText,
    (binary .sub (operand (-5)) (operand (-5))).fullText] = ["(-5)", "-5", "(--5)", "(-5--5)"] := by
  decide

end PrefixCalc.Expr
