import PrefixCalc.Proofs.MinimalInfix

/-! When a text with few brackets is read as the very expression that it was written from: the
expression must be grouped to the left wherever a chain of operators stands without brackets. -/
namespace PrefixCalc.Expr
namespace InfixReading

/-- Whether an operation of the second kind to the right of the first is written without brackets
although it is on the same level. -/
def chains : BinaryOp → BinaryOp → Bool
  | .add, .add | .add, .sub | .sub, .sub | .mul, .mul | .div, .div => true
  | _, _ => false

/-- No sum or difference stands behind a plus, no difference behind a minus, no product behind a
multiplication sign and no quotient behind a division sign. -/
def LeftAssociated (e : Expr) : Prop :=
  ∀ op l r, binary op l r ∈ e.postorder → ∀ op', chains op op' = true → r.isBinary op' = false

lemma leftAssociated_operand (v : Int32) : LeftAssociated (operand v) := by
  simp [LeftAssociated, postorder]

lemma leftAssociated_binary {op : BinaryOp} {l r : Expr} :
    LeftAssociated (binary op l r) ↔ LeftAssociated l ∧ LeftAssociated r ∧
      ∀ op', chains op op' = true → r.isBinary op' = false := by
  constructor
  · intro h
    exact ⟨fun op' a b hmem => h op' a b (by simp [postorder, hmem]),
      fun op' a b hmem => h op' a b (by simp [postorder, hmem]), h op l r (mem_postorder_self _)⟩
  · rintro ⟨hl, hr, htop⟩ op' a b hmem
    simp only [postorder, List.mem_append, List.mem_singleton] at hmem
    obtain (hmem | hmem) | hmem := hmem
    · exact hl op' a b hmem
    · exact hr op' a b hmem
    · obtain ⟨rfl, rfl, rfl⟩ := Expr.binary.inj hmem
      exact htop

lemma leftAssociated_negate {x : Expr} : LeftAssociated (negate x) ↔ LeftAssociated x := by
  simp [LeftAssociated, postorder]

lemma regroupPart_start (wrap : Bool) (x : Expr) : regroupPart .start wrap x = regroup .start x := by
  cases wrap <;> rfl

lemma chains_iff {op op' : BinaryOp} {a b : Expr} : chains op op' = true ↔
    wrapsRight op (binary op' a b) = false ∧ levelOf op = levelOf op' := by
  cases op <;> cases op' <;> simp [chains, wrapsRight, barePart, isOperand, levelOf]

/-- Whether what stands to the right of an operator goes on with its chain. -/
def Continues (op : BinaryOp) (r : Expr) : Prop := ∃ op', chains op op' = true ∧ r.isBinary op' = true

lemma regroupPart_of_not_continues {op : BinaryOp} {r : Expr} (h : ¬ Continues op r) (left : Expr) :
    regroupPart (.after left op) (wrapsRight op r) r = binary op left (regroup .start r) := by
  cases hwrap : wrapsRight op r with
  | true => rfl
  | false =>
    cases r with
    | operand v => rfl
    | negate x => rfl
    | binary op' a b =>
      apply regroup_of_not_goesOn
      have hlevel : levelOf op ≠ levelOf op' := by
        intro hlevel
        exact h ⟨op', chains_iff.2 ⟨hwrap, hlevel⟩, by simp⟩
      exact decide_eq_false hlevel

/-- An expression that is grouped to the left is regrouped as it is. -/
theorem regroup_of_leftAssociated {e : Expr} (h : LeftAssociated e) : regroup .start e = e := by
  induction e with
  | operand v => rfl
  | binary op l r ihl ihr =>
    obtain ⟨hl, hr, htop⟩ := leftAssociated_binary.1 h
    have hright : ¬ Continues op r := by
      rintro ⟨op', hchains, hop'⟩
      rw [htop op' hchains] at hop'
      exact Bool.noConfusion hop'
    rw [regroup_of_goesOn rfl, regroupPart_start, ihl hl, regroupPart_of_not_continues hright, ihr hr]
  | negate x ih =>
    change negate (regroup .start x) = negate x
    rw [ih (leftAssociated_negate.1 h)]

lemma operators_join_congr {front : Front} {x y : Expr} (h : x.operators = y.operators) :
    (front.join x).operators = (front.join y).operators := by
  cases front with
  | start => exact h
  | after left op => simp [operators, h]

lemma operators_regroupPart {x : Expr}
    (h : ∀ front : Front, (regroup front x).operators = (front.join x).operators) (front : Front)
    (wrap : Bool) : (regroupPart front wrap x).operators = (front.join x).operators := by
  cases wrap with
  | false => exact h front
  | true => exact operators_join_congr (h .start)

/-- Regrouping keeps all operators. -/
lemma operators_regroup (front : Front) (x : Expr) :
    (regroup front x).operators = (front.join x).operators := by
  induction x generalizing front with
  | operand v => rfl
  | binary op l r ihl ihr =>
    have hchain : ∀ front : Front, front.goesOn op = true →
        (regroup front (binary op l r)).operators = (front.join (binary op l r)).operators := by
      intro front hgoes
      rw [regroup_of_goesOn hgoes, operators_regroupPart ihr, Front.join_after, operators,
        operators_regroupPart ihl]
      cases front with
      | start => rfl
      | after left op' =>
        simp only [Front.join_after, operators]
        omega
    cases hgoes : front.goesOn op with
    | true => exact hchain front hgoes
    | false =>
      rw [regroup_of_not_goesOn hgoes]
      exact operators_join_congr (hchain .start rfl)
  | negate x ih => exact operators_join_congr (congrArg (· + 1) (ih .start))

/-- What stands in front of an expression ends up in the left operand of the regrouping. -/
lemma exists_regroupPart_after (x left : Expr) (op : BinaryOp) (wrap : Bool) :
    ∃ op' l r, regroupPart (.after left op) wrap x = binary op' l r ∧
      left.operators ≤ l.operators := by
  induction x generalizing left op wrap with
  | operand v => exact ⟨op, left, operand v, by cases wrap <;> rfl, Nat.le_refl _⟩
  | binary op' a b iha ihb =>
    by_cases hjoined : wrap = false ∧ (Front.after left op).goesOn op' = true
    · obtain ⟨rfl, hgoes⟩ := hjoined
      obtain ⟨op₁, l₁, r₁, hfirst, hle₁⟩ := iha left op (wrapsLeft op' a)
      obtain ⟨op₂, l₂, r₂, hsecond, hle₂⟩ := ihb (binary op₁ l₁ r₁) op' (wrapsRight op' b)
      refine ⟨op₂, l₂, r₂, ?_, ?_⟩
      · rw [← hfirst] at hsecond
        exact (regroup_of_goesOn hgoes a b).trans hsecond
      · simp only [operators] at hle₂
        omega
    · refine ⟨op, left, regroup .start (binary op' a b), ?_, Nat.le_refl _⟩
      cases wrap with
      | true => rfl
      | false => exact regroup_of_not_goesOn (by simpa using hjoined) a b
  | negate x ih => exact ⟨op, left, negate (regroup .start x), by cases wrap <;> rfl, Nat.le_refl _⟩

/-- An expression that goes on with the chain in front of it takes that chain into its left
operand, which then is larger than before. -/
lemma regroupPart_ne_of_continues {op : BinaryOp} {left l r r' : Expr} (h : Continues op r)
    (hsize : left.operators = l.operators) :
    regroupPart (.after left op) (wrapsRight op r) r ≠ binary op l r' := by
  obtain ⟨op', hchains, hop'⟩ := h
  obtain ⟨a, b, rfl⟩ : ∃ a b, r = binary op' a b := by
    cases r with
    | operand v => simp at hop'
    | binary op'' a b => exact ⟨a, b, by simpa using hop'⟩
    | negate x => simp at hop'
  obtain ⟨hwrap, hlevel⟩ := chains_iff.1 hchains
  have hgoes : (Front.after left op).goesOn op' = true := decide_eq_true hlevel
  obtain ⟨op₁, l₁, r₁, hfirst, hle₁⟩ := exists_regroupPart_after a left op (wrapsLeft op' a)
  obtain ⟨op₂, l₂, r₂, hsecond, hle₂⟩ :=
    exists_regroupPart_after b (binary op₁ l₁ r₁) op' (wrapsRight op' b)
  intro heq
  rw [hwrap, regroupPart, if_neg Bool.false_ne_true, regroup_of_goesOn hgoes, hfirst, hsecond] at heq
  rw [(Expr.binary.inj heq).2.1] at hle₂
  simp only [operators] at hle₂
  omega

/-- Only an expression that is grouped to the left stays as it is. -/
theorem leftAssociated_of_regroup {e : Expr} (h : regroup .start e = e) : LeftAssociated e := by
  induction e with
  | operand v => exact leftAssociated_operand v
  | binary op l r ihl ihr =>
    rw [regroup_of_goesOn rfl, regroupPart_start] at h
    have hright : ¬ Continues op r :=
      fun hright => regroupPart_ne_of_continues hright (operators_regroup .start l) h
    rw [regroupPart_of_not_continues hright] at h
    obtain ⟨-, hl, hr⟩ := Expr.binary.inj h
    refine leftAssociated_binary.2 ⟨ihl hl, ihr hr, fun op' hchains => ?_⟩
    by_contra hop'
    exact hright ⟨op', hchains, by simpa using hop'⟩
  | negate x ih => exact leftAssociated_negate.2 (ih (Expr.negate.inj h))

end InfixReading

open InfixReading

theorem ofInfix?_minimalText_iff {e : Expr} :
    ofInfix? e.minimalText = some e ↔ e.nonneg = true ∧ LeftAssociated e := by
  constructor
  · intro h
    have hnonneg := nonneg_of_ofInfix? h
    rw [ofInfix?_minimalText hnonneg] at h
    exact ⟨hnonneg, leftAssociated_of_regroup (Option.some.inj h)⟩
  · rintro ⟨hnonneg, hleft⟩
    rw [ofInfix?_minimalText hnonneg, regrouped, regroup_of_leftAssociated hleft]

/-- A text with few brackets, which every builder gives, is always infix text. It is read as the
expression that it was written from if all chains in it are grouped to the left, and only then; no
two such expressions have the same text. -/
theorem minimalText_read_exactly :
    (∀ {β : Type} {kit : Assembly.Kit β}, kit.Lawful →
      ∀ e : Expr, e.renderMinimal kit = .ok e.minimalText) ∧
    (∀ e : Expr, e.nonneg = true → ∃ e', ofInfix? e.minimalText = some e') ∧
    (∀ e : Expr, ofInfix? e.minimalText = some e ↔ e.nonneg = true ∧ LeftAssociated e) ∧
    (∀ e e' : Expr, e.nonneg = true → LeftAssociated e → e'.nonneg = true → LeftAssociated e' →
      e.minimalText = e'.minimalText → e = e') := by
  refine ⟨renderMinimal_eq, fun e h => ⟨e.regrouped, ofInfix?_minimalText h⟩,
    fun e => ofInfix?_minimalText_iff, ?_⟩
  intro e e' hnonneg hleft hnonneg' hleft' htext
  have hread := ofInfix?_minimalText_iff.2 ⟨hnonneg, hleft⟩
  have hread' := ofInfix?_minimalText_iff.2 ⟨hnonneg', hleft'⟩
  rw [htext, hread'] at hread
  exact (Option.some.inj hread).symm

/-- The text `2*3*4--5`, with the product grouped to the left, is read as it was written. -/
theorem minimalText_read_exactly_of_product :
    let e := binary .sub (binary .mul (binary .mul (operand 2) (operand 3)) (operand 4))
      (negate (operand 5))
    (e.nonneg = true ∧ LeftAssociated e) ∧ ofInfix? e.minimalText = some e := by
  intro e
  have hclass : e.nonneg = true ∧ LeftAssociated e := by
    refine ⟨by decide, ?_⟩
    simp [e, leftAssociated_binary, leftAssociated_negate, leftAssociated_operand]
  exact ⟨hclass, (minimalText_read_exactly.2.2.1 e).2 hclass⟩

/-- The text `5-2-3` is read with the grouping to the left. -/
example : ofInfix? (binary .sub (operand 5) (binary .sub (operand 2) (operand 3))).minimalText =
    some (binary .sub (binary .sub (operand 5) (operand 2)) (operand 3)) := by decide

end PrefixCalc.Expr
