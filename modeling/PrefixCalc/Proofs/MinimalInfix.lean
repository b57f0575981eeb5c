import PrefixCalc.Expr.Exact
import PrefixCalc.Expr.Infix
import PrefixCalc.Proofs.InfixReading

/-! Infix text with few brackets. A chain of operators of one level is read from the left, whatever
shape it was written from; `regroup` computes the expression that is read. Regrouping keeps the
value of sums and products, and could only change it behind a minus or a division sign. -/
namespace PrefixCalc.Expr

namespace InfixReading

/-- What stands in front of a text on the same level. -/
inductive Front where
  | start
  | after (left : Expr) (op : BinaryOp)

namespace Front

def join : Front → Expr → Expr
  | start, x => x
  | after left op, x => binary op left x

def before : Front → Option Expr
  | start => none
  | after left _ => some left

def signs : Front → List Char
  | start => []
  | after _ op => [signOf op]

/-- Whether a chain that began with the front goes on at an operator. -/
def goesOn : Front → BinaryOp → Bool
  | start, _ => true
  | after _ op, op' => levelOf op = levelOf op'

def On (level : Level) : Front → Prop
  | start => True
  | after _ op => levelOf op = level

@[simp] lemma join_start (x : Expr) : start.join x = x := rfl
@[simp] lemma join_after (left : Expr) (op : BinaryOp) (x : Expr) :
    (after left op).join x = binary op left x := rfl

lemma goesOn_of_on {front : Front} {op : BinaryOp} (h : front.On (levelOf op)) :
    front.goesOn op = true := by
  cases front with
  | start => rfl
  | after left op' => exact decide_eq_true h

end Front

/-- The expression that is read where the text of an expression stands behind a front. -/
def regroup (front : Front) : Expr → Expr
  | operand v => front.join (operand v)
  | negate x => front.join (negate (regroup .start x))
  | binary op l r =>
    let inner := if front.goesOn op then front else .start
    let outer := if front.goesOn op then .start else front
    let left := if wrapsLeft op l then inner.join (regroup .start l) else regroup inner l
    outer.join (if wrapsRight op r then binary op left (regroup .start r)
      else regroup (.after left op) r)

def regroupPart (front : Front) (wrap : Bool) (x : Expr) : Expr :=
  if wrap then front.join (regroup .start x) else regroup front x

lemma regroup_of_goesOn {front : Front} {op : BinaryOp} (h : front.goesOn op = true) (l r : Expr) :
    regroup front (binary op l r) =
      regroupPart (.after (regroupPart front (wrapsLeft op l) l) op) (wrapsRight op r) r := by
  simp [regroup, h, regroupPart]

lemma regroup_of_not_goesOn {front : Front} {op : BinaryOp} (h : front.goesOn op = false)
    (l r : Expr) : regroup front (binary op l r) = front.join (regroup .start (binary op l r)) := by
  simp [regroup, h]

/-- A product in a sum is regrouped on its own. -/
lemma regroup_of_product {front : Front} {op : BinaryOp} (hf : front.On .sum)
    (hop : levelOf op = .product) (l r : Expr) :
    regroup front (binary op l r) = front.join (regroup .start (binary op l r)) := by
  cases front with
  | start => rfl
  | after left op' =>
    have hlevel : levelOf op' = .sum := hf
    exact regroup_of_not_goesOn (by simp [Front.goesOn, hlevel, hop]) l r

/-- Whether the text of an expression, without brackets around it, is a text of this level. -/
def standsOn (level : Level) (e : Expr) : Prop :=
  ∀ op, e.binaryOp? = some op → level = .sum ∨ level = levelOf op

lemma standsOn_sum (e : Expr) : standsOn .sum e := fun _ _ => .inl rfl

lemma standsOn_left {op : BinaryOp} {l : Expr} (h : wrapsLeft op l = false) :
    standsOn (levelOf op) l := by
  cases op with
  | add | sub => exact standsOn_sum l
  | mul | div =>
    cases l with
    | operand _ | negate _ => simp [standsOn, binaryOp?]
    | binary op' _ _ =>
      simp only [wrapsLeft, barePart, isOperand, isBinary_binary, Bool.false_or, Bool.not_eq_false',
        decide_eq_true_eq] at h
      simp [standsOn, binaryOp?, h]

lemma standsOn_right {op : BinaryOp} {r : Expr} (h : wrapsRight op r = false) :
    standsOn (levelOf op) r := by
  cases op with
  | add | sub => exact standsOn_sum r
  | mul | div => exact standsOn_left h

lemma standsOn_negated {x : Expr} (h : wrapsNegated x = false) : standsOn .factor x := by
  cases x with
  | operand _ | negate _ => simp [standsOn, binaryOp?]
  | binary _ _ _ => simp [wrapsNegated, isOperand, isNegation] at h

/-- Nothing in front of this text goes on into it, except a chain of the level itself. -/
structure Ends (level : Level) (rest : List Char) : Prop where
  noDigit : Text.NoDigit rest
  noProduct : level = .sum → ∀ c ∈ rest.head?, operator? .product c = none

lemma ends_close (level : Level) (rest : List Char) : Ends level (')' :: rest) :=
  ⟨noDigit_close rest, fun _ => by simp [operator?_close]⟩

lemma ends_signOf (op : BinaryOp) (rest : List Char) : Ends (levelOf op) (signOf op :: rest) := by
  refine ⟨noDigit_signOf op rest, fun h => ?_⟩
  cases op <;> simp_all [levelOf, signOf, operator?]

lemma Ends.mono {level : Level} {rest : List Char} (h : Ends .sum rest) : Ends level rest :=
  ⟨h.noDigit, fun _ => h.noProduct rfl⟩

/-- A factor is a part of every level. -/
lemma reads_tighter {level : Level} {cs rest : List Char} {x : Expr}
    (h : Reads .factor none cs x rest) (hr : Ends level rest) :
    Reads level.tighter none cs x rest := by
  cases level with
  | factor | product => exact h
  | sum => exact .first (by decide) h (.stop (hr.noProduct rfl))

lemma eq_of_reads_factor {x e : Expr} {cs rest : List Char}
    (h : Reads .factor (some x) cs e rest) : e = x ∧ rest = cs := by
  cases h with
  | next sign _ _ => simp [operator?] at sign
  | stop _ => exact ⟨rfl, rfl⟩

/-- A part behind a front is joined to it, and the level goes on from there. -/
lemma reads_join {level : Level} {front : Front} {cs mid rest : List Char} {x e : Expr}
    (hf : front.On level) (part : Reads level.tighter none cs x mid)
    (onward : Reads level (some (front.join x)) mid e rest) :
    Reads level front.before (front.signs ++ cs) e rest := by
  cases front with
  | start =>
    cases level with
    | factor =>
      obtain ⟨rfl, rfl⟩ := eq_of_reads_factor onward
      exact part
    | product | sum => exact .first (by decide) part onward
  | after left op =>
    have hlevel : levelOf op = level := hf
    subst hlevel
    exact .next (operator?_signOf op) part onward

/-- Behind any front, the text of the expression is read as its regrouping. -/
structure ReadBack (x : Expr) : Prop where
  read : ∀ {level : Level} (front : Front) {rest rest' : List Char} {e : Expr}, front.On level →
    standsOn level x → Ends level rest → Reads level (some (regroup front x)) rest e rest' →
    Reads level front.before (front.signs ++ (x.minimalText.toList ++ rest)) e rest'

namespace ReadBack

lemma bracketed {x : Expr} (h : ReadBack x) (rest : List Char) :
    Reads .factor none ((bracketed x.minimalText).toList ++ rest) (regroup .start x) rest := by
  have hinside : Reads .sum none (x.minimalText.toList ++ ')' :: rest) (regroup .start x)
      (')' :: rest) :=
    h.read .start trivial (standsOn_sum x) (ends_close .sum rest) (.close .sum _ rest)
  rw [toList_bracketed]
  simpa using Reads.brackets hinside

/-- An operand of an operation is read back with or without its brackets. -/
lemma part {x : Expr} (h : ReadBack x) (wrap : Bool) {level : Level} (front : Front)
    {rest rest' : List Char} {e : Expr} (hf : front.On level)
    (hs : wrap = false → standsOn level x) (hr : Ends level rest)
    (onward : Reads level (some (regroupPart front wrap x)) rest e rest') :
    Reads level front.before
      (front.signs ++ ((bracketIf wrap x.minimalText).toList ++ rest)) e rest' := by
  cases wrap with
  | false => exact h.read front hf (hs rfl) hr onward
  | true => exact reads_join hf (reads_tighter (h.bracketed rest) hr) onward

lemma negate {x : Expr} (h : ReadBack x) {rest : List Char} (hr : Text.NoDigit rest) :
    Reads .factor none ((negate x).minimalText.toList ++ rest) (negate (regroup .start x))
      rest := by
  have hr' : Ends .factor rest := ⟨hr, fun h => by simp at h⟩
  have hpart := h.part (wrapsNegated x) .start trivial standsOn_negated hr'
    (.stop (by simp [operator?]))
  have hx : regroupPart .start (wrapsNegated x) x = regroup .start x := by simp [regroupPart]
  rw [hx] at hpart
  simpa [minimalText, Operator.symbol, Front.signs] using Reads.minus hpart

/-- The two operands of an operation are read one after the other on its own level. -/
lemma binary (op : BinaryOp) {l r : Expr} (hl : ReadBack l) (hr : ReadBack r) (front : Front)
    {rest rest' : List Char} {e : Expr} (hf : front.On (levelOf op))
    (hrest : Ends (levelOf op) rest)
    (onward : Reads (levelOf op) (some (regroup front (binary op l r))) rest e rest') :
    Reads (levelOf op) front.before
      (front.signs ++ ((binary op l r).minimalText.toList ++ rest)) e rest' := by
  rw [regroup_of_goesOn (Front.goesOn_of_on hf)] at onward
  have hright := hr.part (wrapsRight op r) (.after _ op) rfl standsOn_right hrest onward
  have hleft := hl.part (wrapsLeft op l) front hf standsOn_left (ends_signOf op _) hright
  simpa [minimalText, toList_symbol, Front.signs] using hleft

end ReadBack

/-- Every minimal text is read, to the end and on any level that it stands on. -/
theorem readBack {e : Expr} (h : e.nonneg = true) : ReadBack e := by
  induction e with
  | operand v =>
    have hv : 0 ≤ v := by simpa [Expr.nonneg] using h
    constructor
    intro level front rest rest' e hf _ hr onward
    exact reads_join hf (reads_tighter (reads_spelling hv hr.noDigit) hr) onward
  | binary op l r ihl ihr =>
    obtain ⟨hl, hr⟩ : l.nonneg = true ∧ r.nonneg = true := by simpa [Expr.nonneg] using h
    constructor
    intro level front rest rest' e hf hs hrest onward
    by_cases hlevel : levelOf op = level
    · subst hlevel
      exact (ihl hl).binary op (ihr hr) front hf hrest onward
    · -- a product in a sum is read as a part of its own, and then joined
      obtain rfl : level = .sum := (hs op rfl).resolve_right fun h => hlevel h.symm
      have hproduct : levelOf op = .product := by cases op <;> simp_all [levelOf]
      have hpart := (ihl hl).binary op (ihr hr) .start trivial hrest.mono
        (.stop (hproduct ▸ hrest.noProduct rfl))
      rw [hproduct] at hpart
      rw [regroup_of_product hf hproduct] at onward
      exact reads_join hf hpart onward
  | negate x ih =>
    constructor
    intro level front rest rest' e hf _ hr onward
    exact reads_join hf (reads_tighter ((ih h).negate hr.noDigit) hr) onward

lemma exactValue?_binary_congr {op : BinaryOp} {l l' r r' : Expr}
    (hl : l.exactValue? = l'.exactValue?) (hr : r.exactValue? = r'.exactValue?) :
    (binary op l r).exactValue? = (binary op l' r').exactValue? := by
  simp only [exactValue?, exactBy] at *
  rw [hl, hr]

lemma exactValue?_negate_congr {x y : Expr} (h : x.exactValue? = y.exactValue?) :
    (negate x).exactValue? = (negate y).exactValue? := by
  simp only [exactValue?, exactBy] at *
  rw [h]

lemma exactValue?_join_congr {front : Front} {x y : Expr} (h : x.exactValue? = y.exactValue?) :
    (front.join x).exactValue? = (front.join y).exactValue? := by
  cases front with
  | start => exact h
  | after left op => exact exactValue?_binary_congr rfl h

/-- The pairs of operators for which a chain may be regrouped to the left. -/
inductive Associates : BinaryOp → BinaryOp → Prop
  | addAdd : Associates .add .add
  | addSub : Associates .add .sub
  | mulMul : Associates .mul .mul

lemma Associates.exactValue?_eq {op op' : BinaryOp} (h : Associates op op') (a b c : Expr) :
    (binary op' (binary op a b) c).exactValue? = (binary op a (binary op' b c)).exactValue? := by
  simp only [exactValue?, exactBy]
  rcases a.exactBy fun n => -n with _ | a
  · simp
  rcases b.exactBy fun n => -n with _ | b
  · simp
  rcases c.exactBy fun n => -n with _ | c
  · cases h <;> simp [BinaryOp.unbounded?]
  cases h with
  | addAdd => simp [BinaryOp.unbounded?, Int.add_assoc]
  | addSub => simp [BinaryOp.unbounded?, Int.add_sub_assoc]
  | mulMul => simp [BinaryOp.unbounded?, Int.mul_assoc]

/-- No difference stands behind a minus, and no quotient behind a division sign. -/
def KeepsGroups (e : Expr) : Prop :=
  ∀ op l r, op = .sub ∨ op = .div → binary op l r ∈ e.postorder → r.isBinary op = false

lemma keepsGroups_binary {op : BinaryOp} {l r : Expr} (h : KeepsGroups (binary op l r)) :
    KeepsGroups l ∧ KeepsGroups r ∧ (op = .sub ∨ op = .div → r.isBinary op = false) := by
  refine ⟨fun op' a b hop hmem => h op' a b hop ?_, fun op' a b hop hmem => h op' a b hop ?_,
    fun hop => h op l r hop (mem_postorder_self _)⟩
  · simp [postorder, hmem]
  · simp [postorder, hmem]

lemma keepsGroups_negate {x : Expr} (h : KeepsGroups (negate x)) : KeepsGroups x :=
  fun op l r hop hmem => h op l r hop (by simp [postorder, hmem])

/-- What may stand behind a front without brackets and without a change of value. -/
def Front.Admits : Front → Expr → Prop
  | .start, _ => True
  | .after _ op, e => wrapsRight op e = false ∧ (op = .sub ∨ op = .div → e.isBinary op = false)

lemma associates_of_admits {left l r : Expr} {op op' : BinaryOp}
    (h : (Front.after left op).Admits (binary op' l r)) (hlevel : levelOf op = levelOf op') :
    Associates op op' := by
  obtain ⟨hwrap, hbinary⟩ := h
  cases op <;> cases op' <;>
    simp_all [levelOf, wrapsRight, barePart, isOperand] <;> constructor

/-- A part that needs no brackets for the reader needs none for its value either. -/
lemma admits_left {front : Front} {op : BinaryOp} {l r : Expr}
    (h : front.Admits (binary op l r)) (hgoes : front.goesOn op = true)
    (hwrap : wrapsLeft op l = false) : front.Admits l := by
  cases front with
  | start => trivial
  | after left op' =>
    cases associates_of_admits h (by simpa [Front.goesOn] using hgoes) with
    | addAdd | addSub => exact ⟨rfl, by simp⟩
    | mulMul => exact ⟨hwrap, by simp⟩

/-- Behind any front that admits the expression, regrouping it does not change the value. -/
structure ValueKept (x : Expr) : Prop where
  value_eq : ∀ front : Front, front.Admits x →
    (regroup front x).exactValue? = (front.join x).exactValue?

namespace ValueKept

lemma part {x : Expr} (h : ValueKept x) (wrap : Bool) (front : Front)
    (ha : wrap = false → front.Admits x) :
    (regroupPart front wrap x).exactValue? = (front.join x).exactValue? := by
  cases wrap with
  | false => exact h.value_eq front (ha rfl)
  | true => exact exactValue?_join_congr (h.value_eq .start trivial)

/-- The two operands of an operation that goes on with the front. -/
lemma binary {op : BinaryOp} {l r : Expr} (hl : ValueKept l) (hr : ValueKept r)
    (hright : op = .sub ∨ op = .div → r.isBinary op = false) (front : Front)
    (hf : front.Admits (binary op l r)) (hgoes : front.goesOn op = true) :
    (regroup front (binary op l r)).exactValue? = (front.join (binary op l r)).exactValue? := by
  rw [regroup_of_goesOn hgoes]
  have hleft := hl.part (wrapsLeft op l) front fun hwrap => admits_left hf hgoes hwrap
  have hwhole := hr.part (wrapsRight op r)
    (.after (regroupPart front (wrapsLeft op l) l) op) fun hwrap => ⟨hwrap, hright⟩
  rw [hwhole, Front.join_after, exactValue?_binary_congr hleft rfl]
  cases front with
  | start => rfl
  | after left op' =>
    have hassoc := associates_of_admits hf (by simpa [Front.goesOn] using hgoes)
    exact hassoc.exactValue?_eq left l r

end ValueKept

theorem valueKept {e : Expr} (h : KeepsGroups e) : ValueKept e := by
  induction e with
  | operand v => exact ⟨fun _ _ => rfl⟩
  | binary op l r ihl ihr =>
    obtain ⟨hl, hr, hright⟩ := keepsGroups_binary h
    constructor
    intro front hf
    cases hgoes : front.goesOn op with
    | true => exact (ihl hl).binary (ihr hr) hright front hf hgoes
    | false =>
      rw [regroup_of_not_goesOn hgoes]
      exact exactValue?_join_congr ((ihl hl).binary (ihr hr) hright .start trivial rfl)
  | negate x ih =>
    have hx := (ih (keepsGroups_negate h)).value_eq .start trivial
    exact ⟨fun _ _ => exactValue?_join_congr (exactValue?_negate_congr hx)⟩

end InfixReading

open InfixReading

def regrouped (e : Expr) : Expr := regroup .start e

/-- A text with few brackets is always read, as the regrouping of the expression that it spells. -/
theorem ofInfix?_minimalText {e : Expr} (h : e.nonneg = true) :
    ofInfix? e.minimalText = some e.regrouped := by
  have hread : Reads .sum none (e.minimalText.toList ++ []) e.regrouped [] :=
    (readBack h).read .start trivial (standsOn_sum e) ⟨Text.noDigit_nil, by simp⟩ (.ended .sum _)
  rw [List.append_nil] at hread
  exact ofInfix?_eq_some_iff.2 hread

theorem exactValue?_regrouped {e : Expr} (h : KeepsGroups e) :
    e.regrouped.exactValue? = e.exactValue? := (valueKept h).value_eq .start trivial

/-- Leaving out brackets changes no value, unless a difference stands behind a minus or a quotient
behind a division sign: the text that every builder gives is read as an expression with the same
value, or neither has one. -/
theorem minimalText_keeps_value {e : Expr} (hnonneg : e.nonneg = true)
    (hsub : ∀ l r, binary .sub l r ∈ e.postorder → r.isBinary .sub = false)
    (hdiv : ∀ l r, binary .div l r ∈ e.postorder → r.isBinary .div = false) :
    (∀ {β : Type} {kit : Assembly.Kit β}, kit.Lawful → e.renderMinimal kit = .ok e.minimalText) ∧
    ∃ e', ofInfix? e.minimalText = some e' ∧ e'.exactValue? = e.exactValue? := by
  refine ⟨fun lawful => renderMinimal_eq lawful e, e.regrouped, ofInfix?_minimalText hnonneg,
    exactValue?_regrouped ?_⟩
  rintro op l r (rfl | rfl) hmem
  · exact hsub l r hmem
  · exact hdiv l r hmem

/-- The text `1+8/(2*3*4)-5+-7` is read with another shape. -/
theorem minimalText_keeps_value_of_chain :
    let e := binary .add (operand 1) (binary .add (binary .sub (binary .div (operand 8)
      (binary .mul (operand 2) (binary .mul (operand 3) (operand 4)))) (operand 5))
      (negate (operand 7)))
    e.nonneg = true ∧ (∀ l r, binary .sub l r ∈ e.postorder → r.isBinary .sub = false) ∧
      (∀ l r, binary .div l r ∈ e.postorder → r.isBinary .div = false) ∧
      ofInfix? e.minimalText ≠ some e ∧
      ∃ e', ofInfix? e.minimalText = some e' ∧ e'.exactValue? = e.exactValue? := by
  intro e
  have hsub : ∀ l r, binary .sub l r ∈ e.postorder → r.isBinary .sub = false := by
    simp [e, postorder]
  have hdiv : ∀ l r, binary .div l r ∈ e.postorder → r.isBinary .div = false := by
    simp [e, postorder]
  exact ⟨by decide, hsub, hdiv, by decide, (minimalText_keeps_value (by decide) hsub hdiv).2⟩

end PrefixCalc.Expr
