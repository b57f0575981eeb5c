import PrefixCalc.Fault
import PrefixCalc.Operator
import PrefixCalc.Text.Numeral

/-! Tokens of the expression language: the five operators and the non-negative 32-bit numerals. A
text is first found to be of some kind, and then the token is built from kind and text. -/
namespace PrefixCalc

inductive Token where
  | operand (value : Int32)
  | operator (op : Operator)
  deriving DecidableEq, Repr

namespace Token

/-- A numeral may carry a sign and leading zeros, but a negative word is no operand, so that a minus
can only stand in front of zero. -/
def operand? (text : String) : Option Int32 := (Text.word? text.toList).filter (0 ≤ ·)

inductive Kind where
  | operand
  | operator (op : Operator)
  deriving DecidableEq, Repr

def Kind.read (text : String) : Except Fault Kind :=
  match Operator.ofToken? text with
  | some op => .ok (.operator op)
  | none =>
    match operand? text with
    | some _ => .ok .operand
    | none => .error .format

def kind? (text : String) : Option Kind := (Kind.read text).toOption

/-- The token of this kind; the value of an operand is read from the text. -/
def build : Kind → String → Option Token
  | .operand, text => (operand? text).map operand
  | .operator op, _ => some (operator op)

/-- The token that a text stands for. -/
def classify (text : String) : Option Token :=
  match Operator.ofToken? text with
  | some op => some (operator op)
  | none => (operand? text).map operand

/-- How many more expressions are on a stack after the token than before it. -/
def gain : Token → Int
  | operand _ => 1
  | operator (.binary _) => -1
  | operator .negate => 0

theorem operand?_eq_some_iff {text : String} {v : Int32} :
    operand? text = some v ↔ Text.integer? text.toList = some v.toInt ∧ 0 ≤ v := by
  rw [operand?, Option.filter_eq_some_iff, Text.word?_eq_some_iff, decide_eq_true_eq]

theorem kind?_eq (text : String) :
    kind? text = match Operator.ofToken? text with
      | some op => some (.operator op)
      | none => (operand? text).map fun _ => .operand := by
  unfold kind? Kind.read
  cases Operator.ofToken? text with
  | some op => rfl
  | none => cases operand? text <;> rfl

/-- Finding the kind of a text and building from it finds the token. -/
theorem classify_eq (text : String) : classify text = (kind? text).bind (build · text) := by
  rw [kind?_eq, classify]
  cases Operator.ofToken? text with
  | some op => rfl
  | none => cases h : operand? text <;> simp [build, h]

theorem operand?_of_classify {text : String} {v : Int32} (h : classify text = some (operand v)) :
    operand? text = some v := by
  unfold classify at h
  split at h
  · simp at h
  · obtain ⟨w, hw, he⟩ := Option.map_eq_some_iff.1 h
    rw [hw, Token.operand.inj he]

theorem nonneg_of_classify {text : String} {v : Int32} (h : classify text = some (operand v)) :
    0 ≤ v := (operand?_eq_some_iff.1 (operand?_of_classify h)).2

@[simp] theorem classify_token (op : Operator) : classify op.token = some (operator op) := by
  simp [classify]

@[simp] theorem classify_binary_token (op : BinaryOp) :
    classify op.token = some (operator (.binary op)) := classify_token (.binary op)

theorem classify_eq_operator_iff {text : String} {op : Operator} :
    classify text = some (operator op) ↔ text = op.token := by
  constructor
  · intro h
    unfold classify at h
    split at h
    · rename_i op' hop
      obtain rfl := Token.operator.inj (Option.some.inj h)
      exact (Operator.ofToken?_eq_some_iff.1 hop).symm
    · obtain ⟨_, _, he⟩ := Option.map_eq_some_iff.1 h
      exact Token.noConfusion he
  · rintro rfl
    exact classify_token op

end Token
end PrefixCalc
