import PrefixCalc.Expr.Reading

/-! The prefix grammar, read from left to right: an operator stands in front of the token lists of
its operands. Counting says which lists can be divided up in this way. -/
namespace PrefixCalc

inductive Derives : List String → Expr → Prop
  | operand {token : String} {v : Int32} (read : Token.classify token = some (.operand v)) :
      Derives [token] (.operand v)
  | negate {tokens : List String} {x : Expr} (part : Derives tokens x) :
      Derives (Operator.negate.token :: tokens) (.negate x)
  | binary {op : BinaryOp} {ls rs : List String} {l r : Expr} (left : Derives ls l)
      (right : Derives rs r) : Derives (op.token :: (ls ++ rs)) (.binary op l r)

namespace Derives

theorem ne_nil {tokens : List String} {e : Expr} (h : Derives tokens e) : tokens ≠ [] := by
  cases h <;> simp

theorem nonneg {tokens : List String} {e : Expr} (h : Derives tokens e) : e.nonneg = true := by
  induction h with
  | operand read => simpa [Expr.nonneg] using Token.nonneg_of_classify read
  | negate _ ih => simpa [Expr.nonneg] using ih
  | binary _ _ ihl ihr => simp [Expr.nonneg, ihl, ihr]

end Derives

namespace Token

def isOperand (token : String) : Bool :=
  match classify token with
  | some (operand _) => true
  | _ => false

def isBinary (token : String) : Bool :=
  match classify token with
  | some (operator (.binary _)) => true
  | _ => false

def operands (tokens : List String) : Nat := tokens.countP isOperand

def binaries (tokens : List String) : Nat := tokens.countP isBinary

/-- An operand in its plain spelling; every other token as it is. -/
def respell (token : String) : String :=
  match operand? token with
  | some v => Text.spelling v.toInt
  | none => token

@[simp] theorem operands_append (a b : List String) : operands (a ++ b) = operands a + operands b :=
  List.countP_append

@[simp] theorem binaries_append (a b : List String) : binaries (a ++ b) = binaries a + binaries b :=
  List.countP_append

theorem operands_cons_operand {token : String} {v : Int32}
    (h : classify token = some (operand v)) (tokens : List String) :
    operands (token :: tokens) = operands tokens + 1 := by
  simp [operands, isOperand, h]

theorem binaries_cons_operand {token : String} {v : Int32}
    (h : classify token = some (operand v)) (tokens : List String) :
    binaries (token :: tokens) = binaries tokens := by
  simp [binaries, isBinary, h]

@[simp] theorem operands_cons_operator (op : Operator) (tokens : List String) :
    operands (op.token :: tokens) = operands tokens := by
  simp [operands, isOperand]

@[simp] theorem operands_cons_binary (op : BinaryOp) (tokens : List String) :
    operands (op.token :: tokens) = operands tokens := operands_cons_operator (.binary op) tokens

@[simp] theorem binaries_cons_negate (tokens : List String) :
    binaries (Operator.negate.token :: tokens) = binaries tokens := by
  simp [binaries, isBinary]

@[simp] theorem binaries_cons_binary (op : BinaryOp) (tokens : List String) :
    binaries (op.token :: tokens) = binaries tokens + 1 := by
  simp [binaries, isBinary]

end Token
end PrefixCalc
