import PrefixCalc.Word

/-! The operators of the calculator and their arithmetic on 32-bit words and on binary64.
A checked operation answers only when the exact result fits into the word. -/
namespace PrefixCalc

inductive BinaryOp where
  | add | sub | mul | div
  deriving DecidableEq, Repr

namespace BinaryOp

def all : List BinaryOp := [add, sub, mul, div]

theorem mem_all (op : BinaryOp) : op ∈ all := by cases op <;> decide

def token : BinaryOp → String
  | add => "+"
  | sub => "-"
  | mul => "*"
  | div => "/"

/-- The sign written between two operands. -/
def symbol (op : BinaryOp) : String := op.token

def name : BinaryOp → String
  | add => "Add"
  | sub => "Subtract"
  | mul => "Multiply"
  | div => "Divide"

theorem token_injective {op op' : BinaryOp} (h : op.token = op'.token) : op = op' := by
  cases op <;> cases op' <;> simp_all [token]

theorem name_injective {op op' : BinaryOp} (h : op.name = op'.name) : op = op' := by
  cases op <;> cases op' <;> simp_all [name]

/-- Whether the word operation leaves the 32-bit range. The only such quotient is that of the
least word by -1; a zero divisor is not an overflow. -/
def overflows (op : BinaryOp) (a b : Int32) : Bool :=
  match op with
  | add => a.toBitVec.saddOverflow b.toBitVec
  | sub => a.toBitVec.ssubOverflow b.toBitVec
  | mul => a.toBitVec.smulOverflow b.toBitVec
  | div => a.toBitVec.sdivOverflow b.toBitVec

/-- The word operation, modulo 2^32; the quotient is cut toward zero. -/
def wrapping (op : BinaryOp) (a b : Int32) : Int32 :=
  match op with
  | add => a + b
  | sub => a - b
  | mul => a * b
  | div => a / b

def checked (op : BinaryOp) (a b : Int32) : Option Int32 :=
  if (op = div ∧ b = 0) ∨ op.overflows a b then none else some (op.wrapping a b)

theorem checked_div_zero (a : Int32) : checked div a 0 = none := by simp [checked]

def onFloat (op : BinaryOp) (a b : Float) : Float :=
  match op with
  | add => a + b
  | sub => a - b
  | mul => a * b
  | div => a / b

end BinaryOp

/-- Minus with a single operand has a token of its own, so that a reader of tokens never has to
guess which minus is meant; in infix text it is written like any other minus. -/
inductive Operator where
  | binary (op : BinaryOp)
  | negate
  deriving DecidableEq, Repr

namespace Operator

def all : List Operator := BinaryOp.all.map binary ++ [negate]

theorem mem_all (op : Operator) : op ∈ all := by
  cases op with
  | binary op => simp [all, BinaryOp.mem_all]
  | negate => simp [all]

def token : Operator → String
  | binary op => op.token
  | negate => "~"

def symbol : Operator → String
  | binary op => op.symbol
  | negate => "-"

def name : Operator → String
  | binary op => op.name
  | negate => "Negate"

/-- The operator that a token stands for. -/
def ofToken? (token : String) : Option Operator :=
  all.find? (·.token = token)

theorem token_injective {op op' : Operator} (h : op.token = op'.token) : op = op' := by
  rcases op with op | _ <;> rcases op' with op' | _
  · exact congrArg binary (BinaryOp.token_injective h)
  · cases op <;> simp [token, BinaryOp.token] at h
  · cases op' <;> simp [token, BinaryOp.token] at h
  · rfl

@[simp] theorem ofToken?_token (op : Operator) : ofToken? op.token = some op := by
  rcases op with op | _
  · cases op <;> rfl
  · rfl

theorem ofToken?_eq_some_iff {token : String} {op : Operator} :
    ofToken? token = some op ↔ op.token = token := by
  constructor
  · intro h
    simpa using List.find?_some h
  · rintro rfl
    exact ofToken?_token op

end Operator

def negateFloat (x : Float) : Float := -x

end PrefixCalc
