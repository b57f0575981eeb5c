import PrefixCalc.Operator
import PrefixCalc.Text.Numeral

/-! Expressions, their predicates, and the two texts that follow their structure: the tokens in
prefix order and the text in the manner of constructors. A leaf may hold any word, although a
reader only ever makes non-negative ones. -/
namespace PrefixCalc

inductive Expr where
  | operand (value : Int32)
  | binary (op : BinaryOp) (left right : Expr)
  | negate (operand : Expr)
  deriving DecidableEq, Repr

/-- Why a leaf cannot be made. -/
inductive Defect where
  | negativeOperand
  deriving DecidableEq, Repr

def Defect.message : Defect → String
  | negativeOperand => "operands are non-negative"

namespace Expr

def leaf (value : Int32) : Except Defect Expr :=
  if 0 ≤ value then .ok (operand value) else .error .negativeOperand

def isOperand : Expr → Bool
  | operand _ => true
  | _ => false

def isOperator (e : Expr) : Bool := !e.isOperand

def isNegation : Expr → Bool
  | negate _ => true
  | _ => false

def binaryOp? : Expr → Option BinaryOp
  | binary op _ _ => some op
  | _ => none

def isBinary (op : BinaryOp) (e : Expr) : Bool := e.binaryOp? = some op

@[simp] theorem isBinary_binary (op op' : BinaryOp) (l r : Expr) :
    (binary op' l r).isBinary op = decide (op' = op) := by simp [isBinary, binaryOp?]

@[simp] theorem isBinary_operand (op : BinaryOp) (v : Int32) : (operand v).isBinary op = false := by
  simp [isBinary, binaryOp?]

@[simp] theorem isBinary_negate (op : BinaryOp) (x : Expr) : (negate x).isBinary op = false := by
  simp [isBinary, binaryOp?]

/-- No leaf holds a negative word. -/
def nonneg : Expr → Bool
  | operand v => 0 ≤ v
  | binary _ l r => l.nonneg && r.nonneg
  | negate x => x.nonneg

/-- How many operators there are. -/
def operators : Expr → Nat
  | operand _ => 0
  | binary _ l r => l.operators + r.operators + 1
  | negate x => x.operators + 1

/-- An operand's value or an operator's token. -/
def label : Expr → String
  | operand v => Text.spelling v.toInt
  | binary op _ _ => op.token
  | negate _ => Operator.negate.token

def tokens : Expr → List String
  | operand v => [Text.spelling v.toInt]
  | binary op l r => op.token :: (l.tokens ++ r.tokens)
  | negate x => Operator.negate.token :: x.tokens

def prefixText (e : Expr) : String := " ".intercalate e.tokens

def constructorText : Expr → String
  | operand v => Text.spelling v.toInt
  | binary op l r => op.name ++ "(" ++ l.constructorText ++ ", " ++ r.constructorText ++ ")"
  | negate x => Operator.negate.name ++ "(" ++ x.constructorText ++ ")"

/-- Every occurrence of a sub-expression, itself included: what stands below an operator comes
before it, and the left side before the right. -/
def postorder : Expr → List Expr
  | operand v => [operand v]
  | binary op l r => l.postorder ++ r.postorder ++ [binary op l r]
  | negate x => x.postorder ++ [negate x]

/-- The same occurrences with every operator before what stands below it. -/
def preorder : Expr → List Expr
  | operand v => [operand v]
  | binary op l r => binary op l r :: (l.preorder ++ r.preorder)
  | negate x => negate x :: x.preorder

theorem tokens_eq_map_label (e : Expr) : e.tokens = e.preorder.map label := by
  induction e with
  | operand v => rfl
  | binary op l r ihl ihr => simp [tokens, preorder, label, ihl, ihr]
  | negate x ih => simp [tokens, preorder, label, ih]

theorem mem_postorder_self (e : Expr) : e ∈ e.postorder := by cases e <;> simp [postorder]

theorem preorder_perm_postorder (e : Expr) : e.preorder.Perm e.postorder := by
  induction e with
  | operand v => exact List.Perm.refl _
  | binary op l r ihl ihr =>
    exact ((ihl.append ihr).cons _).trans (List.perm_append_singleton _ _).symm
  | negate x ih => exact (ih.cons _).trans (List.perm_append_singleton _ _).symm

/-- What is gathered from the operands first, with what an expression has of its own after it, is
gathered in post order. -/
theorem eq_filterMap_postorder {β : Type} {gather : Expr → List β} {own : Expr → Option β}
    (hoperand : ∀ v, gather (operand v) = (own (operand v)).toList)
    (hbinary : ∀ op l r,
      gather (binary op l r) = gather l ++ (gather r ++ (own (binary op l r)).toList))
    (hnegate : ∀ x, gather (negate x) = gather x ++ (own (negate x)).toList) (e : Expr) :
    gather e = e.postorder.filterMap own := by
  have hsingle (s : Expr) : (own s).toList = [s].filterMap own := by
    cases h : own s <;> simp [h]
  induction e with
  | operand v => rw [hoperand, hsingle, postorder]
  | binary op l r ihl ihr =>
    rw [hbinary, ihl, ihr, hsingle, postorder, List.filterMap_append, List.filterMap_append,
      List.append_assoc]
  | negate x ih => rw [hnegate, ih, hsingle, postorder, List.filterMap_append]

theorem nonneg_iff {e : Expr} : e.nonneg = true ↔ ∀ v, operand v ∈ e.postorder → 0 ≤ v := by
  induction e with
  | operand v => simp [nonneg, postorder]
  | binary op l r ihl ihr =>
    simp only [nonneg, postorder, Bool.and_eq_true, ihl, ihr, List.mem_append, List.mem_singleton,
      reduceCtorEq, or_false]
    constructor
    · intro h v hv
      exact hv.elim (h.1 v) (h.2 v)
    · intro h
      exact ⟨fun v hv => h v (.inl hv), fun v hv => h v (.inr hv)⟩
  | negate x ih => simpa [nonneg, postorder] using ih

end Expr
end PrefixCalc
