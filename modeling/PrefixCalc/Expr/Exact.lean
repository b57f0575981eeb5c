import PrefixCalc.Expr.Basic

/-! The value of an expression over the unbounded integers, with quotients cut toward zero and no
value where a divisor is zero. -/
namespace PrefixCalc

namespace BinaryOp

def unbounded? (op : BinaryOp) (a b : Int) : Option Int :=
  match op with
  | add => some (a + b)
  | sub => some (a - b)
  | mul => some (a * b)
  | div => if b = 0 then none else some (a.tdiv b)

theorem unbounded?_eq_none_iff {op : BinaryOp} {a b : Int} :
    op.unbounded? a b = none ↔ op = div ∧ b = 0 := by
  cases op <;> simp [unbounded?]

end BinaryOp

namespace Expr

/-- The value, when negation is this function. -/
def exactBy (negated : Int → Int) : Expr → Option Int
  | operand v => some v.toInt
  | binary op l r => do op.unbounded? (← l.exactBy negated) (← r.exactBy negated)
  | negate x => (x.exactBy negated).map negated

def exactValue? (e : Expr) : Option Int := e.exactBy fun n => -n

/-- Negation that leaves the least word alone, as negation of words does. -/
def wordNegated (n : Int) : Int := if n = leastWord then leastWord else -n

def referenceValue? (e : Expr) : Option Int := e.exactBy wordNegated

theorem wordNegated_toInt (v : Int32) : wordNegated v.toInt = (negateWrapping v).toInt :=
  (toInt_negateWrapping v).symm

end Expr
end PrefixCalc
