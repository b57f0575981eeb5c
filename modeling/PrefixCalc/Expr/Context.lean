import PrefixCalc.Expr.Basic

/-! An expression with one sub-expression cut out. -/
namespace PrefixCalc.Expr

inductive Context where
  | hole
  | left (op : BinaryOp) (part : Context) (right : Expr)
  | right (op : BinaryOp) (left : Expr) (part : Context)
  | negate (part : Context)
  deriving DecidableEq, Repr

namespace Context

def fill : Context → Expr → Expr
  | hole, e => e
  | left op c r, e => .binary op (c.fill e) r
  | right op l c, e => .binary op l (c.fill e)
  | negate c, e => .negate (c.fill e)

theorem fill_injective (c : Context) {e e' : Expr} (h : c.fill e = c.fill e') : e = e' := by
  induction c with
  | hole => exact h
  | left op c r ih => exact ih (Expr.binary.inj h).2.1
  | right op l c ih => exact ih (Expr.binary.inj h).2.2
  | negate c ih => exact ih (Expr.negate.inj h)

end Context
end PrefixCalc.Expr
