import PrefixCalc.Expr.Basic

/-! Reading infix text. Products and quotients bind tighter than sums and differences, all four
group to the left, a minus in front of a factor binds tightest and may be repeated, and brackets
group. A number is a run of digits whose value is a word. -/
namespace PrefixCalc.Expr

namespace InfixReading

/-- Loosest level first. -/
inductive Level where
  | sum | product | factor
  deriving DecidableEq, Repr

/-- The operator that a sign joins two parts of a level with. -/
def operator? : Level → Char → Option BinaryOp
  | .sum, '+' => some .add
  | .sum, '-' => some .sub
  | .product, '*' => some .mul
  | .product, '/' => some .div
  | _, _ => none

def Level.tighter : Level → Level
  | sum => product
  | product => factor
  | factor => factor

def number? (cs : List Char) : Option (Expr × List Char) := do
  let n ← Text.natural? (cs.takeWhile Char.isDigit)
  if (n : Int) ≤ greatestWord then some (operand (Int32.ofNat n), cs.dropWhile Char.isDigit) else none

mutual

/-- Reads as much as belongs to a level, with this much fuel, and what is left of the text. -/
def read : Nat → Level → List Char → Option (Expr × List Char)
  | 0, _, _ => none
  | n + 1, .factor, cs =>
    match cs with
    | '-' :: cs => do
      let s ← read n .factor cs
      some (negate s.1, s.2)
    | '(' :: cs => do
      let s ← read n .sum cs
      match s.2 with
      | ')' :: rest => some (s.1, rest)
      | _ => none
    | cs => number? cs
  | n + 1, level, cs => do
    let s ← read n level.tighter cs
    more n level s.1 s.2

/-- Goes on with a level whose parts so far make up an expression. -/
def more : Nat → Level → Expr → List Char → Option (Expr × List Char)
  | 0, _, _, _ => none
  | _ + 1, _, e, [] => some (e, [])
  | n + 1, level, e, c :: cs =>
    match operator? level c with
    | some op => do
      let s ← read n level.tighter cs
      more n level (binary op e s.1) s.2
    | none => some (e, c :: cs)

end

/-- Enough for a text of this length: each sign and each bracket takes at most four steps. -/
def fuel (length : Nat) : Nat := 4 * (length + 1)

end InfixReading

/-- The expression that the whole of an infix text spells. -/
def ofInfix? (text : String) : Option Expr :=
  match InfixReading.read (InfixReading.fuel text.toList.length) .sum text.toList with
  | some (e, []) => some e
  | _ => none

end PrefixCalc.Expr
