/-! The numbers that 64-bit floating-point patterns stand for: one sign bit, eleven bits of
exponent, fifty-two bits of fraction. -/
namespace PrefixCalc

/-- A finite magnitude is `significand * 2 ^ exponent`, and it keeps its sign even when it is zero. -/
inductive Binary64 where
  | nan
  | infinite (negative : Bool)
  | finite (negative : Bool) (significand : Nat) (exponent : Int)
  deriving DecidableEq, Repr

namespace Binary64

def signBit (bits : UInt64) : Bool := Nat.pow 2 63 ≤ bits.toNat
def exponentField (bits : UInt64) : Nat := bits.toNat / Nat.pow 2 52 % Nat.pow 2 11
def fractionField (bits : UInt64) : Nat := bits.toNat % Nat.pow 2 52

/-- The greatest exponent field marks what is not a number, and the least one a fraction without
its leading unit. -/
def ofBits (bits : UInt64) : Binary64 :=
  let fraction := fractionField bits
  match exponentField bits with
  | 0 => finite (signBit bits) fraction (-1074)
  | 2047 => if fraction = 0 then infinite (signBit bits) else nan
  | e => finite (signBit bits) (Nat.pow 2 52 + fraction) (e - 1075)

def ofFloat (x : Float) : Binary64 := ofBits x.toBits

/-- Numerator and denominator of `significand * 2 ^ exponent`. -/
def ratio (significand : Nat) (exponent : Int) : Nat × Nat :=
  (significand * Nat.pow 2 exponent.toNat, Nat.pow 2 (-exponent).toNat)

theorem ratio_snd_pos (significand : Nat) (exponent : Int) : 0 < (ratio significand exponent).2 :=
  Nat.two_pow_pos _

end Binary64
end PrefixCalc
