namespace Schemata

/-- A 64-bit floating-point number, told apart by its bit pattern. -/
structure Binary64 where
  bits : UInt64
  deriving DecidableEq, Inhabited

namespace Binary64

def ofFloat (value : Float) : Binary64 :=
  ⟨value.toBits⟩

def ofDecimal (negative : Bool) (mantissa : Nat) (exponent : Int) : Binary64 :=
  let magnitude := Float.ofScientific mantissa (exponent < 0) exponent.natAbs
  ofFloat (if negative then -magnitude else magnitude)

def ofInt (value : Int) : Binary64 :=
  ofDecimal (value < 0) value.natAbs 0

def isNegative (value : Binary64) : Bool :=
  9223372036854775808 ≤ value.bits.toNat

def fractionBound : Nat := 4503599627370496

def fraction (value : Binary64) : Nat :=
  value.bits.toNat % fractionBound

def biased (value : Binary64) : Nat :=
  value.bits.toNat / fractionBound % 2048

def isFinite (value : Binary64) : Bool :=
  value.biased != 2047

/-- The magnitude of a finite number is `significand · 2^scale`. -/
def significand (value : Binary64) : Nat :=
  if value.biased = 0 then value.fraction else fractionBound + value.fraction

def scale (value : Binary64) : Int :=
  if value.biased = 0 then -1074 else (value.biased : Int) - 1075

/-- Equality as numbers: the two zeros agree. -/
def sameNumber (a b : Binary64) : Bool :=
  a == b || (a.significand == 0 && b.significand == 0 && a.isFinite && b.isFinite)

end Binary64

end Schemata
