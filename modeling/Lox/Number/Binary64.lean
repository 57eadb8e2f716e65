/-!
# Magnitudes of doubles

A finite double is a sign and a magnitude `significand · 2 ^ exponent`.  `Binary64.shape` reads
that form off the bits of a number, and `Binary64.nearest` goes the other way: it rounds an exact
quotient of natural numbers to the nearest double, a half-way case to the even significand.

Both work on natural numbers only.  Nonnegative doubles are ordered as their bit patterns are, so
a magnitude is named by its *code*, the bit pattern read as a natural number; the code
`infinityCode` belongs to positive infinity.
-/

namespace Lox

/-- The magnitude `significand · 2 ^ exponent` of a finite double. -/
structure Magnitude where
  significand : Nat
  exponent : Int
deriving DecidableEq, Repr

inductive Shape where
  | nan
  | infinite (negative : Bool)
  | finite (negative : Bool) (magnitude : Magnitude)
deriving DecidableEq, Repr

namespace Binary64

def storedBits : Nat := 52

/-- The exponent of the least significant bit of the smallest doubles. -/
def leastExponent : Int := -1074

/-- The first code past those of the finite magnitudes. -/
def infinityCode : Nat := 2047 * Nat.pow 2 storedBits

/-- The magnitude with the code `code`.  The stored exponent field `0` stands for the smallest
exponent without the implicit leading bit; every other field adds that bit. -/
def magnitudeOfCode (code : Nat) : Magnitude :=
  let field := code / Nat.pow 2 storedBits
  let stored := code % Nat.pow 2 storedBits
  if field = 0 then ⟨stored, leastExponent⟩
  else ⟨Nat.pow 2 storedBits + stored, leastExponent + field - 1⟩

/-- Rounds `num / den` to the nearest integer, a half to the even one. -/
def divNearest (num den : Nat) : Nat :=
  let quotient := num / den
  let rest := num % den
  if 2 * rest < den ∨ (2 * rest = den ∧ quotient % 2 = 0) then quotient else quotient + 1

/-- The greatest `e` with `2 ^ e ≤ num / den`, for positive `num` and `den`. -/
def floorLog2 (num den : Nat) : Int :=
  let guess : Int := num.log2 - den.log2
  if den * Nat.pow 2 guess.toNat ≤ num * Nat.pow 2 (-guess).toNat then guess else guess - 1

/-- The exponent of the last significand bit that a double keeps of `num / den`. -/
def roundingExponent (num den : Nat) : Int :=
  max leastExponent (floorLog2 num den - storedBits)

/-- The code of the double nearest to `num / den`.  A significand that rounds up to the next power
of two carries into the exponent by itself, and a quotient too large for any finite double gets the
code of infinity. -/
def nearestCode (num den : Nat) : Nat :=
  if num = 0 then 0
  else
    let exponent := roundingExponent num den
    let significand :=
      divNearest (num * Nat.pow 2 (-exponent).toNat) (den * Nat.pow 2 exponent.toNat)
    min infinityCode ((exponent - leastExponent).toNat * Nat.pow 2 storedBits + significand)

/-- The double nearest to `num / den`, which is not negative. -/
def nearest (num den : Nat) : Float :=
  Float.ofBits (UInt64.ofNat (nearestCode num den))

def shape (x : Float) : Shape :=
  let bits := x.toBits.toNat
  let negative := decide (Nat.pow 2 63 ≤ bits)
  let code := bits % Nat.pow 2 63
  if code < infinityCode then .finite negative (magnitudeOfCode code)
  else if code = infinityCode then .infinite negative
  else .nan

end Binary64

def Magnitude.whole? (v : Magnitude) : Option Nat :=
  let divisor := Nat.pow 2 (-v.exponent).toNat
  if v.significand % divisor = 0 then
    some (v.significand / divisor * Nat.pow 2 v.exponent.toNat)
  else none

end Lox
