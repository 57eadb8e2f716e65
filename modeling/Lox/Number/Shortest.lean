import Lox.Number.Binary64

/-!
# Shortest decimals

`Magnitude.shortest` gives the decimal with the fewest digits that rounds back to a given double,
and among those the one nearest to it.

The reals that round to a double form an interval around it.  A decimal grid is the set of
multiples of one power of ten.  Going from coarse grids to fine ones, the first grid that meets
the interval has the fewest digits; and when a grid meets the interval at all, one of the two grid
points next to the double lies in it, so only these two are tested.
-/

namespace Lox

/-- The decimal `coefficient · 10 ^ exponent`. -/
structure Decimal where
  coefficient : Nat
  exponent : Int
deriving DecidableEq, Repr

/-- Which of two equally near decimals is taken. -/
inductive Tie where
  | up
  | even
deriving DecidableEq, Repr

namespace Magnitude

/-- Half the distance from the magnitude to the next smaller double, in quarters of
`2 ^ exponent`.  Just below a power of two the doubles are twice as dense as above it. -/
def gapBelow (v : Magnitude) : Nat :=
  if v.significand = Nat.pow 2 Binary64.storedBits ∧ v.exponent ≠ Binary64.leastExponent then 1
  else 2

/-- The grid point of step `10 ^ step` that is nearest to `v` among those that round to `v`.
Lengths are compared in units of `2 ^ (v.exponent - 2) / 10 ^ step`, cleared of denominators. -/
def onGrid? (tie : Tie) (v : Magnitude) (step : Int) : Option Decimal :=
  let quarters := v.exponent - 2
  let scale := Nat.pow 2 quarters.toNat * Nat.pow 10 (-step).toNat
  let unit := Nat.pow 2 (-quarters).toNat * Nat.pow 10 step.toNat
  let value := 4 * v.significand * scale
  let low := (4 * v.significand - v.gapBelow) * scale
  let high := (4 * v.significand + 2) * scale
  let closed := v.significand % 2 = 0
  let below := value / unit
  let belowFits := low < below * unit ∨ (closed ∧ low = below * unit)
  let aboveFits := (below + 1) * unit < high ∨ (closed ∧ (below + 1) * unit = high)
  let rest := 2 * (value - below * unit)
  let belowNearer := rest < unit ∨ (rest = unit ∧ tie = .even ∧ below % 2 = 0)
  if belowFits ∧ (¬ aboveFits ∨ belowNearer) then some ⟨below, step⟩
  else if aboveFits then some ⟨below + 1, step⟩
  else none

/-- An exponent of ten whose power exceeds the magnitude `v`, which is positive. -/
def decimalBound (v : Magnitude) : Int :=
  ((v.significand.log2 + 1 + v.exponent) * 30103) / 100000 + 1

/-- The shortest decimal that rounds to `v`, and the nearest of those.  Seventeen digits always
suffice, and the first grid lies at most two above the first digit. -/
def shortest (tie : Tie) (v : Magnitude) : Decimal :=
  if v.significand = 0 then ⟨0, 0⟩
  else
    let top := v.decimalBound
    ((List.range 20).findSome? fun (n : Nat) => v.onGrid? tie (top - n)).getD ⟨0, 0⟩

end Magnitude

end Lox
