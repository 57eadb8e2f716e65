import Lox.Number.Shortest

/-!
# Number texts

The decimal texts in which numbers are read and written.

A numeral of the language is a run of digits with an optional fraction, and `Number.ofDigits` is
its value: the double nearest to it.  Four texts are written.  `Number.printed` is what a program
prints, `Number.inTree` appears in printed syntax trees, `Number.inToken` in token listings; these
three are positional and never use an exponent.  `Number.json` is the text of a number in a JSON
document, which turns to scientific form for very large and very small numbers.
-/

namespace Lox

namespace Decimal

def digits (d : Decimal) : List Char := Nat.toDigits 10 d.coefficient

/-- The place of the decimal point: the value is `0.DIGITS · 10 ^ point`. -/
def point (d : Decimal) : Int := d.digits.length + d.exponent

/-- The whole-number digits and the fraction digits of the positional form. -/
def parts (d : Decimal) : List Char × List Char :=
  if 0 ≤ d.exponent then (d.digits ++ List.replicate d.exponent.toNat '0', [])
  else if 0 < d.point then (d.digits.take d.point.toNat, d.digits.drop d.point.toNat)
  else (['0'], List.replicate (-d.point).toNat '0' ++ d.digits)

/-- Positional form, with a point only where there is a fraction. -/
def positional (d : Decimal) : String :=
  match d.parts with
  | (whole, []) => String.ofList whole
  | (whole, fraction) => String.ofList (whole ++ '.' :: fraction)

def positionalWithFraction (d : Decimal) : String :=
  match d.parts with
  | (whole, []) => String.ofList (whole ++ ['.', '0'])
  | (whole, fraction) => String.ofList (whole ++ '.' :: fraction)

/-- Scientific form: one digit before the point, and a sign on every exponent. -/
def scientific (d : Decimal) : String :=
  let exponent := d.point - 1
  let mark := if exponent < 0 then ['e', '-'] else ['e', '+']
  let size := mark ++ Nat.toDigits 10 exponent.natAbs
  match d.digits with
  | first :: second :: others => String.ofList (first :: '.' :: second :: others ++ size)
  | short => String.ofList (short ++ size)

end Decimal

namespace Number

def sign (negative : Bool) : String := if negative then "-" else ""

def natOfDigits (digits : List Char) : Nat :=
  digits.foldl (fun n c => 10 * n + (c.toNat - '0'.toNat)) 0

/-- The double nearest to the numeral with the given whole-number and fraction digits. -/
def ofDigits (whole fraction : List Char) : Float :=
  Binary64.nearest (natOfDigits (whole ++ fraction)) (Nat.pow 10 fraction.length)

/-- Positional text of the shortest decimal, ties away from zero. -/
def positional (negative : Bool) (v : Magnitude) : String :=
  sign negative ++ (v.shortest .up).positional

/-- The text that `print` writes: whole numbers exactly and without a fraction, other numbers by
their shortest decimal. -/
def printed (x : Float) : String :=
  match Binary64.shape x with
  | .nan => "nan"
  | .infinite negative => sign negative ++ "inf"
  | .finite negative v =>
    match v.whole? with
    | some n => sign negative ++ toString n
    | none => positional negative v

/-- The text in a printed syntax tree: as printed, but a whole number ends in `.0`. -/
def inTree (x : Float) : String :=
  match Binary64.shape x with
  | .nan => "NaN"
  | .infinite negative => sign negative ++ "inf"
  | .finite negative v =>
    match v.whole? with
    | some n => sign negative ++ toString n ++ ".0"
    | none => positional negative v

/-- Whole numbers below this bound end in `.0` in a token listing. -/
def tokenWholeBound : Nat := Nat.pow 10 15

/-- The text in a token listing: a whole number below `tokenWholeBound` is an integer, without a
negative zero, followed by `.0`; every other number is its shortest decimal. -/
def inToken (x : Float) : String :=
  match Binary64.shape x with
  | .nan => "NaN"
  | .infinite negative => sign negative ++ "inf"
  | .finite negative v =>
    match v.whole? with
    | some n =>
      if n < tokenWholeBound then sign (negative && n != 0) ++ toString n ++ ".0"
      else positional negative v
    | none => positional negative v

/-- The text in a JSON document, `null` for what is not finite.  The shortest decimal, ties to the
even digit, is positional from `0.00001` up to sixteen whole digits and scientific beyond. -/
def json (x : Float) : String :=
  match Binary64.shape x with
  | .nan => "null"
  | .infinite _ => "null"
  | .finite negative v =>
    let d := v.shortest .even
    sign negative ++
      if v.significand = 0 ∨ (-5 < d.point ∧ d.point ≤ 16) then d.positionalWithFraction
      else d.scientific

end Number

end Lox
