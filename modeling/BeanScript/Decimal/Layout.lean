import BeanScript.Decimal.Shortest

/-!
# Writing a decimal

A decimal is written positionally, with at least one digit on either side of the point, or with
an exponent, the leading digit before the point and no point where no digit follows.

## Main definitions

* `Decimal.Layout` — which exponents are written positionally
* `Decimal.Layout.write` — the text of a decimal
* `Decimal.Layout.writeFinite` — the text of a finite binary number
-/

namespace BeanScript.Decimal

/-- Numbers whose leading digit has an exponent from `least` up to but not including `bound` are
written positionally. -/
structure Layout where
  least : Int
  bound : Int

namespace Layout

/-- Drop zeros at the end. -/
def trimZeros (digits : List Char) : List Char :=
  (digits.reverse.dropWhile (· == '0')).reverse

/-- The digits of a positive number with the point `point` places after the first of them. -/
def positional (digits : List Char) (point : Int) : List Char :=
  if point ≤ 0 then
    '0' :: '.' :: (List.replicate (-point).toNat '0' ++ digits)
  else
    let whole := digits.take point.toNat
    let rest := digits.drop point.toNat
    whole ++ List.replicate (point.toNat - whole.length) '0' ++
      '.' :: (if rest.isEmpty then ['0'] else rest)

/-- The digits of a positive number whose leading digit has the given exponent. -/
def exponential (digits : List Char) (exponent : Int) : List Char :=
  digits.take 1 ++ (if digits.length ≤ 1 then [] else '.' :: digits.drop 1) ++
    'e' :: (toString exponent).toList

/-- The text of a positive decimal. -/
def write (layout : Layout) (d : Digits) : String :=
  let all := Nat.toDigits 10 d.coefficient
  let digits := trimZeros all
  let point := d.exponent + all.length
  String.ofList <|
    if layout.least < point ∧ point ≤ layout.bound then positional digits point
    else exponential digits (point - 1)

/-- The text of a finite binary number. Zero has a sign, too. -/
def writeFinite (layout : Layout) (negative : Bool) (mantissa : Nat) (exponent : Int) : String :=
  (if negative then "-" else "") ++
    if mantissa = 0 then "0.0"
    else layout.write (Neighbourhood.of mantissa exponent).shortest

end Layout

end BeanScript.Decimal
