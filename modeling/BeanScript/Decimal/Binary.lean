/-!
# Binary floating-point numbers

The 64 bits of a floating-point number say whether it is a number at all, and which one: a finite
one is a natural mantissa times a power of two, with a sign.

## Main definitions

* `Decimal.Binary64`, `Decimal.Binary64.ofBits`
* `Decimal.Neighbourhood` — a positive number with the interval of reals that round to it
-/

namespace BeanScript.Decimal

/-- What 64 bits denote. A finite number is `mantissa * 2 ^ exponent`, up to its sign. -/
inductive Binary64
  | nan
  | infinite (negative : Bool)
  | finite (negative : Bool) (mantissa : Nat) (exponent : Int)
deriving DecidableEq

/-- Read the sign bit, eleven exponent bits and fifty-two fraction bits. -/
def Binary64.ofBits (bits : UInt64) : Binary64 :=
  let n := bits.toNat
  let negative := decide (Nat.pow 2 63 ≤ n)
  let fraction : Nat := n % Nat.pow 2 52
  let biased : Nat := n / Nat.pow 2 52 % Nat.pow 2 11
  if biased = 2047 then
    if fraction = 0 then .infinite negative else .nan
  else if biased = 0 then .finite negative fraction (-1074)
  else .finite negative (Nat.pow 2 52 + fraction) ((biased : Int) - 1075)

/-- The positive number `value / unit`, and the interval from `low / unit` to `high / unit` of
the reals that round to it; `closed` says whether its ends belong to it. -/
structure Neighbourhood where
  low : Nat
  value : Nat
  high : Nat
  unit : Nat
  closed : Bool

/-- The neighbourhood of `mantissa * 2 ^ exponent`, counted in quarters of its last place. The
next number below a power of two is only half as far away as the next one above. -/
def Neighbourhood.of (mantissa : Nat) (exponent : Int) : Neighbourhood :=
  let below := if mantissa = Nat.pow 2 52 ∧ exponent ≠ -1074 then 1 else 2
  let scale := Nat.pow 2 (exponent - 2).toNat
  { low := (4 * mantissa - below) * scale
    value := 4 * mantissa * scale
    high := (4 * mantissa + 2) * scale
    unit := Nat.pow 2 (2 - exponent).toNat
    closed := mantissa % 2 = 0 }

end BeanScript.Decimal
