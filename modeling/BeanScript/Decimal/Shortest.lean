import BeanScript.Decimal.Binary

/-!
# The shortest decimal that reads back

Among the decimals that round to a given binary number, the shortest is one with the fewest
digits; of two with equally many the nearer one is taken, and the larger one of two equally near.
On the grid of decimals with a given number of digits only the two neighbours of the number need
a test, since any other grid point in the interval has one of them between itself and the number.

## Main definitions

* `Decimal.Digits` — a coefficient with a power of ten
* `Decimal.Neighbourhood.onGrid?` — the chosen multiple of a power of ten, if one reads back
* `Decimal.Neighbourhood.shortest` — the shortest decimal
-/

namespace BeanScript.Decimal

/-- The number `coefficient * 10 ^ exponent`. -/
structure Digits where
  coefficient : Nat
  exponent : Int
deriving DecidableEq

namespace Neighbourhood

/-- The exponent of the leading decimal digit of the value. -/
def leadingExponent (n : Neighbourhood) : Int :=
  if n.unit ≤ n.value then (Nat.toDigits 10 (n.value / n.unit)).length - 1
  else -(Nat.toDigits 10 ((n.unit - 1) / n.value)).length

/-- The multiple of `10 ^ exponent` that is chosen on this grid, if one of the two neighbours of
the value reads back. -/
def onGrid? (n : Neighbourhood) (exponent : Int) : Option Nat :=
  let scale := Nat.pow 10 (-exponent).toNat
  let step := n.unit * Nat.pow 10 exponent.toNat
  let readsBack (k : Nat) : Bool :=
    if n.closed then n.low * scale ≤ k * step && k * step ≤ n.high * scale
    else n.low * scale < k * step && k * step < n.high * scale
  let below := n.value * scale / step
  let nearerBelow : Bool := 2 * (n.value * scale % step) < step
  match readsBack below, readsBack (below + 1) with
  | true, true => some (if nearerBelow then below else below + 1)
  | true, false => some below
  | false, true => some (below + 1)
  | false, false => none

/-- The shortest decimal that reads back, from one digit on; seventeen always suffice. -/
def shortest (n : Neighbourhood) : Digits :=
  let leading := n.leadingExponent
  let found := (List.range 17).findSome? fun (i : Nat) =>
    (n.onGrid? (leading - i)).map fun k => { coefficient := k, exponent := leading - i }
  found.getD ⟨0, 0⟩

end Neighbourhood

end BeanScript.Decimal
