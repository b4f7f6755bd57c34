import BeanScript.Decimal.Layout
import BeanScript.Text.Escape

/-!
# Literals

The values that generated source can write down directly, and how it writes them. Double-precision
numbers are kept as their 64 bits, so that equality of literals is equality of bits.

## Main definitions

* `Literal`
* `Literal.fragments`, `Literal.source` — the written form, in the pieces in which it is handed to
  an output, and as one text
-/

namespace BeanScript

/-- A value that source can write down directly. -/
inductive Literal
  | null
  | bool (b : Bool)
  | int (n : Int32)
  | long (n : Int64)
  | double (bits : UInt64)
  | char (c : Char)
  | string (s : String)
deriving DecidableEq

namespace Literal

/-- Doubles are written positionally from `0.0001` up to but not including `1e16`. -/
def doubleLayout : Decimal.Layout := { least := -4, bound := 16 }

/-- The written form of a double: the named constants for what is not finite, and otherwise the
shortest decimal that reads back, with the suffix `D`. -/
def doubleSource (bits : UInt64) : String :=
  match Decimal.Binary64.ofBits bits with
  | .nan => "Double.NaN"
  | .infinite false => "Double.POSITIVE_INFINITY"
  | .infinite true => "Double.NEGATIVE_INFINITY"
  | .finite negative mantissa exponent =>
    doubleLayout.writeFinite negative mantissa exponent ++ "D"

/-- The written form. The quotes of a character or a text are pieces of their own. -/
def fragments : Literal → List String
  | null => ["null"]
  | bool true => ["true"]
  | bool false => ["false"]
  | int n => [toString n.toInt]
  | long n => [toString n.toInt ++ "L"]
  | double bits => [doubleSource bits]
  | char c => ["'", Text.escape '\'' (String.singleton c), "'"]
  | string s => ["\"", Text.escape '"' s, "\""]

/-- The written form as one text. -/
def source (l : Literal) : String :=
  String.join l.fragments

end Literal

end BeanScript
