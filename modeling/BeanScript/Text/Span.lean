/-!
# Spans of code points

Tables of character properties list the characters in spans: every character from a first to a
last, or every second one where capitals and small letters alternate.

## Main definitions

* `Text.Span`, `Text.Span.contains`
-/

namespace BeanScript.Text

/-- The code points `first`, `first + step`, … up to `last`. -/
structure Span where
  first : Nat
  last : Nat
  step : Nat
deriving DecidableEq

/-- Whether a code point lies on the span. -/
def Span.contains (s : Span) (n : Nat) : Bool :=
  s.first ≤ n && n ≤ s.last && (n - s.first) % s.step == 0

end BeanScript.Text
