/-!
# Escapes in quoted literals

Inside a quoted literal the backslash and the quote are written after a backslash, line feed,
carriage return and tab by their letters, and every other control character by the four
lower-case hexadecimal digits of its code. All other characters stand for themselves.

## Main definitions

* `Text.isControl` — the Unicode control characters
* `Text.escapeChar`, `Text.escape` — a character, a text, as written between the given quotes
-/

namespace BeanScript.Text

/-- Whether `c` is a control character: one of the codes 0 to 31 or 127 to 159. -/
def isControl (c : Char) : Bool :=
  c.toNat < 0x20 || (0x7F ≤ c.toNat && c.toNat < 0xA0)

/-- The four hexadecimal digits of a code below 65536. -/
def hexDigits (code : Nat) : List Char :=
  [code / 4096 % 16, code / 256 % 16, code / 16 % 16, code % 16].map Nat.digitChar

/-- A character as written between quotes of the given kind. -/
def escapeChar (quote c : Char) : List Char :=
  if c = '\\' then ['\\', '\\']
  else if c = '\n' then ['\\', 'n']
  else if c = '\r' then ['\\', 'r']
  else if c = '\t' then ['\\', 't']
  else if c = quote then ['\\', c]
  else if isControl c then '\\' :: 'u' :: hexDigits c.toNat
  else [c]

/-- A text as written between quotes of the given kind. -/
def escape (quote : Char) (s : String) : String :=
  String.ofList (s.toList.flatMap (escapeChar quote))

end BeanScript.Text
