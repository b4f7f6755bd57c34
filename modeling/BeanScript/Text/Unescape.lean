/-!
# Reading quoted literals

A compiler reads what stands between quotes in two passes. The first replaces unicode escapes
wherever they stand, whether in a literal or not: a backslash that an even number of backslashes
precede, `u` and four hexadecimal digits become the character of that code, which is not looked at
again. The second reads the escapes of literals in the result.

## Main definitions

* `Text.translate` — the first pass
* `Text.unescape?` — the second pass, which fails on an escape that it does not know
* `Text.unquote?` — both passes, on what stands between the quotes
-/

namespace BeanScript.Text

/-- The value of a hexadecimal digit. -/
def hexValue? (c : Char) : Option Nat :=
  if '0' ≤ c ∧ c ≤ '9' then some (c.toNat - '0'.toNat)
  else if 'a' ≤ c ∧ c ≤ 'f' then some (c.toNat - 'a'.toNat + 10)
  else if 'A' ≤ c ∧ c ≤ 'F' then some (c.toNat - 'A'.toNat + 10)
  else none

/-- The character whose code the given hexadecimal digits are. -/
def ofHexDigits? (digits : List Char) : Option Char := do
  let code := (← digits.mapM hexValue?).foldl (fun code value => 16 * code + value) 0
  if code.isValidChar then some (Char.ofNat code) else none

/-- Replace unicode escapes. The number is that of the contiguous backslashes right before. -/
def translateAfter : Nat → List Char → List Char
  | _, [] => []
  | slashes, '\\' :: 'u' :: a :: b :: c :: d :: rest =>
    match if slashes % 2 = 0 then ofHexDigits? [a, b, c, d] else none with
    | some x => x :: translateAfter 0 rest
    | none => '\\' :: translateAfter (slashes + 1) ('u' :: a :: b :: c :: d :: rest)
  | slashes, x :: rest => x :: translateAfter (if x = '\\' then slashes + 1 else 0) rest

/-- Replace unicode escapes, right after a quote. -/
def translate (cs : List Char) : List Char :=
  translateAfter 0 cs

/-- The character that a backslash and the given character stand for. -/
def escaped? : Char → Option Char
  | '\\' => some '\\'
  | 'n' => some '\n'
  | 'r' => some '\r'
  | 't' => some '\t'
  | '"' => some '"'
  | '\'' => some '\''
  | _ => none

/-- Read escapes. -/
def unescape? : List Char → Option (List Char)
  | [] => some []
  | ['\\'] => none
  | '\\' :: x :: rest => do return (← escaped? x) :: (← unescape? rest)
  | c :: rest => do return c :: (← unescape? rest)

/-- The text that is written between quotes. -/
def unquote? (inner : String) : Option String :=
  (unescape? (translate inner.toList)).map String.ofList

end BeanScript.Text
