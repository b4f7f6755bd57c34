/-!
# Occurrence of one text in another

## Main definitions

* `Text.occursIn` — whether one text is a contiguous part of another
-/

namespace BeanScript.Text

/-- Whether `needle` is a contiguous part of the given characters. -/
def occursInChars (needle : List Char) : List Char → Bool
  | [] => needle.isEmpty
  | c :: cs => needle.isPrefixOf (c :: cs) || occursInChars needle cs

/-- Whether `needle` is a contiguous part of `text`; the empty text is part of every text. -/
def occursIn (needle text : String) : Bool :=
  occursInChars needle.toList text.toList

end BeanScript.Text
