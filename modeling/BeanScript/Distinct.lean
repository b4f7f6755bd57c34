/-!
# Lists without repetition

A list grows at its end, and an element equivalent to one that is already there is ignored. What
counts as equivalent is a parameter: value sets use equality of values, visible methods use equal
signatures.

## Main definitions

* `Distinct.add` — append an element unless an equivalent one is present
* `Distinct.ofList` — add the given elements in turn to the empty list
-/

namespace BeanScript.Distinct

variable {α : Type u}

/-- Append `x` unless `l` holds an element equivalent to it. -/
def add (same : α → α → Bool) (l : List α) (x : α) : List α :=
  if l.any (same · x) then l else l ++ [x]

/-- Add the given elements in turn to the empty list. -/
def ofList (same : α → α → Bool) (l : List α) : List α :=
  l.foldl (add same) []

theorem add_of_any {same : α → α → Bool} {l : List α} {x : α} (h : l.any (same · x)) :
    add same l x = l := if_pos h

theorem add_of_not_any {same : α → α → Bool} {l : List α} {x : α}
    (h : ¬ l.any (same · x)) : add same l x = l ++ [x] := if_neg h

end BeanScript.Distinct
