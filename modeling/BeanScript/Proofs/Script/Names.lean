import BeanScript.Proofs.Loops
import BeanScript.Script.Nested
import Mathlib.Data.List.Nodup
import Mathlib.Data.List.Perm.Subperm
import Mathlib.Order.Bounds.Basic

/-!
# Free names

A method gets the name that its position asks for, or that name with a number where it is taken.
The search for it tries one number after the other and has no bound of its own. It ends because
different numbers make different names and only finitely many names are taken, whichever these are:
some may come from other positions and have numbers far apart.

`firstFree` tries no more numbers than there are taken names, and one more. That is where the search
ends, too.

## Main definitions

* `NameSearch`, `NameSearch.next?` — how far a search has come, and one more try

## Main results

* `numbered_injective` — different numbers make different names
* `exists_isLeast_free`, `firstFree_not_mem` — there is a first free name, and it is found
* `NameSearch.ends` — the search ends with the first free name
* `NestedMethods.names_assign` — the name of the next method
-/

namespace BeanScript

/-- Different numbers make different names. -/
theorem numbered_injective (base : String) : Function.Injective (numbered base) := by
  have hne : ∀ n : Nat, base ≠ base ++ toString n := by
    intro n h
    have hnil := congrArg String.toList h
    simp at hnil
  intro m n h
  cases m with
  | zero =>
    cases n with
    | zero => rfl
    | succ n => exact absurd h (hne _)
  | succ m =>
    cases n with
    | zero => exact absurd h.symm (hne _)
    | succ n =>
      have hdigits : Nat.toDigits 10 (m + 1) = Nat.toDigits 10 (n + 1) := by
        simpa [numbered] using congrArg String.toList h
      have hvalue := congrArg (Nat.ofDigitChars 10 · 0) hdigits
      simpa using hvalue

/-- Of one more names than there are taken ones, one is free. -/
theorem exists_numbered_not_mem (used : List String) (base : String) :
    ∃ n ≤ used.length, numbered base n ∉ used := by
  by_contra! htaken
  let candidates := (List.range (used.length + 1)).map (numbered base)
  have hnodup : candidates.Nodup := List.Nodup.map (numbered_injective base) List.nodup_range
  have hsub : candidates ⊆ used := by
    intro name hname
    obtain ⟨n, hn, rfl⟩ := List.mem_map.mp hname
    exact htaken n (Nat.le_of_lt_succ (List.mem_range.mp hn))
  have hlength := (List.subperm_of_subset hnodup hsub).length_le
  simp only [candidates, List.length_map, List.length_range] at hlength
  omega

/-- There is a first free name, and it is the one found. -/
theorem exists_isLeast_free (used : List String) (base : String) :
    ∃ n ≤ used.length, IsLeast {n | numbered base n ∉ used} n ∧
      firstFree used base = numbered base n := by
  let tried := List.range (used.length + 1)
  have hsome : (tried.find? fun n => !used.contains (numbered base n)).isSome := by
    obtain ⟨k, hk, hfree⟩ := exists_numbered_not_mem used base
    exact List.find?_isSome.mpr ⟨k, List.mem_range.mpr (by omega), by simpa using hfree⟩
  obtain ⟨n, hfound⟩ := Option.isSome_iff_exists.mp hsome
  obtain ⟨hn, hrange, hbefore⟩ := List.find?_range_eq_some.mp hfound
  refine ⟨n, Nat.le_of_lt_succ (List.mem_range.mp hrange), ⟨by simpa using hn, ?_⟩, ?_⟩
  · intro m hm
    by_contra hlt
    exact hm (by simpa using hbefore m (Nat.lt_of_not_le hlt))
  · rw [firstFree, hfound]
    rfl

theorem exists_firstFree_eq (used : List String) (base : String) :
    ∃ n, firstFree used base = numbered base n :=
  ⟨_, rfl⟩

theorem firstFree_not_mem (used : List String) (base : String) : firstFree used base ∉ used := by
  obtain ⟨n, -, hleast, hname⟩ := exists_isLeast_free used base
  exact hname ▸ hleast.1

/-! ### The search -/

/-- How far a search has come: the name to be tried, and the number that comes next. -/
structure NameSearch where
  candidate : String
  suffix : Nat

namespace NameSearch

variable {used : List String} {base : String}

/-- A search begins with the name without a number. -/
def start (base : String) : NameSearch :=
  { candidate := base, suffix := 1 }

/-- One more try, unless the name is free. -/
def next? (used : List String) (base : String) (s : NameSearch) : Option NameSearch :=
  if s.candidate ∈ used then
    some { candidate := base ++ toString s.suffix, suffix := s.suffix + 1 }
  else none

/-- From a number on, the search goes through the names that are taken to the first free one. -/
theorem ends_from {k n m : Nat} (hm : k + n = m) (hfree : numbered base m ∉ used)
    (htaken : ∀ j < m, numbered base j ∈ used) :
    Loop.Ends (next? used base) { candidate := numbered base k, suffix := k + 1 } n
      { candidate := numbered base m, suffix := m + 1 } := by
  induction n generalizing k with
  | zero =>
    obtain rfl : k = m := hm
    exact .refl (if_neg hfree)
  | succ n ih =>
    have hrest := ih (k := k + 1) (by omega)
    exact .step (if_pos (htaken k (by omega))) hrest

/-- The search ends with the first free name. -/
theorem ends {n : Nat} (hn : IsLeast {n | numbered base n ∉ used} n) :
    Loop.Ends (next? used base) (start base) n
      { candidate := numbered base n, suffix := n + 1 } := by
  refine ends_from (Nat.zero_add n) hn.1 fun j hj => ?_
  by_contra hfree
  exact absurd (hn.2 hfree) (Nat.not_le.mpr hj)

end NameSearch

/-- The first free name is the name itself, or has the first number that makes it free. -/
theorem numbered_of_isLeast {used : List String} {base : String} {n : Nat}
    (hn : IsLeast {n | numbered base n ∉ used} n) :
    if base ∈ used then
      ∃ k, IsLeast {k | 1 ≤ k ∧ base ++ toString k ∉ used} k ∧ numbered base n = base ++ toString k
    else numbered base n = base := by
  split
  next htaken =>
    cases n with
    | zero => exact absurd htaken hn.1
    | succ n =>
      refine ⟨n + 1, ⟨⟨by omega, hn.1⟩, ?_⟩, rfl⟩
      rintro (_ | k) ⟨hpos, hfree⟩
      · omega
      · exact hn.2 hfree
  next hfree =>
    obtain rfl : n = 0 := Nat.le_zero.mp (hn.2 (show numbered base 0 ∉ used from hfree))
    rfl

/-- Whatever names are taken, the search for the name of the next method ends, and ends with the
name that its position asks for, or with the first number that makes it free. This name is then
taken as well, and no other. -/
theorem NestedMethods.names_assign (t : NestedMethods) (position : String) (d : Definition) :
    let base := "get" ++ pascalCase position ++ "BeanDefinition"
    ∃ (turns : Nat) (last : NameSearch),
      turns ≤ t.names.length ∧
      Loop.Ends (NameSearch.next? t.names base) (NameSearch.start base) turns last ∧
      (if base ∈ t.names then
        ∃ k, IsLeast {k | 1 ≤ k ∧ base ++ toString k ∉ t.names} k ∧
          last.candidate = base ++ toString k
      else last.candidate = base) ∧
      last.candidate ∉ t.names ∧
      (t.assign position d).names = t.names ++ [last.candidate] := by
  intro base
  obtain ⟨n, hn, hleast, hname⟩ := exists_isLeast_free t.names base
  refine ⟨n, _, hn, NameSearch.ends hleast, numbered_of_isLeast hleast, hleast.1, ?_⟩
  rw [← hname, assign, names, List.map_append]
  rfl

/-- The numbers in use need not be the first ones. -/
example :
    let t : NestedMethods :=
      { owner := ⟨"Methods"⟩
        list := ["getPartBeanDefinition", "getPartBeanDefinition2", "getPartBeanDefinition1",
          "getPartBeanDefinition4"].map fun name => { name, definition := {} } }
    (t.assign "part" {}).names = t.names ++ ["getPartBeanDefinition3"] := by
  decide

end BeanScript
