import BeanScript.Ascending
import Mathlib.Data.List.Pairwise
import Mathlib.Data.List.Sort

/-!
# Elements put in order

Putting an element keeps a list ascending. An element beyond all others goes to the end, and one
with a new key is added to those that are there. A list that ascends is determined by its elements.

## Main results

* `Ascending.pairwise_put`, `Ascending.mem_put_iff_of_pairwise` — putting one element
* `Ascending.foldl_put_eq_append` — putting elements that ascend
* `Ascending.eq_of_mem_iff` — ascending lists with the same elements are equal
-/

namespace BeanScript.Ascending

variable {α : Type u} {κ : Type v} [LT κ] [DecidableLT κ] {key : α → κ}

theorem pairwise_put [IsTrans κ (· < ·)] [Std.Trichotomous (α := κ) (· < ·)] {l : List α} (x : α)
    (h : l.Pairwise fun y z => key y < key z) :
    (put key x l).Pairwise fun y z => key y < key z := by
  induction l with
  | nil => exact List.pairwise_singleton _ _
  | cons y l ih =>
    obtain ⟨hy, hl⟩ := List.pairwise_cons.mp h
    rw [put]
    split
    · next hxy =>
      refine List.pairwise_cons.mpr ⟨fun z hz => ?_, h⟩
      rcases List.mem_cons.mp hz with rfl | hz
      · exact hxy
      · exact IsTrans.trans _ _ _ hxy (hy z hz)
    · next hxy =>
      split
      · next hyx =>
        refine List.pairwise_cons.mpr ⟨fun z hz => ?_, ih hl⟩
        rcases mem_of_mem_put hz with rfl | hz
        · exact hyx
        · exact hy z hz
      · next hyx =>
        have hkey : key x = key y := Std.Trichotomous.trichotomous _ _ hxy hyx
        exact List.pairwise_cons.mpr ⟨fun z hz => hkey ▸ hy z hz, hl⟩

/-- An element beyond all others goes to the end. -/
theorem put_eq_append [Std.Asymm (α := κ) (· < ·)] {l : List α} {x : α}
    (h : ∀ y ∈ l, key y < key x) : put key x l = l ++ [x] := by
  induction l with
  | nil => rfl
  | cons y l ih =>
    obtain ⟨hy, hl⟩ := List.forall_mem_cons.mp h
    rw [put, if_neg (Std.Asymm.asymm _ _ hy), if_pos hy, ih hl, List.cons_append]

/-- Putting further elements that ascend appends them. -/
theorem foldl_put_eq_append [Std.Asymm (α := κ) (· < ·)] {l m : List α}
    (h : (l ++ m).Pairwise fun y z => key y < key z) :
    m.foldl (fun l x => put key x l) l = l ++ m := by
  induction m generalizing l with
  | nil => simp
  | cons x m ih =>
    have hx : ∀ y ∈ l, key y < key x := fun y hy =>
      (List.pairwise_append.mp h).2.2 y hy x List.mem_cons_self
    rw [List.foldl_cons, put_eq_append hx, ih (by simpa using h), List.append_assoc,
      List.singleton_append]

/-- An element with another key stays. -/
theorem mem_put_of_ne [Std.Trichotomous (α := κ) (· < ·)] {l : List α} {x y : α} (hy : y ∈ l)
    (hne : key y ≠ key x) : y ∈ put key x l := by
  induction l with
  | nil => cases hy
  | cons z l ih =>
    rw [put]
    split
    · exact List.mem_cons_of_mem _ hy
    next hxz =>
    split
    · exact List.mem_cons.mpr ((List.mem_cons.mp hy).imp_right ih)
    next hzx =>
    rcases List.mem_cons.mp hy with rfl | hy
    · exact absurd (Std.Trichotomous.trichotomous _ _ hzx hxz) hne
    · exact List.mem_cons_of_mem _ hy

/-- An element is added to those that are there, unless it takes the place of another one. -/
theorem mem_put_iff_of_unique [Std.Trichotomous (α := κ) (· < ·)] {l : List α} {x y : α}
    (hunique : ∀ z ∈ l, key z = key x → z = x) : y ∈ put key x l ↔ y = x ∨ y ∈ l := by
  refine ⟨mem_of_mem_put, ?_⟩
  rintro (rfl | hy)
  · exact mem_put key _ l
  · by_cases hkey : key y = key x
    · exact hunique y hy hkey ▸ mem_put key x l
    · exact mem_put_of_ne hy hkey

/-- An element with a new key is added to those that are there. -/
theorem mem_put_iff [Std.Trichotomous (α := κ) (· < ·)] {l : List α} {x y : α}
    (hnew : ∀ z ∈ l, key z ≠ key x) : y ∈ put key x l ↔ y = x ∨ y ∈ l :=
  mem_put_iff_of_unique fun z hz hkey => absurd hkey (hnew z hz)

/-- In a list that ascends, a new element takes the place of the one that has its key. -/
theorem mem_put_iff_of_pairwise [Std.Asymm (α := κ) (· < ·)] [IsTrans κ (· < ·)]
    [Std.Trichotomous (α := κ) (· < ·)] {l : List α} {x y : α}
    (h : l.Pairwise fun y z => key y < key z) :
    y ∈ put key x l ↔ y = x ∨ (y ∈ l ∧ key y ≠ key x) := by
  have hne : ∀ {a b : κ}, a < b → a ≠ b := fun hab heq => Std.Asymm.asymm _ _ hab (heq ▸ hab)
  have : Std.Symm fun y z : α => key y ≠ key z := ⟨fun _ _ => Ne.symm⟩
  have hkeys : (put key x l).Pairwise fun y z => key y ≠ key z := (pairwise_put x h).imp hne
  constructor
  · intro hy
    by_cases heq : y = x
    · exact .inl heq
    · exact .inr ⟨(mem_of_mem_put hy).resolve_left heq, hkeys.forall hy (mem_put key x l) heq⟩
  · rintro (rfl | ⟨hy, hkey⟩)
    · exact mem_put key _ l
    · exact mem_put_of_ne hy hkey

omit [DecidableLT κ] in
/-- Ascending lists with the same elements are equal. -/
theorem eq_of_mem_iff [Std.Asymm (α := κ) (· < ·)] {l m : List α}
    (hl : l.Pairwise fun y z => key y < key z) (hm : m.Pairwise fun y z => key y < key z)
    (h : ∀ x, x ∈ l ↔ x ∈ m) : l = m := by
  have : Std.Asymm fun y z : α => key y < key z := ⟨fun _ _ => Std.Asymm.asymm _ _⟩
  exact hl.eq_of_mem_iff hm h

end BeanScript.Ascending
