import BeanScript.Distinct
import Mathlib.Data.List.Forall2
import Mathlib.Data.List.Induction

/-!
# Lists without repetition

`Distinct.ofList` keeps the first of every group of equivalent elements. A list that has no
equivalent elements is left alone, and two lists that agree element by element, up to a relation the
equivalence cannot tell apart, are thinned out in the same places.

## Main results

* `Distinct.pairwise_ofList`, `Distinct.ofList_eq_self`
* `Distinct.mem_ofList_iff` — the elements that are kept are those without an equivalent before them
* `Distinct.forall₂_ofList` — thinning out respects a relation that the equivalence respects
-/

namespace BeanScript.Distinct

variable {α : Type u} {β : Type v} {same : α → α → Bool} {same' : β → β → Bool}

theorem mem_of_mem_add {l : List α} {x y : α} (h : y ∈ add same l x) : y ∈ l ∨ y = x := by
  rw [add] at h
  split at h
  · exact .inl h
  · simpa using h

theorem mem_add_of_mem {l : List α} {y : α} (x : α) (h : y ∈ l) : y ∈ add same l x := by
  rw [add]
  split
  · exact h
  · exact List.mem_append_left _ h

/-- Nothing equivalent to the new element is there when it is appended. -/
theorem pairwise_add {l : List α} (x : α) (h : l.Pairwise fun y z => ¬ same y z) :
    (add same l x).Pairwise fun y z => ¬ same y z := by
  by_cases hany : l.any (same · x)
  · rwa [add_of_any hany]
  · rw [add_of_not_any hany, List.pairwise_append]
    refine ⟨h, List.pairwise_singleton _ _, fun y hy z hz => ?_⟩
    obtain rfl := List.mem_singleton.mp hz
    exact fun hyz => hany (List.any_eq_true.mpr ⟨y, hy, hyz⟩)

theorem foldl_add_induction {I : List α → Prop} (step : ∀ l x, I l → I (add same l x))
    {s : List α} (hs : I s) (l : List α) : I (l.foldl (add same) s) := by
  induction l generalizing s with
  | nil => exact hs
  | cons x l ih => exact ih (step s x hs)

theorem pairwise_ofList (l : List α) : (ofList same l).Pairwise fun y z => ¬ same y z :=
  foldl_add_induction (I := fun l => l.Pairwise fun y z => ¬ same y z)
    (fun _ x h => pairwise_add x h) .nil l

theorem mem_of_mem_ofList {l : List α} {x : α} (h : x ∈ ofList same l) : x ∈ l := by
  have hsub : ∀ s : List α, x ∈ l.foldl (add same) s → x ∈ s ∨ x ∈ l := by
    clear h
    induction l with
    | nil => exact fun _ h => .inl h
    | cons y l ih =>
      intro s h
      rcases ih _ h with h | h
      · rcases mem_of_mem_add h with h | rfl
        · exact .inl h
        · exact .inr List.mem_cons_self
      · exact .inr (List.mem_cons_of_mem _ h)
  simpa using hsub [] h

/-- What is left out is left out for an equivalent element. -/
theorem exists_mem_ofList {l : List α} {x : α} (h : x ∈ l) :
    ∃ y ∈ ofList same l, y = x ∨ same y x := by
  induction l using List.reverseRecOn with
  | nil => cases h
  | append_singleton l z ih =>
    rw [ofList, List.foldl_concat, ← ofList]
    rcases List.mem_append.mp h with h | h
    · obtain ⟨y, hy, hyx⟩ := ih h
      exact ⟨y, mem_add_of_mem z hy, hyx⟩
    · obtain rfl := List.mem_singleton.mp h
      by_cases hany : (ofList same l).any (same · x)
      · obtain ⟨y, hy, hyx⟩ := List.any_eq_true.mp hany
        exact ⟨y, mem_add_of_mem x hy, .inr hyx⟩
      · rw [add_of_not_any hany]
        exact ⟨x, List.mem_append_right _ (List.mem_singleton_self x), .inl rfl⟩

/-- An element is kept where no equivalent one stands before it. -/
theorem mem_ofList_iff (htrans : ∀ x y z, same x y → same y z → same x z) {l : List α} {x : α} :
    x ∈ ofList same l ↔
      ∃ before after, l = before ++ x :: after ∧ ∀ y ∈ before, ¬ same y x := by
  constructor
  · intro h
    induction l using List.reverseRecOn with
    | nil => cases h
    | append_singleton l z ih =>
      rw [ofList, List.foldl_concat, ← ofList] at h
      by_cases hx : x ∈ ofList same l
      · obtain ⟨before, after, rfl, hbefore⟩ := ih hx
        exact ⟨before, after ++ [z], by simp, hbefore⟩
      · obtain rfl := (mem_of_mem_add h).resolve_left hx
        refine ⟨l, [], rfl, fun y hy hyx => ?_⟩
        -- what is kept for `y` would have kept out `x`
        obtain ⟨w, hw, hwy⟩ : ∃ w ∈ ofList same l, w = y ∨ same w y := exists_mem_ofList hy
        have hwx : same w x := by
          rcases hwy with rfl | hwy
          · exact hyx
          · exact htrans w y x hwy hyx
        rw [add_of_any (List.any_eq_true.mpr ⟨w, hw, hwx⟩)] at h
        exact hx h
  · rintro ⟨before, after, rfl, hbefore⟩
    have hnew : ¬ (ofList same before).any (same · x) := by
      rw [List.any_eq_true]
      rintro ⟨y, hy, hyx⟩
      exact hbefore y (mem_of_mem_ofList hy) hyx
    rw [ofList, List.foldl_append, ← ofList, List.foldl_cons, add_of_not_any hnew]
    exact foldl_add_induction (I := fun l => x ∈ l) (fun _ z h => mem_add_of_mem z h)
      (List.mem_append_right _ (List.mem_singleton_self x)) after

/-- New elements without repetition are appended as they are. -/
theorem foldl_add_eq_append {s l : List α} (h : (s ++ l).Pairwise fun y z => ¬ same y z) :
    l.foldl (add same) s = s ++ l := by
  induction l generalizing s with
  | nil => simp
  | cons x l ih =>
    have hs : ¬ s.any (same · x) := by
      rw [List.any_eq_true]
      rintro ⟨y, hy, hyx⟩
      exact (List.pairwise_append.mp h).2.2 y hy x List.mem_cons_self hyx
    rw [List.foldl_cons, add_of_not_any hs, ih (by simpa using h), List.append_assoc,
      List.singleton_append]

/-- A list without repetition is left alone. -/
theorem ofList_eq_self {l : List α} (h : l.Pairwise fun y z => ¬ same y z) :
    ofList same l = l := by
  rw [ofList, foldl_add_eq_append (by simpa using h), List.nil_append]

section Related

variable {R : α → β → Prop}
  (hR : ∀ a b x y, R a b → R x y → same a x = same' b y)

include hR

theorem any_eq_of_forall₂ {l : List α} {m : List β} (h : List.Forall₂ R l m) {x : α} {y : β}
    (hxy : R x y) : l.any (same · x) = m.any (same' · y) := by
  induction h with
  | nil => rfl
  | cons hab _ ih => rw [List.any_cons, List.any_cons, hR _ _ _ _ hab hxy, ih]

theorem forall₂_add {l : List α} {m : List β} (h : List.Forall₂ R l m) {x : α} {y : β}
    (hxy : R x y) : List.Forall₂ R (add same l x) (add same' m y) := by
  have hany := any_eq_of_forall₂ hR h hxy
  simp only [add, hany]
  split
  · exact h
  · exact List.rel_append h (.cons hxy .nil)

/-- Lists that agree element by element are thinned out in the same places. -/
theorem forall₂_ofList {l : List α} {m : List β} (h : List.Forall₂ R l m) :
    List.Forall₂ R (ofList same l) (ofList same' m) := by
  have hfold : ∀ s t, List.Forall₂ R s t →
      List.Forall₂ R (l.foldl (add same) s) (m.foldl (add same') t) := by
    induction h with
    | nil => exact fun _ _ h => h
    | cons hxy _ ih => exact fun _ _ h => ih _ _ (forall₂_add hR h hxy)
  exact hfold [] [] .nil

end Related

end BeanScript.Distinct
