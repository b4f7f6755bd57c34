import Mathlib.Data.List.Forall2

/-!
# Lists, element by element

Two lists that are related element by element, and computations that go through a list and may fail:
such a computation succeeds when it succeeds on every element, and otherwise gives the first fault.

## Main results

* `forall₂_mem`, `forall₂_trans_of` — relations that hold only of members of the lists
* `mapM_eq_ok_iff` — success on a list is success on every element
* `exists_of_mapM_eq_error` — failure on a list is failure on an element
-/

namespace BeanScript

/-! ### Relations -/

section Relations

variable {α : Type u} {β : Type v} {γ : Type w}

/-- Related elements are members of their lists. -/
theorem forall₂_mem {R : α → β → Prop} {xs : List α} {ys : List β} (h : List.Forall₂ R xs ys) :
    List.Forall₂ (fun x y => x ∈ xs ∧ y ∈ ys ∧ R x y) xs ys := by
  induction h with
  | nil => exact .nil
  | cons hxy _ ih =>
    refine .cons ⟨List.mem_cons_self, List.mem_cons_self, hxy⟩ (ih.imp ?_)
    rintro x y ⟨hx, hy, hR⟩
    exact ⟨List.mem_cons_of_mem _ hx, List.mem_cons_of_mem _ hy, hR⟩

/-- Every member of the first list has its counterpart in the second. -/
theorem exists_of_forall₂ {R : α → β → Prop} {xs : List α} {ys : List β}
    (h : List.Forall₂ R xs ys) {x : α} (hx : x ∈ xs) : ∃ y ∈ ys, R x y := by
  induction h with
  | nil => cases hx
  | cons hxy _ ih =>
    rcases List.mem_cons.mp hx with rfl | hx
    · exact ⟨_, List.mem_cons_self, hxy⟩
    · obtain ⟨y, hy, hR⟩ := ih hx
      exact ⟨y, List.mem_cons_of_mem _ hy, hR⟩

theorem forall₂_singleton_left {P : α → β → Prop} {a : α} {bs : List β}
    (h : List.Forall₂ P [a] bs) : ∃ b, bs = [b] ∧ P a b := by
  obtain ⟨b, bs', hab, hbs', rfl⟩ := List.forall₂_cons_left_iff.mp h
  rw [List.forall₂_nil_left_iff] at hbs'
  exact ⟨b, by rw [hbs'], hab⟩

theorem forall₂_imp_of_mem {R S : α → β → Prop} {xs : List α} {ys : List β}
    (h : List.Forall₂ R xs ys) (hRS : ∀ x ∈ xs, ∀ y ∈ ys, R x y → S x y) :
    List.Forall₂ S xs ys :=
  (forall₂_mem h).imp fun x y ⟨hx, hy, hR⟩ => hRS x hx y hy hR

theorem forall₂_flip_of_mem {R : α → β → Prop} {S : β → α → Prop} {xs : List α} {ys : List β}
    (h : List.Forall₂ R xs ys) (hRS : ∀ x ∈ xs, ∀ y ∈ ys, R x y → S y x) :
    List.Forall₂ S ys xs :=
  (forall₂_imp_of_mem (S := fun x y => S y x) h hRS).flip

theorem forall₂_trans_of {R : α → β → Prop} {S : β → γ → Prop} {T : α → γ → Prop}
    {xs : List α} {ys : List β} {zs : List γ} (h : List.Forall₂ R xs ys)
    (h' : List.Forall₂ S ys zs) (hT : ∀ x ∈ xs, ∀ y ∈ ys, ∀ z ∈ zs, R x y → S y z → T x z) :
    List.Forall₂ T xs zs := by
  induction h generalizing zs with
  | nil => cases h'; exact .nil
  | cons hxy _ ih =>
    cases h' with
    | cons hyz h' =>
      rw [List.forall_mem_cons] at hT
      refine .cons (hT.1 _ List.mem_cons_self _ List.mem_cons_self hxy hyz) (ih h' ?_)
      exact fun x hx y hy z hz =>
        hT.2 x hx y (List.mem_cons_of_mem _ hy) z (List.mem_cons_of_mem _ hz)

/-- What two related lists lead to, element by element, is related. -/
theorem forall₂_join {α' : Type x} {β' : Type y} {P : α → α' → Prop} {R : α → β → Prop}
    {Q : β → β' → Prop} {S : α' → β' → Prop} {xs : List α} {xs' : List α'} {ys : List β}
    {ys' : List β'} (hP : List.Forall₂ P xs xs') (hR : List.Forall₂ R xs ys)
    (hQ : List.Forall₂ Q ys ys') (hS : ∀ a a' b b', P a a' → R a b → Q b b' → S a' b') :
    List.Forall₂ S xs' ys' := by
  induction hP generalizing ys ys' with
  | nil => cases hR; cases hQ; exact .nil
  | cons hp _ ih =>
    cases hR with
    | cons hr hR =>
      cases hQ with
      | cons hq hQ => exact .cons (hS _ _ _ _ hp hr hq) (ih hR hQ)

/-- What is recovered from the elements of the second list makes up the first. -/
theorem map_eq_of_forall₂ {f : β → α} {xs : List α} {ys : List β}
    (h : List.Forall₂ (fun x y => f y = x) xs ys) : ys.map f = xs := by
  induction h with
  | nil => rfl
  | cons hxy _ ih => rw [List.map_cons, hxy, ih]

/-- Elements that are made of something related to those of the first list are made of a list. -/
theorem exists_map_of_forall₂ {P : α → β → Prop} {f : β → γ} {xs : List α} {zs : List γ}
    (h : List.Forall₂ (fun x z => ∃ y, P x y ∧ f y = z) xs zs) :
    ∃ ys, List.Forall₂ P xs ys ∧ ys.map f = zs := by
  induction h with
  | nil => exact ⟨[], .nil, rfl⟩
  | cons hxz _ ih =>
    obtain ⟨y, hxy, rfl⟩ := hxz
    obtain ⟨ys, hys, rfl⟩ := ih
    exact ⟨y :: ys, .cons hxy hys, rfl⟩

end Relations

/-! ### Computations -/

variable {α β γ : Type u} {ε : Type v}

@[simp] theorem pure_eq_ok (a : α) : (pure a : Except ε α) = .ok a := rfl

@[simp] theorem throw_eq_error (e : ε) : (throw e : Except ε α) = .error e := rfl

@[simp] theorem ok_bind (a : α) (f : α → Except ε β) : (Except.ok a >>= f) = f a := rfl

@[simp] theorem error_bind (e : ε) (f : α → Except ε β) :
    (Except.error e >>= f) = Except.error e := rfl

@[simp] theorem map_ok (f : α → β) (a : α) : (Except.ok a : Except ε α).map f = .ok (f a) := rfl

@[simp] theorem map_error (f : α → β) (e : ε) : (Except.error e).map f = .error e := rfl

theorem map_eq_bind (f : α → β) (r : Except ε α) : r.map f = r >>= fun a => .ok (f a) := by
  cases r <;> rfl

theorem map_map_eq (f : α → β) (g : β → γ) (r : Except ε α) :
    (r.map f).map g = r.map fun a => g (f a) := by
  cases r <;> rfl

theorem bind_eq_ok_iff {r : Except ε α} {f : α → Except ε β} {b : β} :
    (r >>= f) = .ok b ↔ ∃ a, r = .ok a ∧ f a = .ok b := by
  cases r <;> simp

theorem map_eq_ok_iff {r : Except ε α} {f : α → β} {b : β} :
    r.map f = .ok b ↔ ∃ a, r = .ok a ∧ f a = b := by
  cases r <;> simp

theorem bind_eq_error_iff {r : Except ε α} {f : α → Except ε β} {e : ε} :
    (r >>= f) = .error e ↔ r = .error e ∨ ∃ a, r = .ok a ∧ f a = .error e := by
  cases r <;> simp

theorem map_eq_error_iff {r : Except ε α} {f : α → β} {e : ε} :
    r.map f = .error e ↔ r = .error e := by
  cases r <;> simp

theorem exists_map_eq_ok_iff {r : Except ε α} {f : α → β} :
    (∃ b, r.map f = .ok b) ↔ ∃ a, r = .ok a := by
  cases r <;> simp

theorem mapM_cons_eq (f : α → Except ε β) (x : α) (xs : List α) :
    (x :: xs).mapM f = f x >>= fun y => (xs.mapM f).map (y :: ·) := by
  rw [List.mapM_cons]
  simp only [map_eq_bind]
  rfl

theorem mapM_ok (f : α → β) (xs : List α) :
    xs.mapM (fun x => (Except.ok (f x) : Except ε β)) = .ok (xs.map f) := by
  induction xs with
  | nil => rfl
  | cons x xs ih => rw [mapM_cons_eq, ih, ok_bind, map_ok, List.map_cons]

/-- Success on a list is success on every element. -/
theorem mapM_eq_ok_iff {f : α → Except ε β} {xs : List α} {ys : List β} :
    xs.mapM f = .ok ys ↔ List.Forall₂ (fun x y => f x = .ok y) xs ys := by
  induction xs generalizing ys with
  | nil =>
    rw [List.mapM_nil, List.forall₂_nil_left_iff]
    exact ⟨fun h => (Except.ok.inj h).symm, fun h => congrArg Except.ok h.symm⟩
  | cons x xs ih =>
    rw [mapM_cons_eq, bind_eq_ok_iff, List.forall₂_cons_left_iff]
    constructor
    · rintro ⟨y, hy, h⟩
      obtain ⟨ys, hys, rfl⟩ := map_eq_ok_iff.mp h
      exact ⟨y, ys, hy, ih.mp hys, rfl⟩
    · rintro ⟨y, ys, hy, hys, rfl⟩
      exact ⟨y, hy, map_eq_ok_iff.mpr ⟨ys, ih.mpr hys, rfl⟩⟩

theorem exists_mapM_eq_ok {f : α → Except ε β} {xs : List α} (h : ∀ x ∈ xs, ∃ y, f x = .ok y) :
    ∃ ys, xs.mapM f = .ok ys := by
  induction xs with
  | nil => exact ⟨[], rfl⟩
  | cons x xs ih =>
    rw [List.forall_mem_cons] at h
    obtain ⟨y, hy⟩ := h.1
    obtain ⟨ys, hys⟩ := ih h.2
    exact ⟨y :: ys, by rw [mapM_cons_eq, hy, hys, ok_bind, map_ok]⟩

theorem exists_of_mapM_eq_ok {f : α → Except ε β} {xs : List α} {ys : List β}
    (h : xs.mapM f = .ok ys) {y : β} (hy : y ∈ ys) : ∃ x ∈ xs, f x = .ok y := by
  have hflip := forall₂_flip_of_mem (S := fun y x => f x = .ok y) (mapM_eq_ok_iff.mp h)
    fun _ _ _ _ h => h
  exact exists_of_forall₂ hflip hy

theorem exists_mapM_eq_ok_iff {f : α → Except ε β} {xs : List α} :
    (∃ ys, xs.mapM f = .ok ys) ↔ ∀ x ∈ xs, ∃ y, f x = .ok y := by
  refine ⟨?_, exists_mapM_eq_ok⟩
  rintro ⟨ys, hys⟩ x hx
  obtain ⟨y, -, hy⟩ := exists_of_forall₂ (mapM_eq_ok_iff.mp hys) hx
  exact ⟨y, hy⟩

/-- A list on which the computation fails has an element on which it does. -/
theorem exists_of_mapM_eq_error {f : α → Except ε β} {xs : List α} {e : ε}
    (h : xs.mapM f = .error e) : ∃ x ∈ xs, f x = .error e := by
  induction xs with
  | nil => cases h
  | cons x xs ih =>
    rw [mapM_cons_eq] at h
    cases hx : f x with
    | error e' =>
      rw [hx, error_bind] at h
      cases h
      exact ⟨x, List.mem_cons_self, hx⟩
    | ok y =>
      rw [hx, ok_bind] at h
      cases hxs : xs.mapM f with
      | error e' =>
        rw [hxs, map_error] at h
        cases h
        obtain ⟨z, hz, hze⟩ := ih hxs
        exact ⟨z, List.mem_cons_of_mem _ hz, hze⟩
      | ok ys => rw [hxs, map_ok] at h; cases h

theorem mapM_append_eq (f : α → Except ε β) (xs ys : List α) :
    (xs ++ ys).mapM f = xs.mapM f >>= fun as => (ys.mapM f).map (as ++ ·) := by
  rw [List.mapM_append]
  simp only [map_eq_bind]
  rfl

theorem mapM_append_eq_ok_iff {f : α → Except ε β} {xs ys : List α} {zs : List β} :
    (xs ++ ys).mapM f = .ok zs ↔
      ∃ as bs, xs.mapM f = .ok as ∧ ys.mapM f = .ok bs ∧ as ++ bs = zs := by
  rw [mapM_append_eq, bind_eq_ok_iff]
  constructor
  · rintro ⟨as, has, h⟩
    obtain ⟨bs, hbs, rfl⟩ := map_eq_ok_iff.mp h
    exact ⟨as, bs, has, hbs, rfl⟩
  · rintro ⟨as, bs, has, hbs, rfl⟩
    exact ⟨as, has, map_eq_ok_iff.mpr ⟨bs, hbs, rfl⟩⟩

theorem mapM_map_eq (f : α → Except ε β) (g : β → γ) (xs : List α) :
    xs.mapM (fun x => (f x).map g) = (xs.mapM f).map (List.map g) := by
  induction xs with
  | nil => rfl
  | cons x xs ih =>
    rw [mapM_cons_eq, mapM_cons_eq, ih]
    cases f x <;> cases xs.mapM f <;> rfl

/-- What is made of an element and of the result on it is made of both lists. -/
theorem mapM_map_with (f : α → Except ε β) (g : α → β → γ) (xs : List α) :
    xs.mapM (fun x => (f x).map (g x)) = (xs.mapM f).map fun ys => List.zipWith g xs ys := by
  induction xs with
  | nil => rfl
  | cons x xs ih =>
    rw [mapM_cons_eq, mapM_cons_eq, ih]
    cases f x <;> cases xs.mapM f <;> rfl

theorem mapM_congr_of_mem {f g : α → Except ε β} {xs : List α} (h : ∀ x ∈ xs, f x = g x) :
    xs.mapM f = xs.mapM g := by
  induction xs with
  | nil => rfl
  | cons x xs ih =>
    rw [List.forall_mem_cons] at h
    rw [mapM_cons_eq, mapM_cons_eq, h.1, ih h.2]

end BeanScript
