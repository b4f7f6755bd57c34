import BeanScript.Proofs.Pointwise

/-!
# Agreement of two computations

Two computations that may fail agree when both succeed, with related results, or both fail, whatever
the faults. Agreement goes through mapping, sequencing and lists.

## Main definitions

* `Agree` — both succeed with related results, or both fail

## Main results

* `agree_iff` — agreement, from success and results
* `Agree.bind`, `Agree.mapM` — computations that agree step by step
-/

namespace BeanScript

variable {α α' β β' : Type u} {ε : Type v}

/-- Both results are there and related, or neither is there. -/
inductive Agree (R : α → β → Prop) : Except ε α → Except ε β → Prop
  | ok {a : α} {b : β} (h : R a b) : Agree R (.ok a) (.ok b)
  | error (e f : ε) : Agree R (.error e) (.error f)

theorem agree_iff {R : α → β → Prop} {r : Except ε α} {s : Except ε β} :
    Agree R r s ↔ ((∃ a, r = .ok a) ↔ ∃ b, s = .ok b) ∧
      ∀ a b, r = .ok a → s = .ok b → R a b := by
  constructor
  · intro h
    cases h with
    | ok h =>
      refine ⟨⟨fun _ => ⟨_, rfl⟩, fun _ => ⟨_, rfl⟩⟩, ?_⟩
      rintro _ _ ⟨⟩ ⟨⟩
      exact h
    | error e f => simp
  · rintro ⟨hsuccess, hresults⟩
    cases r with
    | ok a =>
      obtain ⟨b, rfl⟩ := hsuccess.mp ⟨a, rfl⟩
      exact .ok (hresults a b rfl rfl)
    | error e =>
      cases s with
      | ok b =>
        obtain ⟨a, ha⟩ := hsuccess.mpr ⟨b, rfl⟩
        cases ha
      | error f => exact .error e f

namespace Agree

variable {R : α → β → Prop} {S : α' → β' → Prop} {r : Except ε α} {s : Except ε β}

theorem imp {R' : α → β → Prop} (h : Agree R r s) (hR : ∀ a b, R a b → R' a b) : Agree R' r s := by
  cases h with
  | ok h => exact .ok (hR _ _ h)
  | error e f => exact .error e f

theorem bind {f : α → Except ε α'} {g : β → Except ε β'} (h : Agree R r s)
    (hfg : ∀ a b, R a b → Agree S (f a) (g b)) : Agree S (r >>= f) (s >>= g) := by
  cases h with
  | ok h => exact hfg _ _ h
  | error e f => exact .error e f

theorem map {f : α → α'} {g : β → β'} (h : Agree R r s) (hfg : ∀ a b, R a b → S (f a) (g b)) :
    Agree S (r.map f) (s.map g) := by
  cases h with
  | ok h => exact .ok (hfg _ _ h)
  | error e f => exact .error e f

/-- Computations that agree on all elements agree on the lists. -/
theorem mapM {xs : List α'} {ys : List β'} {f : α' → Except ε α} {g : β' → Except ε β}
    (h : List.Forall₂ (fun x y => Agree R (f x) (g y)) xs ys) :
    Agree (List.Forall₂ R) (xs.mapM f) (ys.mapM g) := by
  induction h with
  | nil => exact .ok .nil
  | cons hxy _ ih =>
    rw [mapM_cons_eq, mapM_cons_eq]
    exact hxy.bind fun _ _ hab => ih.map fun _ _ hrest => .cons hab hrest

end Agree

end BeanScript
