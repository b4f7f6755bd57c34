import BeanScript.Proofs.Ascending
import BeanScript.Script.Reflection
import Mathlib.Data.String.Basic

/-!
# Recorded invocations

Hints that generation records all allow calls. Such hints are a set of methods, written down in
ascending order: recording adds a method, merging adds all methods of the other hints, and hints
with the same methods are the same.

## Main definitions

* `Member.hint` — the hint that a method may be called
* `Hints.Invocations` — hints in ascending order that all allow calls

## Main results

* `Hints.Invocations.add`, `Hints.Invocations.merge` — what recording and merging add
* `Hints.Invocations.eq_of_mem_iff` — hints with the same methods are the same
* `Definition.mem_hints_iff` — the hints of a definition
-/

namespace BeanScript

/-- The hint that a method may be called. -/
def Member.hint (m : Member) : Hint where
  key := { owner := m.owner, name := m.method.name, parameterTypes := m.method.parameterTypes }
  mode := .invoke

theorem HintKey.texts_injective : Function.Injective HintKey.texts := by
  rintro ⟨⟨o⟩, n, ps⟩ ⟨⟨o'⟩, n', ps'⟩ h
  have htext : Function.Injective ClassName.text := fun ⟨_⟩ ⟨_⟩ h => congrArg _ h
  simp only [texts, List.cons.injEq, (List.map_injective_iff.mpr htext).eq_iff] at h
  obtain ⟨rfl, rfl, rfl⟩ := h
  rfl

namespace Hints

/-- The hints ascend, and each of them allows calls. -/
structure Invocations (hints : Hints) : Prop where
  ascending : hints.Pairwise fun h h' => h.texts < h'.texts
  invoke : ∀ h ∈ hints, h.mode = .invoke

namespace Invocations

variable {hints other : Hints}

theorem nil : Invocations [] where
  ascending := .nil
  invoke := List.forall_mem_nil _

/-- Hints with the same methods are the same. -/
theorem eq_of_mem_iff (h : Invocations hints) (h' : Invocations other)
    (hmem : ∀ x, x ∈ hints ↔ x ∈ other) : hints = other :=
  Ascending.eq_of_mem_iff h.ascending h'.ascending hmem

/-- Recording an invocation adds it. -/
theorem add (h : Invocations hints) {x : Hint} (hx : x.mode = .invoke) :
    Invocations (hints.add x) ∧ ∀ y, y ∈ hints.add x ↔ y ∈ hints ∨ y = x := by
  rw [Hints.add, mode?]
  cases hfind : hints.find? (·.key == x.key) with
  | some z =>
    -- the invocation has been recorded already
    have hz := List.mem_of_find?_eq_some hfind
    have hkey : z.key = x.key := by simpa using List.find?_some hfind
    have hmode := h.invoke z hz
    obtain rfl : z = x := by
      cases z
      cases x
      simp_all
    simp only [Option.map_some, hmode, HintMode.covers, if_true]
    exact ⟨h, fun y => (or_iff_left_of_imp (· ▸ hz)).symm⟩
  | none =>
    have hnew : ∀ z ∈ hints, z.texts ≠ x.texts := by
      intro z hz htexts
      have hkey : z.key ≠ x.key := by simpa using List.find?_eq_none.mp hfind z hz
      exact hkey (HintKey.texts_injective htexts)
    refine ⟨⟨Ascending.pairwise_put x h.ascending, fun y hy => ?_⟩, fun y => ?_⟩
    · rcases Ascending.mem_of_mem_put hy with rfl | hy
      · exact hx
      · exact h.invoke y hy
    · exact (Ascending.mem_put_iff hnew).trans or_comm

/-- Merging invocations adds them. -/
theorem merge (h : Invocations hints) (h' : ∀ x ∈ other, x.mode = .invoke) :
    Invocations (hints.merge other) ∧ ∀ y, y ∈ hints.merge other ↔ y ∈ hints ∨ y ∈ other := by
  induction other generalizing hints with
  | nil => exact ⟨h, fun y => by simp [Hints.merge]⟩
  | cons x other ih =>
    rw [List.forall_mem_cons] at h'
    obtain ⟨hadd, hmem⟩ := h.add h'.1
    obtain ⟨hmerge, hmem'⟩ := ih hadd h'.2
    refine ⟨hmerge, fun y => ?_⟩
    have hstep : hints.merge (x :: other) = (hints.add x).merge other := rfl
    rw [hstep, hmem', hmem, List.mem_cons, or_assoc]

/-- Merging several invocations in turn adds them all. -/
theorem foldl_merge (h : hints.Invocations) {α : Type} {f : α → Hints} (as : List α)
    (hf : ∀ a ∈ as, ∀ x ∈ f a, x.mode = .invoke) :
    (as.foldl (fun hints a => hints.merge (f a)) hints).Invocations ∧
      ∀ y, y ∈ as.foldl (fun hints a => hints.merge (f a)) hints ↔
        y ∈ hints ∨ ∃ a ∈ as, y ∈ f a := by
  induction as generalizing hints with
  | nil => exact ⟨h, fun y => by simp⟩
  | cons a as ih =>
    rw [List.forall_mem_cons] at hf
    obtain ⟨hmerged, hmem⟩ := h.merge hf.1
    obtain ⟨hall, hmem'⟩ := ih hmerged hf.2
    refine ⟨hall, fun y => ?_⟩
    rw [List.foldl_cons, hmem', hmem, List.exists_mem_cons_iff, or_assoc]

end Invocations

end Hints

/-- The hints of a definition are the methods that replaying it calls by name. -/
theorem Definition.mem_hints_iff (source : TypeSource) (setter? : String → Option Member)
    (d : Definition) : (d.hints source setter?).Invocations ∧
      ∀ y, y ∈ d.hints source setter? ↔ ∃ m ∈ d.reflectedMethods source setter?, m.hint = y := by
  have hmerge : d.hints source setter?
      = Hints.merge [] ((d.reflectedMethods source setter?).map Member.hint) := by
    rw [hints, Hints.merge, List.foldl_map]
    rfl
  have hinvoke : ∀ x ∈ (d.reflectedMethods source setter?).map Member.hint, x.mode = .invoke := by
    rw [List.forall_mem_map]
    exact fun _ _ => rfl
  obtain ⟨hinvocations, hmem⟩ := Hints.Invocations.nil.merge hinvoke
  rw [hmerge]
  refine ⟨hinvocations, fun y => ?_⟩
  rw [hmem, List.mem_map]
  simp

end BeanScript
