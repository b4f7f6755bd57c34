import BeanScript.Script.Nested
import Mathlib.Data.List.Forall2

/-!
# Induction on values and definitions

Values and definitions nest through lists, holders and tables. Every argument about them needs only
this much: a collection is made of its elements, and a definition of the values it holds. The values
are listed here once, with the names of their positions, and one induction principle goes over both
types. What is proved by it never looks at the containers again.

An attribute filter takes part from the start, since generation never looks at a rejected attribute.

## Main definitions

* `Definition.held` — the values that a definition holds itself, with the names of their positions
* `Definition.Holds` — a value is one of them

## Main results

* `Definition.holds_iff` — where a value can be held
* `Value.induction` — induction on what a value is made of
-/

namespace BeanScript

/-- The filter that rejects no attribute. -/
def KeyFilter.all : KeyFilter := fun _ => true

namespace Definition

/-- The values that a definition holds itself, each with the name of its position, in the order of
a scan. Attributes that `keep` rejects are left out. -/
def held (keep : KeyFilter) (d : Definition) : List (String × Value) :=
  d.indexed.map (fun a => (NestedMethods.indexedPosition a.1, a.2.value)) ++
    d.generic.zipIdx.map (fun a => (NestedMethods.genericPosition a.2 a.1, a.1.value)) ++
    d.properties ++ d.attributes.filter (fun e => keep e.1) ++ d.qualifiers.flatMap Prod.snd

/-- The definition holds the value itself, outside the attributes that `keep` rejects. -/
def Holds (keep : KeyFilter) (d : Definition) (v : Value) : Prop :=
  v ∈ (d.held keep).map Prod.snd

/-- Where a definition holds a value, part by part. -/
theorem holds_iff {keep : KeyFilter} {d : Definition} {v : Value} :
    d.Holds keep v ↔ (∃ a ∈ d.indexed, a.2.value = v) ∨ (∃ h ∈ d.generic, h.value = v) ∨
      (∃ e ∈ d.properties, e.2 = v) ∨ (∃ e ∈ d.attributes, keep e.1 ∧ e.2 = v) ∨
      ∃ q ∈ d.qualifiers, ∃ e ∈ q.2, e.2 = v := by
  have hgeneric : (∃ a ∈ d.generic.zipIdx, a.1.value = v) ↔ ∃ h ∈ d.generic, h.value = v := by
    conv_rhs => rw [← List.zipIdx_map_fst 0 d.generic]
    simp only [List.mem_map, exists_exists_and_eq_and]
  simp only [Holds, held, List.map_append, List.map_map, List.map_flatMap, List.mem_append,
    List.mem_map, List.mem_flatMap, List.mem_filter, Function.comp_apply, hgeneric, or_assoc,
    and_assoc]

/-- What a definition holds is smaller than the definition. -/
theorem Holds.sizeOf_lt {keep : KeyFilter} {d : Definition} {v : Value} (h : d.Holds keep v) :
    sizeOf v < sizeOf d := by
  obtain ⟨settings, indexed, generic, properties, attributes, qualifiers⟩ := d
  have hentry : ∀ (es : List (String × Value)) (e : String × Value), e ∈ es →
      sizeOf e.2 < sizeOf es := by
    rintro es ⟨k, w⟩ he
    have := List.sizeOf_lt_of_mem he
    simp only [Prod.mk.sizeOf_spec] at this ⊢
    omega
  simp only [Definition.mk.sizeOf_spec]
  rcases holds_iff.mp h with ⟨⟨i, w, t, n⟩, ha, rfl⟩ | ⟨⟨w, t, n⟩, hh, rfl⟩ | ⟨e, he, rfl⟩ |
    ⟨e, he, -, rfl⟩ | ⟨⟨t, es⟩, hq, e, he, rfl⟩
  · have := List.sizeOf_lt_of_mem ha
    simp only [Prod.mk.sizeOf_spec, Holder.mk.sizeOf_spec] at this ⊢
    omega
  · have := List.sizeOf_lt_of_mem hh
    simp only [Holder.mk.sizeOf_spec] at this ⊢
    omega
  · have := hentry properties e he
    omega
  · have := hentry attributes e he
    omega
  · have := List.sizeOf_lt_of_mem hq
    have := hentry es e he
    simp only [Prod.mk.sizeOf_spec] at *
    omega

end Definition

/-- Induction on what a value is made of: elements, entries, and for a nested definition the values
that it holds. -/
@[induction_eliminator]
theorem Value.induction {P : Value → Prop} (atom : ∀ a, P (.atom a))
    (array : ∀ c vs, (∀ v ∈ vs, P v) → P (.array c vs))
    (list : ∀ k vs, (∀ v ∈ vs, P v) → P (.list k vs))
    (set : ∀ k vs, (∀ v ∈ vs, P v) → P (.set k vs))
    (map : ∀ k es, (∀ e ∈ es, P e.1 ∧ P e.2) → P (.map k es))
    (bean : ∀ d, (∀ v, d.Holds .all v → P v) → P (.bean d)) (v : Value) : P v := by
  have step := fun w (_ : sizeOf w < sizeOf v) => Value.induction atom array list set map bean w
  have hmem : ∀ {vs : List Value}, sizeOf vs < sizeOf v → ∀ w ∈ vs, P w := fun hvs w hw =>
    step w (Nat.lt_trans (List.sizeOf_lt_of_mem hw) hvs)
  cases v with
  | atom a => exact atom a
  | array c vs => exact array c vs (hmem (by simp only [Value.array.sizeOf_spec]; omega))
  | list k vs => exact list k vs (hmem (by simp only [Value.list.sizeOf_spec]; omega))
  | set k vs => exact set k vs (hmem (by simp only [Value.set.sizeOf_spec]; omega))
  | map k es =>
    refine map k es fun e he => ?_
    have := List.sizeOf_lt_of_mem he
    obtain ⟨x, y⟩ := e
    simp only [Prod.mk.sizeOf_spec] at this
    exact ⟨step x (by simp; omega), step y (by simp; omega)⟩
  | bean d => exact bean d fun w hw => step w (by have := hw.sizeOf_lt; simp; omega)
termination_by sizeOf v

end BeanScript
