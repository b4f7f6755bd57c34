import BeanScript.Replay.Machine
import Mathlib.Order.Defs.Unbundled

/-!
# How machines grow

What an expression does besides giving a result is to create objects. The objects that were there
before are still there, unchanged, and the variables are the same: the machine has *grown*. A
statement makes edits to one definition as well. It is described by the machine on which just these
edits were made, and which has grown since.

## Main definitions

* `Machine.Grows` — the machine afterwards has further objects and is otherwise the same
* `Machine.edit`, `Machine.fill` — a machine with edits made to one object

## Main results

* `Machine.Grows.edit`, `Machine.Grows.fill` — growing and editing commute
* `Machine.definition_edit`, `Machine.qualifier_fill` — what has become of the object
-/

namespace BeanScript

theorem prefix_modify {α : Type u} {xs ys : List α} (h : xs <+: ys) (i : Nat) (f : α → α) :
    xs.modify i f <+: ys.modify i f := by
  obtain ⟨zs, rfl⟩ := h
  rw [List.prefix_iff_eq_take, List.length_modify, List.take_modify, List.take_left]

namespace Machine

/-- The machine afterwards has further objects and is otherwise the same. -/
structure Grows (m m' : Machine) : Prop where
  scopes : m'.scopes = m.scopes
  callers : m'.callers = m.callers
  definitions : m.definitions <+: m'.definitions
  qualifiers : m.qualifiers <+: m'.qualifiers

instance : Std.Refl Grows where
  refl _ := ⟨rfl, rfl, List.prefix_refl _, List.prefix_refl _⟩

instance : IsTrans Machine Grows where
  trans _ _ _ h h' := ⟨h'.scopes.trans h.scopes, h'.callers.trans h.callers,
    h.definitions.trans h'.definitions, h.qualifiers.trans h'.qualifiers⟩

/-- Make edits to a definition. -/
def edit (m : Machine) (id : DefinitionRef) (edits : List Edit) : Machine :=
  { m with definitions := m.definitions.modify id.index (·.applyAll edits) }

/-- Set attributes of a qualifier. -/
def fill (m : Machine) (id : QualifierRef) (attributes : List (String × Value)) : Machine :=
  { m with qualifiers := m.qualifiers.modify id.index fun q =>
      attributes.foldl (fun q e => q.setAttribute e.1 e.2) q }

variable {m m' : Machine} {id : DefinitionRef} {q : QualifierRef}

theorem edit_nil : m.edit id [] = m := by
  rw [edit]
  exact congrArg (fun ds => { m with definitions := ds }) (List.modify_id _ _)

theorem edit_edit (edits further : List Edit) :
    (m.edit id edits).edit id further = m.edit id (edits ++ further) := by
  rw [edit, edit, edit, List.modify_modify_eq]
  congr 2
  funext d
  exact (List.foldl_append ..).symm

theorem fill_nil : m.fill q [] = m := by
  rw [fill]
  exact congrArg (fun qs => { m with qualifiers := qs }) (List.modify_id _ _)

theorem fill_fill (attributes further : List (String × Value)) :
    (m.fill q attributes).fill q further = m.fill q (attributes ++ further) := by
  rw [fill, fill, fill, List.modify_modify_eq]
  congr 2
  funext d
  exact (List.foldl_append ..).symm

/-! What has become of the object. -/

theorem definition_edit (hid : id.index < m.definitions.length) (edits : List Edit) :
    (m.edit id edits).definition id = (m.definition id).applyAll edits := by
  simp [edit, definition, hid]

theorem qualifier_fill (hq : q.index < m.qualifiers.length) (attributes : List (String × Value)) :
    (m.fill q attributes).qualifier q
      = attributes.foldl (fun q e => q.setAttribute e.1 e.2) (m.qualifier q) := by
  simp [fill, qualifier, hq]

namespace Grows

/-- Objects that were there before are unchanged. -/
theorem definition (h : m.Grows m') (hid : id.index < m.definitions.length) :
    m'.definition id = m.definition id := by
  obtain ⟨more, hmore⟩ := h.definitions
  rw [Machine.definition, Machine.definition, ← hmore, List.getElem?_append_left hid]

theorem qualifier (h : m.Grows m') (hq : q.index < m.qualifiers.length) :
    m'.qualifier q = m.qualifier q := by
  obtain ⟨more, hmore⟩ := h.qualifiers
  rw [Machine.qualifier, Machine.qualifier, ← hmore, List.getElem?_append_left hq]

/-- Growing and editing commute. -/
theorem edit (h : m.Grows m') (id : DefinitionRef) (edits : List Edit) :
    (m.edit id edits).Grows (m'.edit id edits) :=
  ⟨h.scopes, h.callers, prefix_modify h.definitions _ _, h.qualifiers⟩

theorem fill (h : m.Grows m') (q : QualifierRef) (attributes : List (String × Value)) :
    (m.fill q attributes).Grows (m'.fill q attributes) :=
  ⟨h.scopes, h.callers, h.definitions, prefix_modify h.qualifiers _ _⟩

/-- Setting attributes of a qualifier that was created meanwhile is part of growing. -/
theorem fill_of_le (h : m.Grows m') (hq : m.qualifiers.length ≤ q.index)
    (attributes : List (String × Value)) : m.Grows (m'.fill q attributes) :=
  ⟨h.scopes, h.callers, h.definitions,
    List.modify_eq_self hq ▸ prefix_modify h.qualifiers _ _⟩

theorem lookUp? (h : m.Grows m') (name : String) :
    m'.scopes.lookUp? name = m.scopes.lookUp? name := by
  rw [h.scopes]

theorem lt_definitions (h : m.Grows m') (hid : id.index < m.definitions.length) :
    id.index < m'.definitions.length :=
  Nat.lt_of_lt_of_le hid h.definitions.length_le

end Grows

end Machine

end BeanScript
