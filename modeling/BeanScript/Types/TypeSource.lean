import BeanScript.Table
import BeanScript.Types.Decl

/-!
# What is known about types

A type source describes types by name. It knows finitely many types, though it may know one under
several names, and the superclass of a type need not be known.

## Main definitions

* `TypeSource`, `TypeSource.empty`
* `Registry`, `Registry.register`, `Registry.source` — the types that were registered
* `UnknownType` — the failure to describe a type
-/

namespace BeanScript

/-- What is known about types: a description for finitely many of them. -/
structure TypeSource where
  describe : ClassName → Option TypeDecl
  /-- Types among which all described types are. -/
  types : List ClassName
  type_mem : ∀ {name : ClassName} {d : TypeDecl}, describe name = some d → d.type ∈ types

/-- The source that knows no type. -/
def TypeSource.empty : TypeSource where
  describe _ := none
  types := []
  type_mem h := by cases h

/-- Descriptions of types by the type they describe. -/
abbrev Registry := Table ClassName TypeDecl

namespace Registry

/-- Register a type, in place of an earlier description of it. -/
def register (r : Registry) (d : TypeDecl) : Registry :=
  Table.put r d.type d

/-- Register the given types in turn. -/
def ofList (types : List TypeDecl) : Registry :=
  types.foldl register []

/-- A registry knows exactly the types that were registered. -/
def source (r : Registry) : TypeSource where
  describe := Table.get? r
  types := r.map (·.2.type)
  type_mem {name d} h := by
    induction r with
    | nil => cases h
    | cons entry r ih =>
      obtain ⟨k, e⟩ := entry
      rw [Table.get?_cons] at h
      split at h
      · cases h; simp
      · exact List.mem_cons_of_mem _ (ih h)

end Registry

/-- The failure to describe a type. -/
structure UnknownType where
  type : ClassName
deriving DecidableEq

/-- The failure in words. -/
def UnknownType.message (e : UnknownType) : String :=
  "type `" ++ e.type.text ++ "` is not known"

end BeanScript
