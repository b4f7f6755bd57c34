import BeanScript.Distinct
import BeanScript.Types.TypeSource

/-!
# Methods along the superclass chain

The methods visible on a type are those it declares and those it inherits and does not override.
The walk up the chain ends at a type without a known superclass, and at a type it has visited
before, since a chain may turn back on itself.

## Main definitions

* `TypeSource.ancestry` — the types from a type upwards
* `TypeSource.visibleMethods` — nearest declarations, each with the type that declares it
* `TypeSource.callback?` — the parameterless method of a name
* `Setters` — the setters of a type by name
-/

namespace BeanScript

/-- A method with the type that declares it. -/
structure Member where
  owner : ClassName
  method : MethodDecl
deriving DecidableEq

namespace Member

/-- Whether both methods have the same name and parameter types. -/
def sameSignature (m n : Member) : Bool :=
  m.method.sameSignature n.method

/-- The methods that a type declares. -/
def ofType (d : TypeDecl) : List Member :=
  d.methods.map fun method => { owner := d.type, method }

end Member

namespace TypeSource

/-- The types from `d` upwards, up to one in `seen` and no more than `n` of them. -/
def ancestryFrom (source : TypeSource) : Nat → List ClassName → TypeDecl →
    List TypeDecl
  | 0, _, _ => []
  | n + 1, seen, d =>
    if d.type ∈ seen then []
    else
      d :: match d.superclass.bind source.describe with
        | none => []
        | some parent => source.ancestryFrom n (d.type :: seen) parent

/-- The types from `d` upwards. Each is visited once, so there are no more than are known. -/
def ancestry (source : TypeSource) (d : TypeDecl) : List TypeDecl :=
  source.ancestryFrom source.types.length [] d

/-- The methods visible on a type: going up its chain, each method that has no nearer one with the
same signature. -/
def visibleMethods (source : TypeSource) (type : ClassName) :
    Except UnknownType (List Member) :=
  match source.describe type with
  | none => .error { type }
  | some d =>
    .ok (Distinct.ofList Member.sameSignature
      ((source.ancestry d).flatMap Member.ofType))

/-- The parameterless method of the given name that is visible on a type. -/
def callback? (source : TypeSource) (type : ClassName) (name : String) :
    Except UnknownType (Option Member) :=
  (source.visibleMethods type).map fun methods => methods.find? (·.method.isCallback name)

end TypeSource

/-- Setters by name. A name that several setters share is ambiguous and stands for none. -/
abbrev Setters := Table String (Option Member)

namespace Setters

/-- Add a visible method, if it is a setter. -/
def add (setters : Setters) (m : Member) : Setters :=
  if m.method.isSetter then
    Table.put setters m.method.name
      (if Table.has setters m.method.name then none else some m)
  else setters

/-- The setters among the given methods. -/
def ofMethods (methods : List Member) : Setters :=
  methods.foldl add []

/-- The setter of a property, where there is exactly one. -/
def find? (setters : Setters) (property : String) : Option Member :=
  if property = "" then none else (Table.get? setters (setterName property)).join

end Setters

/-- The setters of a type. -/
def TypeSource.setters (source : TypeSource) (type : ClassName) : Except UnknownType Setters :=
  (source.visibleMethods type).map Setters.ofMethods

end BeanScript
