import BeanScript.ClassName
import BeanScript.Text.ToUpper

/-!
# Types and their methods

What a generator may ask about a type: its superclass, whether it is a factory for other objects,
and the methods it declares. A setter is a public method of one parameter whose name is `set` with
something after it; the setter of a property carries the property's name with its first character
in upper case.

## Main definitions

* `Visibility`, `MethodDecl`, `TypeDecl`
* `setterName` — the conventional setter name of a property
-/

namespace BeanScript

/-- Who may call a method. -/
inductive Visibility
  | publicAccess
  | protectedAccess
  | packageAccess
  | privateAccess
deriving DecidableEq

/-- A method declared on a type. -/
structure MethodDecl where
  name : String
  parameterTypes : List ClassName := []
  visibility : Visibility := .publicAccess
deriving DecidableEq

/-- A type, with the methods it declares itself. -/
structure TypeDecl where
  type : ClassName
  superclass : Option ClassName := none
  /-- Whether the type is a factory, whose own setters configure it rather than its product. -/
  isFactory : Bool := false
  methods : List MethodDecl := []
deriving DecidableEq

/-- The conventional name of the setter of a property. -/
def setterName (property : String) : String :=
  match property.toList with
  | [] => "set"
  | c :: cs => "set" ++ String.ofList (Text.toUpper c ++ cs)

namespace MethodDecl

/-- Whether both methods have the same name and parameter types. -/
def sameSignature (m n : MethodDecl) : Bool :=
  m.name == n.name && m.parameterTypes == n.parameterTypes

/-- The public setter of a property. -/
def setter (property : String) (type : ClassName) : MethodDecl :=
  { name := setterName property, parameterTypes := [type] }

/-- Whether the method can serve as the setter of some property. -/
def isSetter (m : MethodDecl) : Bool :=
  m.visibility == .publicAccess && m.parameterTypes.length == 1 &&
    match m.name.toList with
    | 's' :: 'e' :: 't' :: _ :: _ => true
    | _ => false

/-- Whether the method can serve as the lifecycle callback of the given name. -/
def isCallback (m : MethodDecl) (name : String) : Bool :=
  m.name == name && m.parameterTypes.isEmpty

end MethodDecl

end BeanScript
