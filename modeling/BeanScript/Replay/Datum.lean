import BeanScript.Bean.Value

/-!
# What expressions evaluate to

Definitions and qualifiers are objects that change, so they are held by reference. Everything else
is a plain value, apart from the few things that only occur on the way: views of the parts of a
definition, arguments with their hints, map entries, and the answer of a call that has none.

## Main definitions

* `DefinitionRef`, `QualifierRef` — references to objects
* `Datum`, `Datum.typeName`
-/

namespace BeanScript

/-- A reference to a definition. -/
structure DefinitionRef where
  index : Nat
deriving DecidableEq

/-- A reference to a qualifier. -/
structure QualifierRef where
  index : Nat
deriving DecidableEq

/-- What an expression evaluates to. -/
inductive Datum
  | value (v : Value)
  | definition (id : DefinitionRef)
  | qualifier (id : QualifierRef)
  /-- The property values of a definition. -/
  | properties (id : DefinitionRef)
  /-- The constructor arguments of a definition. -/
  | arguments (id : DefinitionRef)
  | holder (h : Holder)
  | entry (key value : Value)
  | void

/-- What is there, in words. -/
def Datum.typeName : Datum → String
  | value v => v.kindName
  | definition _ => "bean definition"
  | qualifier _ => "qualifier"
  | properties _ => "property values"
  | arguments _ => "constructor argument values"
  | holder _ => "value holder"
  | entry _ _ => "map entry"
  | void => "void"

end BeanScript
