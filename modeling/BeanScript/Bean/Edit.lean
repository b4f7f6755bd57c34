import BeanScript.Ascending
import BeanScript.Bean.Collection

/-!
# Editing definitions

A definition is built by edits, one for each thing that can be set, added or removed. Names,
keys and qualifier types are unique: a repeated one replaces the value in place. An argument at an
index that is taken replaces the one there; a generic argument equal to one already present is
ignored.

## Main definitions

* `Edit`, `Definition.apply`, `Definition.applyAll`
* `Definition.ofClass` and the look-ups in a definition
-/

namespace BeanScript

/-- A change to a bean definition. -/
inductive Edit
  | setPrimary (b : Bool)
  | setFallback (b : Bool)
  | setScope (scope : String)
  | setDependsOn (names : List String)
  | setLazyInit (b : Bool)
  | setAutowireCandidate (b : Bool)
  | setDefaultCandidate (b : Bool)
  | setSynthetic (b : Bool)
  | setRole (role : Role)
  | setInitMethods (names : List String)
  | setDestroyMethods (names : List String)
  | setTargetType (type : ClassName)
  | setBeanClass (type : ClassName)
  | addIndexed (index : Nat) (argument : Holder)
  | addGeneric (argument : Holder)
  | addProperty (name : String) (value : Value)
  | removeProperty (name : String)
  | setAttribute (key : String) (value : Value)
  | removeAttribute (key : String)
  | addQualifier (qualifier : Qualifier)

namespace Definition

/-- Make one change. -/
def apply (d : Definition) : Edit → Definition
  | .setPrimary b => { d with settings := { d.settings with primary := b } }
  | .setFallback b => { d with settings := { d.settings with fallback := b } }
  | .setScope scope => { d with settings := { d.settings with scope := scope } }
  | .setDependsOn names => { d with settings := { d.settings with dependsOn := some names } }
  | .setLazyInit b => { d with settings := { d.settings with lazyInit := some b } }
  | .setAutowireCandidate b => { d with settings := { d.settings with autowireCandidate := b } }
  | .setDefaultCandidate b => { d with settings := { d.settings with defaultCandidate := b } }
  | .setSynthetic b => { d with settings := { d.settings with synthetic := b } }
  | .setRole role => { d with settings := { d.settings with role := role } }
  | .setInitMethods names => { d with settings := { d.settings with initMethods := some names } }
  | .setDestroyMethods names =>
    { d with settings := { d.settings with destroyMethods := some names } }
  | .setTargetType type => { d with settings := { d.settings with targetType := some type } }
  | .setBeanClass type => { d with settings := { d.settings with beanClass := some type } }
  | .addIndexed index argument =>
    { d with indexed := Ascending.put Prod.fst (index, argument) d.indexed }
  | .addGeneric argument => { d with generic := Distinct.add (· == ·) d.generic argument }
  | .addProperty name value => { d with properties := Table.put d.properties name value }
  | .removeProperty name => { d with properties := Table.remove d.properties name }
  | .setAttribute key value => { d with attributes := Table.put d.attributes key value }
  | .removeAttribute key => { d with attributes := Table.remove d.attributes key }
  | .addQualifier q => { d with qualifiers := Table.put d.qualifiers q.typeName q.attributes }

/-- Make the given changes in turn. -/
def applyAll (d : Definition) (edits : List Edit) : Definition :=
  edits.foldl apply d

/-- A fresh definition with a bean class. -/
def ofClass (type : ClassName) : Definition :=
  apply {} (.setBeanClass type)

/-- Whether initialization is lazy; it is not unless set so. -/
def isLazyInit (d : Definition) : Bool :=
  d.settings.lazyInit.getD false

/-- The type that instances of the bean will have: the target type where one is set, and the bean
class otherwise. -/
def instanceType? (d : Definition) : Option ClassName :=
  d.settings.targetType <|> d.settings.beanClass

/-- The value of a property. -/
def property? (d : Definition) (name : String) : Option Value :=
  Table.get? d.properties name

/-- The value of an attribute. -/
def attribute? (d : Definition) (key : String) : Option Value :=
  Table.get? d.attributes key

/-- The qualifier of a type. -/
def qualifier? (d : Definition) (typeName : String) : Option Qualifier :=
  (Table.get? d.qualifiers typeName).map fun attributes => { typeName, attributes }

/-- The qualifiers in order. -/
def qualifierList (d : Definition) : List Qualifier :=
  d.qualifiers.map fun (typeName, attributes) => { typeName, attributes }

/-- The constructor argument at a position. -/
def indexed? (d : Definition) (index : Nat) : Option Holder :=
  (Ascending.find? Prod.fst index d.indexed).map Prod.snd

/-- The number of constructor arguments. -/
def argumentCount (d : Definition) : Nat :=
  d.indexed.length + d.generic.length

end Definition

end BeanScript
