import BeanScript.Bean.Role
import BeanScript.ClassName
import BeanScript.Code.Literal
import BeanScript.Table

/-!
# Values and bean definitions

A bean definition describes how to construct and configure an object. Its constructor arguments,
properties, attributes and qualifiers hold values, and a value may be a bean definition again, so
the two are defined together. Collections come managed and plain, and keep their kind: a managed
list is not a plain one.

## Main definitions

* `Atom` — values without parts; `BeanReference` — a deferred reference to another bean
* `Value`, `Holder`, `Definition` — the mutual types; `Settings` — the parts of a definition that
  hold no value
* `Qualifier` — a qualifier type with its attributes
* `Value.kindName` and the classification of values
-/

namespace BeanScript

/-- A deferred reference to another bean, by its name and perhaps its type. -/
structure BeanReference where
  name : String
  type : Option ClassName := none
  /-- Whether the parent factory resolves it. -/
  inParent : Bool := false
deriving DecidableEq

/-- A reference to the bean of a type, under the name of the type. -/
def BeanReference.ofType (type : ClassName) : BeanReference :=
  { name := type.text, type := some type }

/-- A value without parts. -/
inductive Atom
  | literal (l : Literal)
  /-- The class object of a type, not an instance of it. -/
  | classObject (type : ClassName)
  | enumConstant (type : ClassName) (name : String)
  /-- A deferred reference to a bean by name only. -/
  | beanName (name : String)
  | beanReference (r : BeanReference)
  /-- An instance of a type that has no written form. -/
  | instanceOf (type : ClassName)
deriving DecidableEq

/-- Managed collections may hold references that are resolved later; plain ones may not. -/
inductive Kind
  | managed
  | plain
deriving DecidableEq

/-- The parts of a bean definition that hold no value. The defaults are those of a fresh
definition. -/
structure Settings where
  primary : Bool := false
  fallback : Bool := false
  /-- The scope name, empty for the default scope. -/
  scope : String := ""
  dependsOn : Option (List String) := none
  /-- `none` when never set. -/
  lazyInit : Option Bool := none
  autowireCandidate : Bool := true
  defaultCandidate : Bool := true
  synthetic : Bool := false
  role : Role := .application
  initMethods : Option (List String) := none
  destroyMethods : Option (List String) := none
  targetType : Option ClassName := none
  beanClass : Option ClassName := none
deriving DecidableEq

mutual

/-- A value that a bean definition can hold. -/
inductive Value
  | atom (a : Atom)
  | array (component : ClassName) (elements : List Value)
  | list (kind : Kind) (elements : List Value)
  /-- The elements are distinct, in the order of their insertion. -/
  | set (kind : Kind) (elements : List Value)
  /-- The keys are distinct, in the order of their insertion. -/
  | map (kind : Kind) (entries : List (Value × Value))
  /-- A nested bean definition. -/
  | bean (d : Definition)

/-- A constructor argument, with the type and the parameter name it is meant for. -/
structure Holder where
  value : Value
  typeName : Option String := none
  name : Option String := none

/-- A bean definition. Properties and attributes are tables, and so are qualifiers: a qualifier is
stored under its type, with the table of its attributes. -/
structure Definition where
  settings : Settings := {}
  /-- Constructor arguments by position, ascending. -/
  indexed : List (Nat × Holder) := []
  /-- Constructor arguments matched by type or name, distinct. -/
  generic : List Holder := []
  properties : List (String × Value) := []
  attributes : List (String × Value) := []
  qualifiers : List (String × List (String × Value)) := []

end

/-- A qualifier: a type with named attributes. -/
structure Qualifier where
  typeName : String
  attributes : Table String Value := []

namespace Qualifier

/-- The key of the attribute that holds the primary value. -/
def valueKey : String := "value"

/-- Set an attribute. -/
def setAttribute (q : Qualifier) (key : String) (v : Value) : Qualifier :=
  { q with attributes := Table.put q.attributes key v }

/-- A qualifier with a primary value. -/
def ofValue (typeName : String) (v : Value) : Qualifier :=
  setAttribute { typeName } valueKey v

/-- The attribute under a key. -/
def attribute? (q : Qualifier) (key : String) : Option Value :=
  Table.get? q.attributes key

/-- The primary value. -/
def value? (q : Qualifier) : Option Value :=
  q.attribute? valueKey

end Qualifier

/-- Whether the argument carries more than its value. -/
def Holder.hasHints (h : Holder) : Bool :=
  h.typeName.isSome || h.name.isSome

/-- The kind of a value without parts, in words. -/
def Atom.kindName : Atom → String
  | .literal .null => "null"
  | .literal (.bool _) => "bool"
  | .literal (.int _) => "int"
  | .literal (.long _) => "long"
  | .literal (.double _) => "double"
  | .literal (.char _) => "char"
  | .literal (.string _) => "string"
  | .classObject _ => "class"
  | .enumConstant _ _ => "enum"
  | .beanName _ => "bean name reference"
  | .beanReference _ => "bean reference"
  | .instanceOf type => "instance of " ++ type.text

namespace Value

/-- A literal as a value. -/
def literal (l : Literal) : Value := .atom (.literal l)

/-- The null value. -/
def null : Value := literal .null

/-- A text as a value. -/
def string (s : String) : Value := literal (.string s)

/-- The kind of a value, in words. -/
def kindName : Value → String
  | .atom a => a.kindName
  | .array _ _ => "array"
  | .list .managed _ => "managed list"
  | .set .managed _ => "managed set"
  | .map .managed _ => "managed map"
  | .list .plain _ => "list"
  | .set .plain _ => "set"
  | .map .plain _ => "map"
  | .bean _ => "inner bean definition"

/-- Whether the value is a list, set or map. -/
def isCollection : Value → Bool
  | .list _ _ | .set _ _ | .map _ _ => true
  | _ => false

/-- Whether the value is a deferred reference to another bean. -/
def isBeanReference : Value → Bool
  | .atom (.beanName _) | .atom (.beanReference _) => true
  | _ => false

/-- The text, where the value is one. -/
def string? : Value → Option String
  | .atom (.literal (.string s)) => some s
  | _ => none

/-- The integer, where the value is one. -/
def int? : Value → Option Int32
  | .atom (.literal (.int n)) => some n
  | _ => none

/-- The bits of the double, where the value is one. -/
def double? : Value → Option UInt64
  | .atom (.literal (.double bits)) => some bits
  | _ => none

end Value

end BeanScript
