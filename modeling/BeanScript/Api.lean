import BeanScript.Bean.Value

/-!
# The configuration API

The classes and methods that scripts are written against. Generation writes these names and replay
reads them, so both sides take them from here: each family of names is a type, with the name of
each member and the member of each name.

## Main definitions

* `Api.beanDefinition` and the other class names
* `Api.DefinitionMethod`, `Api.PropertiesMethod`, `Api.ArgumentsMethod`, `Api.QualifierMethod` —
  instance methods
* `Api.Constructor`, `Api.Factory` — constructors and static factories
-/

namespace BeanScript.Api

/-- The interface of bean definitions, which declares the role constants. -/
def beanDefinition : ClassName := ⟨"org.springframework.beans.factory.config.BeanDefinition"⟩

/-- The class of bean definitions that methods construct. -/
def rootBeanDefinition : ClassName :=
  ⟨"org.springframework.beans.factory.support.RootBeanDefinition"⟩

/-- A constructor argument with its hints. -/
def valueHolder : ClassName :=
  ⟨"org.springframework.beans.factory.config.ConstructorArgumentValues.ValueHolder"⟩

/-- A reference to a bean by name or type. -/
def runtimeBeanReference : ClassName :=
  ⟨"org.springframework.beans.factory.config.RuntimeBeanReference"⟩

/-- A reference to a bean by name only. -/
def runtimeBeanNameReference : ClassName :=
  ⟨"org.springframework.beans.factory.config.RuntimeBeanNameReference"⟩

/-- A qualifier. -/
def autowireCandidateQualifier : ClassName :=
  ⟨"org.springframework.beans.factory.support.AutowireCandidateQualifier"⟩

/-- The owner of the factories for lists. -/
def listClass : Kind → ClassName
  | .managed => ⟨"org.springframework.beans.factory.support.ManagedList"⟩
  | .plain => ⟨"java.util.List"⟩

/-- The owner of the factories for sets. -/
def setClass : Kind → ClassName
  | .managed => ⟨"org.springframework.beans.factory.support.ManagedSet"⟩
  | .plain => ⟨"java.util.Set"⟩

/-- The owner of the factories for maps. -/
def mapClass : Kind → ClassName
  | .managed => ⟨"org.springframework.beans.factory.support.ManagedMap"⟩
  | .plain => ⟨"java.util.Map"⟩

/-- The methods of a bean definition. -/
inductive DefinitionMethod
  | setPrimary
  | setFallback
  | setScope
  | setDependsOn
  | setLazyInit
  | setAutowireCandidate
  | setDefaultCandidate
  | setSynthetic
  | setRole
  | setTargetType
  | getConstructorArgumentValues
  | getPropertyValues
  | setAttribute
  | addQualifier
  | setInitMethodName
  | setInitMethodNames
  | setDestroyMethodName
  | setDestroyMethodNames
deriving DecidableEq

namespace DefinitionMethod

/-- The name of a method. -/
def name : DefinitionMethod → String
  | setPrimary => "setPrimary"
  | setFallback => "setFallback"
  | setScope => "setScope"
  | setDependsOn => "setDependsOn"
  | setLazyInit => "setLazyInit"
  | setAutowireCandidate => "setAutowireCandidate"
  | setDefaultCandidate => "setDefaultCandidate"
  | setSynthetic => "setSynthetic"
  | setRole => "setRole"
  | setTargetType => "setTargetType"
  | getConstructorArgumentValues => "getConstructorArgumentValues"
  | getPropertyValues => "getPropertyValues"
  | setAttribute => "setAttribute"
  | addQualifier => "addQualifier"
  | setInitMethodName => "setInitMethodName"
  | setInitMethodNames => "setInitMethodNames"
  | setDestroyMethodName => "setDestroyMethodName"
  | setDestroyMethodNames => "setDestroyMethodNames"

/-- All methods. -/
def all : List DefinitionMethod :=
  [setPrimary, setFallback, setScope, setDependsOn, setLazyInit, setAutowireCandidate,
    setDefaultCandidate, setSynthetic, setRole, setTargetType, getConstructorArgumentValues,
    getPropertyValues, setAttribute, addQualifier, setInitMethodName, setInitMethodNames,
    setDestroyMethodName, setDestroyMethodNames]

/-- The method of a name. -/
def ofName? (s : String) : Option DefinitionMethod :=
  all.find? (·.name == s)

@[simp] theorem ofName?_name (m : DefinitionMethod) : ofName? m.name = some m := by
  cases m <;> decide

end DefinitionMethod

/-- The methods of the property values of a definition. Both add a property: the first where a
setter backs it, the second in general. -/
inductive PropertiesMethod
  | addPropertyValue
  | add
deriving DecidableEq

namespace PropertiesMethod

/-- The name of a method. -/
def name : PropertiesMethod → String
  | addPropertyValue => "addPropertyValue"
  | add => "add"

/-- The method of a name. -/
def ofName? (s : String) : Option PropertiesMethod :=
  [addPropertyValue, add].find? (·.name == s)

@[simp] theorem ofName?_name (m : PropertiesMethod) : ofName? m.name = some m := by
  cases m <;> decide

end PropertiesMethod

/-- The methods of the constructor arguments of a definition. -/
inductive ArgumentsMethod
  | addIndexedArgumentValue
  | addGenericArgumentValue
deriving DecidableEq

namespace ArgumentsMethod

/-- The name of a method. -/
def name : ArgumentsMethod → String
  | addIndexedArgumentValue => "addIndexedArgumentValue"
  | addGenericArgumentValue => "addGenericArgumentValue"

/-- The method of a name. -/
def ofName? (s : String) : Option ArgumentsMethod :=
  [addIndexedArgumentValue, addGenericArgumentValue].find? (·.name == s)

@[simp] theorem ofName?_name (m : ArgumentsMethod) : ofName? m.name = some m := by
  cases m <;> decide

end ArgumentsMethod

/-- The method of a qualifier. -/
inductive QualifierMethod
  | setAttribute
deriving DecidableEq

namespace QualifierMethod

/-- The name of the method. -/
def name : QualifierMethod → String
  | setAttribute => "setAttribute"

/-- The method of a name. -/
def ofName? (s : String) : Option QualifierMethod :=
  [setAttribute].find? (·.name == s)

@[simp] theorem ofName?_name (m : QualifierMethod) : ofName? m.name = some m := by
  cases m
  decide

end QualifierMethod

/-- What a script can construct. -/
inductive Constructor
  | beanNameReference
  | beanReference
  | qualifier
  | holder
  | definition
deriving DecidableEq

namespace Constructor

/-- The class that is constructed. -/
def type : Constructor → ClassName
  | beanNameReference => runtimeBeanNameReference
  | beanReference => runtimeBeanReference
  | qualifier => autowireCandidateQualifier
  | holder => valueHolder
  | definition => rootBeanDefinition

/-- The constructor of a class. -/
def ofType? (type : ClassName) : Option Constructor :=
  [beanNameReference, beanReference, qualifier, holder, definition].find? (·.type == type)

@[simp] theorem ofType?_type (k : Constructor) : ofType? k.type = some k := by
  cases k <;> decide

end Constructor

/-- The static factories of collections and map entries. -/
inductive Factory
  | list (kind : Kind)
  | set (kind : Kind)
  | map (kind : Kind)
  | entry
deriving DecidableEq

namespace Factory

/-- The class that declares the factory. -/
def owner : Factory → ClassName
  | list kind => listClass kind
  | set kind => setClass kind
  | map kind => mapClass kind
  | entry => mapClass .plain

/-- The name of the factory. -/
def name : Factory → String
  | list _ => "of"
  | set _ => "of"
  | map _ => "ofEntries"
  | entry => "entry"

/-- The factory of a class and a name. -/
def of? (type : ClassName) (s : String) : Option Factory :=
  [list .managed, set .managed, map .managed, list .plain, set .plain, map .plain, entry].find?
    fun f => f.owner == type && f.name == s

@[simp] theorem of?_owner_name (f : Factory) : of? f.owner f.name = some f := by
  cases f with
  | list kind => cases kind <;> decide
  | set kind => cases kind <;> decide
  | map kind => cases kind <;> decide
  | entry => decide

end Factory

end BeanScript.Api
