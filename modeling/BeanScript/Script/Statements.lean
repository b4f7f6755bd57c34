import BeanScript.Bean.Edit
import BeanScript.Script.Nested
import BeanScript.Types.Hierarchy

/-!
# The statements that rebuild a definition

A definition is rebuilt on a fresh one by calls on the receiver, in a fixed order: flags, scope,
dependencies and role, constructor arguments, properties, attributes, qualifiers, lifecycle
methods. What has its default value needs no statement.

## Main definitions

* `Script.Context` — what a script depends on besides the definition
* `Settings.statements`, `Style.lifecycle` — the statements that hold no value
* `Script.Context.statements` — all statements, or the first value that cannot be written
-/

namespace BeanScript

/-- The scope name that means the default scope. -/
def singletonScope : String := "singleton"

/-- The role as an argument: a constant where it has one, the number otherwise. -/
def Role.encode (r : Role) : Expr :=
  match r.constant? with
  | some constant => .staticField Api.beanDefinition constant
  | none => .int r.code

/-- The statements for flags, scope, dependencies and role. -/
def Settings.statements (style : Style) (s : Settings) : Block :=
  List.reduceOption
    [ if s.primary then some (style.call .setPrimary [.bool true]) else none,
      if s.fallback then some (style.call .setFallback [.bool true]) else none,
      if s.scope = "" ∨ s.scope = singletonScope then none
      else some (style.call .setScope [.string s.scope]),
      match s.dependsOn with
      | none | some [] => none
      | some names => some (style.call .setDependsOn (names.map .string)),
      s.lazyInit.map fun b => style.call .setLazyInit [.bool b],
      if s.autowireCandidate then none else some (style.call .setAutowireCandidate [.bool false]),
      if s.defaultCandidate then none else some (style.call .setDefaultCandidate [.bool false]),
      if s.synthetic then some (style.call .setSynthetic [.bool true]) else none,
      if s.role = .application then none else some (style.call .setRole [s.role.encode]) ]

/-- The statement for lifecycle methods, by the setter for one name or the one for several. -/
def Style.lifecycle (style : Style) (one several : Api.DefinitionMethod) :
    Option (List String) → Block
  | none | some [] => []
  | some [name] => [style.call (if style.singularLifecycle then one else several) [.string name]]
  | some names => [style.call several (names.map .string)]

/-- What a script depends on besides the definition. -/
structure Script.Context where
  style : Style
  resolve : Resolver
  keep : KeyFilter
  /-- The setter of a property, where the type of the bean has exactly one. -/
  setter? : String → Option Member

namespace Script.Context

/-- An optional text as an argument. -/
def optional : Option String → Expr
  | some s => .string s
  | none => .null

/-- A constructor argument: the bare value where it carries nothing else. -/
def holder (c : Script.Context) (position : String) (h : Holder) : Except EncodeError Expr := do
  let v ← h.value.encode c.resolve position
  return if h.hasHints then
    Api.Constructor.holder.call [v, optional h.typeName, optional h.name]
  else v

/-- The first index that a 32-bit number cannot hold. -/
def indexLimit : Nat := 0x80000000

/-- The statement for an argument with an index, which is written as a 32-bit number. -/
def addIndexed (c : Script.Context) (argument : Nat × Holder) : Except EncodeError Stmt := do
  let position := NestedMethods.indexedPosition argument.1
  if indexLimit ≤ argument.1 then throw (.unsupportedValue position "argument index")
  let v ← c.holder position argument.2
  return c.style.callArguments .addIndexedArgumentValue [.int (Int32.ofNat argument.1), v]

/-- The statement for a generic argument, which comes with its number. -/
def addGeneric (c : Script.Context) (argument : Holder × Nat) : Except EncodeError Stmt := do
  let v ← c.holder (NestedMethods.genericPosition argument.2 argument.1) argument.1
  return c.style.callArguments .addGenericArgumentValue [v]

/-- How a property is added: through its setter where there is one. -/
def adder (c : Script.Context) (property : String) : Api.PropertiesMethod :=
  if (c.setter? property).isSome then .addPropertyValue else .add

/-- The statement for a property. -/
def addProperty (c : Script.Context) (entry : String × Value) : Except EncodeError Stmt := do
  let v ← entry.2.encode c.resolve entry.1
  return c.style.callProperties (c.adder entry.1) [.string entry.1, v]

/-- The statement for an attribute. -/
def setAttribute (c : Script.Context) (entry : String × Value) : Except EncodeError Stmt := do
  let v ← entry.2.encode c.resolve entry.1
  return c.style.call .setAttribute [.string entry.1, v]

/-- The local that holds a qualifier while its attributes are set. -/
def qualifierLocal : String := "qualifier"

/-- The construction of a qualifier, with its primary value where it has one. -/
def qualifierConstruction (c : Script.Context) (q : Qualifier) : Except EncodeError Expr :=
  match q.value? with
  | none => return Api.Constructor.qualifier.call [.string q.typeName]
  | some value => do
    let v ← value.encode c.resolve Qualifier.valueKey
    return Api.Constructor.qualifier.call [.string q.typeName, v]

/-- The statement that sets an attribute of the qualifier that is being built. -/
def setQualifierAttribute (c : Script.Context) (entry : String × Value) :
    Except EncodeError Stmt := do
  let v ← entry.2.encode c.resolve entry.1
  return .expr (.call (.var qualifierLocal) Api.QualifierMethod.setAttribute.name
    [.string entry.1, v])

/-- The statement for a qualifier. One with attributes besides its primary value is built in a
scope of its own. -/
def addQualifier (c : Script.Context) (q : Qualifier) : Except EncodeError Stmt := do
  let construction ← c.qualifierConstruction q
  match q.attributes.filter (·.1 ≠ Qualifier.valueKey) with
  | [] => return c.style.call .addQualifier [construction]
  | further => do
    let body ← further.mapM c.setQualifierAttribute
    return .nested (.declare Api.autowireCandidateQualifier qualifierLocal construction ::
      (body ++ [c.style.call .addQualifier [.var qualifierLocal]]))

/-- The statements that rebuild a definition. -/
def statements (c : Script.Context) (d : Definition) : Except EncodeError Block := do
  let indexed ← d.indexed.mapM c.addIndexed
  let generic ← d.generic.zipIdx.mapM c.addGeneric
  let properties ← d.properties.mapM c.addProperty
  let attributes ← (d.attributes.filter fun entry => c.keep entry.1).mapM c.setAttribute
  let qualifiers ← d.qualifierList.mapM c.addQualifier
  return d.settings.statements c.style ++ indexed ++ generic ++ properties ++ attributes ++
    qualifiers ++
    c.style.lifecycle .setInitMethodName .setInitMethodNames d.settings.initMethods ++
    c.style.lifecycle .setDestroyMethodName .setDestroyMethodNames d.settings.destroyMethods

end Script.Context

end BeanScript
