import BeanScript.Api
import BeanScript.Replay.Arguments
import BeanScript.Replay.Machine

/-!
# Constructing and calling objects

What the classes of the configuration API do: which objects their constructors and factories make,
and which object an instance call changes. An instance call is decided before anything changes: it
answers with a datum, and with at most one change to the object it is called on.

## Main definitions

* `staticField`, `construct`, `Api.Factory.build` — fields, constructors and collection factories
* `instanceCall` — the outcome of a call on an object
-/

namespace BeanScript

/-- The value of a static field: the number of a role for the constants of bean definitions, an
enum constant for every other owner. -/
def staticField (owner : ClassName) (name : String) : Except Fault Datum :=
  if owner = Api.beanDefinition then
    match Role.ofConstant? name with
    | some role => .ok (.value (.literal (.int role.code)))
    | none => .error (.unknownStaticField owner.text name)
  else .ok (.value (.atom (.enumConstant owner name)))

/-- Whether the last of several arguments is `true`, which asks for the parent factory. -/
def asksForParent (args : Arguments) : Bool :=
  match args.data.reverse with
  | .value (.atom (.literal (.bool true))) :: _ :: _ => true
  | _ => false

/-- A reference by type, by name or by both. -/
def designatedBean (args : Arguments) (count : Nat) : Except Fault BeanReference :=
  match count with
  | 1 => do
    match ← args.datum 0 with
    | .value (.atom (.classObject type)) => return .ofType type
    | .value (.atom (.literal (.string name))) => return { name }
    | other => throw (args.mismatch 0 .beanNameOrType other)
  | 2 => do
    let name ← args.string 0
    return { name, type := some (← args.classObject 1) }
  | got => throw (.arityMismatch args.method 2 got)

/-- A reference, to the parent factory where the last argument asks for it. -/
def beanReference (args : Arguments) : Except Fault BeanReference :=
  if asksForParent args then do
    return { ← designatedBean args (args.data.length - 1) with inParent := true }
  else designatedBean args args.data.length

/-- A qualifier, with a primary value where a second argument gives one. -/
def newQualifier (args : Arguments) : Except Fault Qualifier :=
  match args.data.length with
  | 1 => do return { typeName := ← args.string 0 }
  | 2 => do return .ofValue (← args.string 0) (← args.value 1)
  | got => throw (.arityMismatch args.method 2 got)

/-- A constructor argument with its hints. -/
def newHolder (args : Arguments) : Except Fault Holder := do
  args.expect 3
  return { value := ← args.value 0, typeName := ← args.string? 1, name := ← args.string? 2 }

/-- A fresh definition, for a bean class where an argument gives one. -/
def newDefinition (args : Arguments) : Except Fault Definition :=
  match args.data.length with
  | 0 => return {}
  | 1 => do return .ofClass (← args.classObject 0)
  | got => throw (.arityMismatch args.method 1 got)

/-- Construct an object. -/
def construct (type : ClassName) (data : List Datum) : Replay Datum :=
  let args : Arguments := { method := type.text, data }
  match Api.Constructor.ofType? type with
  | some .beanNameReference => do
    Replay.ofExcept (args.expect 1)
    return .value (.atom (.beanName (← Replay.ofExcept (args.string 0))))
  | some .beanReference => do
    return .value (.atom (.beanReference (← Replay.ofExcept (beanReference args))))
  | some .qualifier => do
    let q ← Replay.ofExcept (newQualifier args)
    return .qualifier (← Replay.newQualifier q)
  | some .holder => do return .holder (← Replay.ofExcept (newHolder args))
  | some .definition => do
    let d ← Replay.ofExcept (newDefinition args)
    return .definition (← Replay.newDefinition d)
  | none => throw (.unknownConstructor type.text)

/-- What a static factory makes of its arguments. -/
def Api.Factory.build (f : Api.Factory) (args : Arguments) : Except Fault Datum :=
  match f with
  | .list kind => do return .value (.list kind (← args.all Arguments.value))
  | .set kind => do return .value (.set kind (ValueSet.ofList (← args.all Arguments.value)))
  | .map kind => do return .value (.map kind (ValueMap.ofList (← args.all Arguments.entry)))
  | .entry => do
    args.expect 2
    return .entry (← args.value 0) (← args.value 1)

/-- What an instance call leads to. -/
structure Outcome where
  answer : Datum
  change : Option Change := none

/-- The edit that a setter of a definition makes; `none` for the methods that are no setters of
plain values. -/
def Api.DefinitionMethod.edit? (args : Arguments) :
    Api.DefinitionMethod → Option (Except Fault Edit)
  | .setPrimary => some do
    args.expect 1
    return .setPrimary (← args.bool 0)
  | .setFallback => some do
    args.expect 1
    return .setFallback (← args.bool 0)
  | .setScope => some do
    args.expect 1
    return .setScope (← args.string 0)
  | .setDependsOn => some do return .setDependsOn (← args.all Arguments.string)
  | .setLazyInit => some do
    args.expect 1
    return .setLazyInit (← args.bool 0)
  | .setAutowireCandidate => some do
    args.expect 1
    return .setAutowireCandidate (← args.bool 0)
  | .setDefaultCandidate => some do
    args.expect 1
    return .setDefaultCandidate (← args.bool 0)
  | .setSynthetic => some do
    args.expect 1
    return .setSynthetic (← args.bool 0)
  | .setRole => some do
    args.expect 1
    return .setRole { code := ← args.int 0 }
  | .setTargetType => some do
    args.expect 1
    return .setTargetType (← args.classObject 0)
  | .setAttribute => some do
    args.expect 2
    return .setAttribute (← args.string 0) (← args.value 1)
  | .setInitMethodName => some do
    args.expect 1
    return .setInitMethods [← args.string 0]
  | .setInitMethodNames => some do return .setInitMethods (← args.all Arguments.string)
  | .setDestroyMethodName => some do
    args.expect 1
    return .setDestroyMethods [← args.string 0]
  | .setDestroyMethodNames => some do return .setDestroyMethods (← args.all Arguments.string)
  | .getPropertyValues | .getConstructorArgumentValues | .addQualifier => none

/-- A call on a definition. -/
def callDefinition (m : Machine) (id : DefinitionRef) (method : Api.DefinitionMethod)
    (args : Arguments) : Except Fault Outcome :=
  match method, method.edit? args with
  | _, some edit => do return { answer := .void, change := some (.definition id (← edit)) }
  | .getPropertyValues, none => do
    args.expect 0
    return { answer := .properties id }
  | .getConstructorArgumentValues, none => do
    args.expect 0
    return { answer := .arguments id }
  | _, none => do
    args.expect 1
    match ← args.datum 0 with
    | .qualifier q =>
      return { answer := .void, change := some (.definition id (.addQualifier (m.qualifier q))) }
    | other => throw (args.mismatch 0 .qualifier other)

/-- A call on the property values of a definition: both methods add a property. -/
def callProperties (id : DefinitionRef) (args : Arguments) : Except Fault Outcome := do
  args.expect 2
  let name ← args.string 0
  let v ← args.value 1
  return { answer := .properties id, change := some (.definition id (.addProperty name v)) }

/-- A call on the constructor arguments of a definition. -/
def callArguments (id : DefinitionRef) (method : Api.ArgumentsMethod) (args : Arguments) :
    Except Fault Outcome :=
  match method with
  | .addIndexedArgumentValue => do
    args.expect 2
    let index ← args.index 0
    let argument ← args.holder 1
    return { answer := .void, change := some (.definition id (.addIndexed index argument)) }
  | .addGenericArgumentValue => do
    args.expect 1
    let argument ← args.holder 0
    return { answer := .void, change := some (.definition id (.addGeneric argument)) }

/-- A call on a qualifier. -/
def callQualifier (id : QualifierRef) (args : Arguments) : Except Fault Outcome := do
  args.expect 2
  let key ← args.string 0
  let v ← args.value 1
  return { answer := .void, change := some (.qualifier id key v) }

/-- The outcome of a call on an object. -/
def instanceCall (m : Machine) (receiver : Datum) (name : String) (data : List Datum) :
    Except Fault Outcome :=
  let args : Arguments := { method := name, data }
  let undefined : Except Fault Outcome := .error (.undefinedMethod name receiver.typeName)
  match receiver with
  | .definition id =>
    match Api.DefinitionMethod.ofName? name with
    | some method => callDefinition m id method args
    | none => undefined
  | .properties id =>
    match Api.PropertiesMethod.ofName? name with
    | some _ => callProperties id args
    | none => undefined
  | .arguments id =>
    match Api.ArgumentsMethod.ofName? name with
    | some method => callArguments id method args
    | none => undefined
  | .qualifier id =>
    match Api.QualifierMethod.ofName? name with
    | some .setAttribute => callQualifier id args
    | none => undefined
  | _ => undefined

/-- Call a method on an object, and make the change that the call leads to. -/
def callOn (receiver : Datum) (name : String) (data : List Datum) : Replay Datum := do
  let outcome ← Replay.ofExcept (instanceCall (← get) receiver name data)
  match outcome.change with
  | some change => modify (·.change change)
  | none => pure ()
  return outcome.answer

end BeanScript
