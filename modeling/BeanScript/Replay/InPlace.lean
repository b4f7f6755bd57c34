import BeanScript.Replay.Objects

/-!
# Calls that change their object on the way

A call on an object once more, as a sequence of effects: the number of arguments is checked, an
argument is read, the object is changed, and each of these may come at any place. Nothing in this
form says that a call which fails has changed nothing yet: that depends on the order in every single
method, so the order is what is written down here.

## Main definitions

* `Replay.change`, `Replay.setOne`, `Replay.setAll` — a change, and setters of plain values
* `Replay.onDefinition` and its companions — the methods of each kind of object
* `Replay.callInPlace` — a call on an object
-/

namespace BeanScript

namespace Replay

/-- Change one object, whatever has happened before and whatever follows. -/
def change (c : Change) : Replay PUnit :=
  modify (·.change c)

/-- Set something to the only argument. -/
def setOne (id : DefinitionRef) (args : Arguments) (read : Arguments → Nat → Except Fault α)
    (edit : α → Edit) : Replay Datum := do
  ofExcept (args.expect 1)
  let a ← ofExcept (read args 0)
  change (.definition id (edit a))
  return .void

/-- Set something to the texts given, however many there are. -/
def setAll (id : DefinitionRef) (args : Arguments) (edit : List String → Edit) :
    Replay Datum := do
  let texts ← ofExcept (args.all Arguments.string)
  change (.definition id (edit texts))
  return .void

/-- A call on a definition. -/
def onDefinition (id : DefinitionRef) (args : Arguments) :
    Api.DefinitionMethod → Replay Datum
  | .getPropertyValues => do
    ofExcept (args.expect 0)
    return .properties id
  | .getConstructorArgumentValues => do
    ofExcept (args.expect 0)
    return .arguments id
  | .addQualifier => do
    ofExcept (args.expect 1)
    match ← ofExcept (args.datum 0) with
    | .qualifier q =>
      -- the definition gets a copy of the qualifier as it is by now
      let m ← get
      change (.definition id (.addQualifier (m.qualifier q)))
      return .void
    | other => throw (args.mismatch 0 .qualifier other)
  | .setPrimary => setOne id args Arguments.bool .setPrimary
  | .setFallback => setOne id args Arguments.bool .setFallback
  | .setScope => setOne id args Arguments.string .setScope
  | .setDependsOn => setAll id args .setDependsOn
  | .setLazyInit => setOne id args Arguments.bool .setLazyInit
  | .setAutowireCandidate => setOne id args Arguments.bool .setAutowireCandidate
  | .setDefaultCandidate => setOne id args Arguments.bool .setDefaultCandidate
  | .setSynthetic => setOne id args Arguments.bool .setSynthetic
  | .setRole => setOne id args Arguments.int fun code => .setRole { code }
  | .setAttribute => do
    ofExcept (args.expect 2)
    let key ← ofExcept (args.string 0)
    let v ← ofExcept (args.value 1)
    change (.definition id (.setAttribute key v))
    return .void
  | .setInitMethodName => setOne id args Arguments.string fun name => .setInitMethods [name]
  | .setInitMethodNames => setAll id args .setInitMethods
  | .setDestroyMethodName => setOne id args Arguments.string fun name => .setDestroyMethods [name]
  | .setDestroyMethodNames => setAll id args .setDestroyMethods
  | .setTargetType => setOne id args Arguments.classObject .setTargetType

/-- A call on the property values of a definition. -/
def onProperties (id : DefinitionRef) (args : Arguments) : Replay Datum := do
  ofExcept (args.expect 2)
  let name ← ofExcept (args.string 0)
  let v ← ofExcept (args.value 1)
  change (.definition id (.addProperty name v))
  return .properties id

/-- A call on the constructor arguments of a definition. -/
def onArguments (id : DefinitionRef) (args : Arguments) :
    Api.ArgumentsMethod → Replay Datum
  | .addIndexedArgumentValue => do
    ofExcept (args.expect 2)
    let index ← ofExcept (args.index 0)
    let argument ← ofExcept (args.holder 1)
    change (.definition id (.addIndexed index argument))
    return .void
  | .addGenericArgumentValue => do
    ofExcept (args.expect 1)
    let argument ← ofExcept (args.holder 0)
    change (.definition id (.addGeneric argument))
    return .void

/-- A call on a qualifier. -/
def onQualifier (id : QualifierRef) (args : Arguments) : Replay Datum := do
  ofExcept (args.expect 2)
  let key ← ofExcept (args.string 0)
  let v ← ofExcept (args.value 1)
  change (.qualifier id key v)
  return .void

/-- A call on an object. -/
def callInPlace (receiver : Datum) (name : String) (data : List Datum) : Replay Datum :=
  let args : Arguments := { method := name, data }
  let undefined : Replay Datum := throw (.undefinedMethod name receiver.typeName)
  match receiver with
  | .definition id =>
    match Api.DefinitionMethod.ofName? name with
    | some method => onDefinition id args method
    | none => undefined
  | .properties id =>
    match Api.PropertiesMethod.ofName? name with
    | some _ => onProperties id args
    | none => undefined
  | .arguments id =>
    match Api.ArgumentsMethod.ofName? name with
    | some method => onArguments id args method
    | none => undefined
  | .qualifier id =>
    match Api.QualifierMethod.ofName? name with
    | some .setAttribute => onQualifier id args
    | none => undefined
  | _ => undefined

end Replay

end BeanScript
