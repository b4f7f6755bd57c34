import BeanScript.Script.Style

/-!
# Values as expressions

A value is written as the expression that builds an equal one. Nested definitions, and instances
of types without a written form, are supplied by a resolver: the expression it gives for them is
used as it is.

## Main definitions

* `Resolver` — from a position name and a value to the expression that supplies it
* `EncodeError` — why a value cannot be written
* `Value.encode` — the expression, or the first fault from left to right
-/

namespace BeanScript

/-- Maps a value, which belongs to the position of the given name, to an expression that supplies
it. -/
abbrev Resolver := String → Value → Option Expr

/-- The resolver that supplies nothing. -/
def Resolver.empty : Resolver := fun _ _ => none

/-- Ask a second resolver where the first supplies nothing. -/
def Resolver.orElse (first second : Resolver) : Resolver :=
  fun name v => first name v <|> second name v

/-- Why a value at the position `name` cannot be written. -/
inductive EncodeError
  | unsupportedValue (name kind : String)
  | unsupportedMapKey (name kind : String)
  | unresolvedBean (name : String)
deriving DecidableEq

/-- The fault in words. -/
def EncodeError.message : EncodeError → String
  | .unsupportedValue name kind =>
    "cannot encode value of kind " ++ kind ++ " for `" ++ name ++ "`"
  | .unsupportedMapKey name kind =>
    "cannot encode map key of kind " ++ kind ++ " for `" ++ name ++ "`: keys must be plain values"
  | .unresolvedBean name =>
    "cannot encode inner bean definition for `" ++ name ++ "`: no generated artifact supplies it"

/-- The shortest construction of a reference: by its type alone where its name is that of the
type. A reference to the parent takes `true` as its last argument. -/
def BeanReference.encode (r : BeanReference) : Expr :=
  let designation := match r.type with
    | some type =>
      if type.text = r.name then [.typeLiteral type] else [.string r.name, .typeLiteral type]
    | none => [.string r.name]
  Api.Constructor.beanReference.call
    (designation ++ if r.inParent then [.bool true] else [])

/-- Whether a character fits one UTF-16 unit, as a written character must. -/
def inBasicPlane (c : Char) : Bool :=
  c.toNat ≤ 0xFFFF

/-- Write a value without parts. -/
def Atom.encode (resolve : Resolver) (name : String) : Atom → Except EncodeError Expr
  | .literal (.char c) =>
    if inBasicPlane c then .ok (.literal (.char c))
    else .error (.unsupportedValue name "char outside the Basic Multilingual Plane")
  | .literal l => .ok (.literal l)
  | .classObject type => .ok (.typeLiteral type)
  | .enumConstant type constant => .ok (.staticField type constant)
  | .beanName bean => .ok (Api.Constructor.beanNameReference.call [.string bean])
  | .beanReference r => .ok r.encode
  | .instanceOf type =>
    match resolve name (.atom (.instanceOf type)) with
    | some e => .ok e
    | none => .error (.unsupportedValue name (Atom.instanceOf type).kindName)

mutual

/-- Write the value of the position `name`. -/
def Value.encode (resolve : Resolver) (name : String) : Value → Except EncodeError Expr
  | .atom a => a.encode resolve name
  | .array component elements => do
    return .newArray component (← encodeElements resolve name elements)
  | .list kind elements => do
    return (Api.Factory.list kind).call (← encodeElements resolve name elements)
  | .set kind elements => do
    return (Api.Factory.set kind).call (← encodeElements resolve name elements)
  | .map kind entries => do
    return (Api.Factory.map kind).call (← encodeEntries resolve name entries)
  | .bean d =>
    match resolve name (.bean d) with
    | some e => .ok e
    | none => .error (.unresolvedBean name)
termination_by structural v => v

/-- Write values in turn. -/
def encodeElements (resolve : Resolver) (name : String) :
    List Value → Except EncodeError (List Expr)
  | [] => .ok []
  | v :: vs => do
    let e ← v.encode resolve name
    return e :: (← encodeElements resolve name vs)
termination_by structural vs => vs

/-- Write map entries in turn. A collection cannot be a key. -/
def encodeEntries (resolve : Resolver) (name : String) :
    List (Value × Value) → Except EncodeError (List Expr)
  | [] => .ok []
  | (key, v) :: entries => do
    if key.isCollection then throw (.unsupportedMapKey name key.kindName)
    let k ← key.encode resolve name
    let e ← v.encode resolve name
    return Api.Factory.entry.call [k, e] :: (← encodeEntries resolve name entries)
termination_by structural entries => entries

end

end BeanScript
