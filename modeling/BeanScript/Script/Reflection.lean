import BeanScript.Bean.Edit
import BeanScript.Types.Hierarchy
import BeanScript.Types.Hints

/-!
# The hints that a definition needs

Replaying a definition calls the setters of its properties and its lifecycle methods by name, so
each of them needs a hint. Properties without a setter of their own, and methods that cannot be
found, need none.

## Main definitions

* `Definition.backingType?` — the type whose methods back a definition
* `splitQualified?` — a method name with the type it is declared on
* `Definition.hints` — the hints of one definition
-/

namespace BeanScript

/-- The type whose methods back properties and lifecycle callbacks: a factory class configures
itself; otherwise it is the type of the bean. -/
def Definition.backingType? (source : TypeSource) (d : Definition) : Option ClassName :=
  let factory := d.settings.beanClass.filter fun type =>
    (source.describe type).any (·.isFactory)
  factory <|> d.instanceType?

/-- Cut a name at its last dot, giving the parts before and after it. -/
def splitQualified? (name : String) : Option (String × String) :=
  let reversed := name.toList.reverse
  match reversed.dropWhile (· != '.') with
  | [] => none
  | _ :: before =>
    some (String.ofList before.reverse,
      String.ofList (reversed.takeWhile (· != '.')).reverse)

/-- The callback that a lifecycle name designates: a method of the type before the last dot, or of
the given type where the name has no dot. -/
def lifecycleCallback? (source : TypeSource) (type : Option ClassName) (name : String) :
    Option Member :=
  let (owner, method) := match splitQualified? name with
    | some (owner, method) => (some (ClassName.mk owner), method)
    | none => (type, name)
  owner.bind fun owner => (source.callback? owner method).toOption.join

/-- Record that a method is called. -/
def Hints.addInvocation (hints : Hints) (m : Member) : Hints :=
  (hints.register m.owner m.method .invoke).2

/-- The methods that replaying a definition calls by name. -/
def Definition.reflectedMethods (source : TypeSource) (setter? : String → Option Member)
    (d : Definition) : List Member :=
  let type := d.backingType? source
  let callbacks (names : Option (List String)) : List Member :=
    (names.getD []).filterMap (lifecycleCallback? source type)
  d.properties.filterMap (fun property => setter? property.1) ++
    callbacks d.settings.initMethods ++ callbacks d.settings.destroyMethods

/-- The hints of a definition. -/
def Definition.hints (source : TypeSource) (setter? : String → Option Member)
    (d : Definition) : Hints :=
  (d.reflectedMethods source setter?).foldl Hints.addInvocation []

end BeanScript
