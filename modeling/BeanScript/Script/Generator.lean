import BeanScript.Script.Reflection
import BeanScript.Script.Statements

/-!
# Generation

A generator turns definitions into scripts. It keeps the setters of each type it has looked at,
and forgets them when it is given another type source. A batch is the script of a definition with
one method for each definition nested in it; either everything can be written or nothing is
produced.

## Main definitions

* `Generator` and its `withTypes`, `withResolver`, `withFilter`
* `Script`, `Generator.script` — the statements and hints of one definition
* `Batch`, `Generator.batch` — the script with the methods of all nested definitions
-/

namespace BeanScript

/-- The statements of one definition, and the hints it needs. -/
structure Script where
  statements : Block
  hints : Hints

/-- A method that builds a nested definition. -/
structure Method where
  owner : ClassName
  name : String
  body : Block

/-- The script of a definition, with the methods of all definitions nested in it. -/
structure Batch where
  statements : Block
  /-- In the order in which the nested definitions are found. -/
  methods : List Method
  /-- The hints of the definition and of every method. -/
  hints : Hints

/-- What generation works with, and the setters it has looked up so far. -/
structure Generator where
  style : Style := {}
  types : TypeSource := .empty
  resolve : Resolver := .empty
  keep : KeyFilter := fun _ => true
  /-- Looked-up setters by type; `none` for a type that is not known. -/
  setters : Table ClassName (Option Setters) := []

namespace Generator

/-- Take another type source. -/
def withTypes (g : Generator) (types : TypeSource) : Generator :=
  { g with types, setters := [] }

/-- Take another resolver. -/
def withResolver (g : Generator) (resolve : Resolver) : Generator :=
  { g with resolve }

/-- Take another attribute filter. -/
def withFilter (g : Generator) (keep : KeyFilter) : Generator :=
  { g with keep }

/-- Look up the setters of a type, unless they are known already. -/
def lookUpSetters (g : Generator) (type : ClassName) : Generator :=
  if Table.has g.setters type then g
  else { g with setters := Table.put g.setters type (g.types.setters type).toOption }

/-- The setter of a property of a bean backed by the given type, as far as looked up. -/
def setter? (g : Generator) (type : Option ClassName) (property : String) : Option Member := do
  let setters ← (← Table.get? g.setters (← type))
  setters.find? property

/-- The script of a definition with the given resolver, and the generator afterwards. -/
def scriptWith (g : Generator) (resolve : Resolver) (d : Definition) :
    Except EncodeError Script × Generator :=
  let type := d.backingType? g.types
  let g := match type with
    | some type => g.lookUpSetters type
    | none => g
  let context : Script.Context :=
    { style := g.style, resolve, keep := g.keep, setter? := g.setter? type }
  let script := (context.statements d).map fun statements =>
    { statements, hints := d.hints g.types (g.setter? type) }
  (script, g)

/-- The script of a definition, and the generator afterwards. -/
def script (g : Generator) (d : Definition) : Except EncodeError Script × Generator :=
  g.scriptWith g.resolve d

/-- The body of the method that builds a definition: construct it for its bean class, set its
target type, make the given statements and return it. -/
def methodBody (style : Style) (d : Definition) (statements : Block) : Block :=
  let args := d.settings.beanClass.toList.map .typeLiteral
  let target := d.settings.targetType.toList.map fun type =>
    style.call .setTargetType [.typeLiteral type]
  .declare Api.rootBeanDefinition style.receiver (Api.Constructor.definition.call args) ::
    (target ++ statements ++ [.ret style.receiverExpr])

/-- The methods for nested definitions with the given resolver, the hints they need on top of the
given ones, and the generator afterwards. -/
def methods (g : Generator) (resolve : Resolver) (owner : ClassName) (hints : Hints) :
    List NestedMethod → Except EncodeError (List Method × Hints) × Generator
  | [] => (.ok ([], hints), g)
  | nested :: rest =>
    match g.scriptWith resolve nested.definition with
    | (.error e, g) => (.error e, g)
    | (.ok script, g) =>
      let body := methodBody g.style nested.definition script.statements
      let (result, g) := g.methods resolve owner (hints.merge script.hints) rest
      (result.map fun (methods, hints) => ({ owner, name := nested.name, body } :: methods, hints),
        g)

/-- The batch of a definition, and the generator afterwards. Nested definitions are supplied by
the methods of the batch; the generator's own resolver is asked for everything else. -/
def batch (g : Generator) (d : Definition) : Except EncodeError Batch × Generator :=
  let nested := NestedMethods.ofDefinition g.style.methodOwner g.keep d
  let resolve := nested.resolver.orElse g.resolve
  match g.scriptWith resolve d with
  | (.error e, g) => (.error e, g)
  | (.ok root, g) =>
    let (result, g) := g.methods resolve nested.owner root.hints nested.list
    (result.map fun (methods, hints) => { statements := root.statements, methods, hints }, g)

end Generator

end BeanScript
