import BeanScript.Bean.Equality
import BeanScript.Script.Encode

/-!
# Methods for nested definitions

Every nested definition is built by a method of its own, and equal definitions share one. The
methods are named by scanning a definition: positional arguments, generic arguments, properties,
attributes that the filter keeps, qualifier attributes, and the definitions inside a nested one
right after it. A definition that has its method already is not scanned again. A method takes its
name from the position at which its definition was found first.

## Main definitions

* `NestedMethod`, `NestedMethods` — the methods named so far
* `NestedMethods.scan` — name methods for all definitions nested in a definition
* `NestedMethods.nameFor?`, `NestedMethods.resolver` — the method of a definition, the call of it
* `methodName`, `firstFree` — the names
-/

namespace BeanScript

/-- Which attribute keys are kept. -/
abbrev KeyFilter := String → Bool

/-- Join the runs of ASCII letters and digits, each with a capital. The flag says that a run
begins here. -/
def joinWords : Bool → List Char → List Char
  | _, [] => []
  | atStart, c :: cs =>
    if c.isAlphanum then (if atStart then c.toUpper else c) :: joinWords false cs
    else joinWords true cs

/-- The name in camel case with a leading capital; `Inner` where it has no letter or digit. -/
def pascalCase (name : String) : String :=
  match joinWords true name.toList with
  | [] => "Inner"
  | cs => String.ofList cs

/-- The method name that a position asks for. -/
def methodName (position : String) : String :=
  "get" ++ pascalCase position ++ "BeanDefinition"

/-- The name itself, and then the name with a number after it. -/
def numbered (base : String) : Nat → String
  | 0 => base
  | n + 1 => base ++ toString (n + 1)

/-- The first name that is free, of `base`, `base1`, `base2`, …. As many of these as there are
used names, and one more, cannot all be used. -/
def firstFree (used : List String) (base : String) : String :=
  let free := (List.range (used.length + 1)).find? fun n => !used.contains (numbered base n)
  numbered base (free.getD 0)

/-- A method with the nested definition that it builds. -/
structure NestedMethod where
  name : String
  definition : Definition

/-- The methods named so far, all on one class. -/
structure NestedMethods where
  owner : ClassName
  list : List NestedMethod := []

namespace NestedMethods

/-- The names given so far. -/
def names (t : NestedMethods) : List String :=
  t.list.map (·.name)

/-- The method of a definition equal to `d`. -/
def nameFor? (t : NestedMethods) (d : Definition) : Option String :=
  (t.list.find? (·.definition == d)).map (·.name)

/-- Name a method for a definition at the given position. -/
def assign (t : NestedMethods) (position : String) (d : Definition) : NestedMethods :=
  let name := firstFree t.names (methodName position)
  { t with list := t.list ++ [{ name, definition := d }] }

/-- The position of a generic argument: the parameter name it carries, or else its number. -/
def genericPosition (number : Nat) (argument : Holder) : String :=
  argument.name.getD ("arg" ++ toString number)

/-- The position of an argument with an index. -/
def indexedPosition (index : Nat) : String :=
  "arg" ++ toString index

mutual

/-- Name methods for all definitions nested in a value at the given position. -/
def scanValue (keep : KeyFilter) : String → Value → NestedMethods → NestedMethods
  | _, .atom _, t => t
  | position, .array _ elements, t => scanElements keep position elements t
  | position, .list _ elements, t => scanElements keep position elements t
  | position, .set _ elements, t => scanElements keep position elements t
  | position, .map _ entries, t => scanEntries keep position entries t
  | position, .bean d, t =>
    if (t.nameFor? d).isSome then t else scan keep d (t.assign position d)
termination_by structural _ v => v

/-- Scan values at one position in turn. -/
def scanElements (keep : KeyFilter) : String → List Value → NestedMethods → NestedMethods
  | _, [], t => t
  | position, v :: vs, t => scanElements keep position vs (scanValue keep position v t)
termination_by structural _ vs => vs

/-- Scan map entries at one position in turn, the key before the value. -/
def scanEntries (keep : KeyFilter) :
    String → List (Value × Value) → NestedMethods → NestedMethods
  | _, [], t => t
  | position, (key, v) :: entries, t =>
    scanEntries keep position entries (scanValue keep position v (scanValue keep position key t))
termination_by structural _ entries => entries

/-- Scan the value of an argument. -/
def scanHolder (keep : KeyFilter) : String → Holder → NestedMethods → NestedMethods
  | position, ⟨v, _, _⟩, t => scanValue keep position v t
termination_by structural _ argument => argument

/-- Scan positional arguments in turn. -/
def scanIndexed (keep : KeyFilter) : List (Nat × Holder) → NestedMethods → NestedMethods
  | [], t => t
  | (index, argument) :: rest, t =>
    scanIndexed keep rest (scanHolder keep (indexedPosition index) argument t)
termination_by structural arguments => arguments

/-- Scan generic arguments in turn, from the given number on. -/
def scanGeneric (keep : KeyFilter) : Nat → List Holder → NestedMethods → NestedMethods
  | _, [], t => t
  | number, argument :: rest, t =>
    scanGeneric keep (number + 1) rest
      (scanHolder keep (genericPosition number argument) argument t)
termination_by structural _ arguments => arguments

/-- Scan the values of a table whose keys are admitted, each at the position of its key. -/
def scanTable (keep : KeyFilter) :
    KeyFilter → List (String × Value) → NestedMethods → NestedMethods
  | _, [], t => t
  | admits, (key, v) :: rest, t =>
    scanTable keep admits rest (if admits key then scanValue keep key v t else t)
termination_by structural _ table => table

/-- Scan the attributes of qualifiers in turn. -/
def scanQualifiers (keep : KeyFilter) :
    List (String × List (String × Value)) → NestedMethods → NestedMethods
  | [], t => t
  | (_, attributes) :: rest, t =>
    scanQualifiers keep rest (scanTable keep (fun _ => true) attributes t)
termination_by structural qualifiers => qualifiers

/-- Name methods for all definitions nested in a definition. -/
def scan (keep : KeyFilter) : Definition → NestedMethods → NestedMethods
  | ⟨_, indexed, generic, properties, attributes, qualifiers⟩, t =>
    scanQualifiers keep qualifiers <|
      scanTable keep keep attributes <|
        scanTable keep (fun _ => true) properties <|
          scanGeneric keep 0 generic <|
            scanIndexed keep indexed t
termination_by structural d => d

end

/-- The methods for all definitions nested in one definition. -/
def ofDefinition (owner : ClassName) (keep : KeyFilter) (d : Definition) : NestedMethods :=
  scan keep d { owner }

/-- A nested definition is supplied by the call of its method. -/
def resolver (t : NestedMethods) : Resolver := fun _ v =>
  match v with
  | .bean d => (t.nameFor? d).map fun name => .staticCall t.owner name []
  | _ => none

end NestedMethods

end BeanScript
