import BeanScript.ClassName
import BeanScript.Text.Cut

/-!
# Class names cut at offsets

The parts of a class name once more, this time cut out of it. The offset of the type path is counted
segment by segment, with one byte for the dot after each; the parts are then what stands before and
after it. Nothing in this form says that there is a character boundary at an offset counted so, or
that it lies inside the name: names may hold any characters, and empty segments.

## Main definitions

* `ClassName.segments` — what the dots of a name separate
* `ClassName.typeOffset?` — the offset of the first segment that begins with an upper-case character
* `ClassName.cutPackage`, `ClassName.cutSimpleName`, `ClassName.cutTopLevel` — the parts
-/

namespace BeanScript.ClassName

/-- The segments of a name, empty ones included. -/
def segments (c : ClassName) : List String :=
  (c.text.split '.').toList.map (·.copy)

/-- Whether a segment begins with an upper-case character, as that of a type does. -/
def beginsUppercase (segment : String) : Bool :=
  segment.toList.head?.any Text.isUppercase

/-- The offset of the first segment of a type, where the first of the given segments has the given
offset. -/
def typeOffsetFrom? (offset : Nat) : List String → Option Nat
  | [] => none
  | segment :: rest =>
    if beginsUppercase segment then some offset
    else typeOffsetFrom? (offset + (segment.utf8ByteSize + 1)) rest

/-- The offset of the type path; `none` for a primitive type. -/
def typeOffset? (c : ClassName) : Option Nat :=
  typeOffsetFrom? 0 c.segments

/-- The package. -/
def cutPackage (c : ClassName) : Except CutFault String :=
  match c.typeOffset? with
  | some 0 | none => return ""
  | some start => do Text.takeBytes c.text (← Text.stepBack start 1)

/-- The name from the type path on. -/
def cutSimpleName (c : ClassName) : Except CutFault String :=
  match c.typeOffset? with
  | some start => Text.dropBytes c.text start
  | none => return c.text

/-- The top-level type, which ends before the first dot of the type path. -/
def cutTopLevel? (c : ClassName) : Except CutFault (Option String) :=
  match c.typeOffset? with
  | some start => do
    let typePath ← Text.dropBytes c.text start
    let stop := (Text.offsetOf? '.' typePath).elim c.text.utf8ByteSize (start + ·)
    return some (← Text.takeBytes c.text stop)
  | none => return none

end BeanScript.ClassName
