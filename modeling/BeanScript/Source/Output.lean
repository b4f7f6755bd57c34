import BeanScript.Source.Render
import BeanScript.Source.Sink

/-!
# Rendering to any output

A renderer walks over statements and expressions and hands text to an output as it goes, keeping
the depth of the current line and the names claimed so far. It knows three things that an output
can do, and each kind of output does them in its own way: a buffer takes the indentation of a line
at once and never refuses, a limited output takes it level by level and may refuse at any of them.

## Main definitions

* `Output` — what a renderer asks of an output; `Buffer`, `Fragments`, and `Sink` as outputs
* `Renderer`, `Renderer.block`, `Renderer.expr` — the walk
-/

namespace BeanScript

/-- What a renderer asks of an output. -/
class Output (ω : Type) where
  /-- Write a fragment on the current line. -/
  write : ω → String → ω
  /-- Begin a line at the given depth. -/
  startLine : ω → Nat → ω
  /-- End the current line. -/
  endLine : ω → ω

/-- An output that collects text. -/
structure Buffer where
  text : String := ""

instance : Output Buffer where
  write buffer fragment := { text := buffer.text ++ fragment }
  startLine buffer depth :=
    { text := buffer.text ++ String.join (List.replicate depth indentUnit) }
  endLine buffer := { text := buffer.text.push '\n' }

namespace Sink

/-- Begin a line, one level of indentation after the other. -/
def startLine (sink : Sink) : Nat → Sink
  | 0 => sink
  | depth + 1 => (sink.write indentUnit).startLine depth

instance : Output Sink where
  write := write
  startLine := startLine
  endLine sink := sink.write "\n"

/-- The output in the end, if it has refused nothing. -/
def finish? (sink : Sink) : Option Sink :=
  if sink.refused then none else some sink

end Sink

/-- An output that notes the fragments it is handed: one for each level of indentation, one for the
end of a line. -/
structure Fragments where
  list : List String := []

instance : Output Fragments where
  write fragments fragment := { list := fragments.list ++ [fragment] }
  startLine fragments depth := { list := fragments.list ++ List.replicate depth indentUnit }
  endLine fragments := { list := fragments.list ++ ["\n"] }

/-- An output, with the depth of the current line and the names claimed so far. -/
structure Renderer (ω : Type) where
  output : ω
  depth : Nat := 0
  imports : Imports := []

namespace Renderer

/-- The source that a renderer has written to a buffer. -/
def finish (r : Renderer Buffer) : Source where
  imports := r.imports.sorted
  body := r.output.text

variable {ω : Type} [Output ω]

/-- Write a fragment. -/
def write (r : Renderer ω) (fragment : String) : Renderer ω :=
  { r with output := Output.write r.output fragment }

/-- Begin a line at the current depth. -/
def startLine (r : Renderer ω) : Renderer ω :=
  { r with output := Output.startLine r.output r.depth }

/-- End the current line. -/
def endLine (r : Renderer ω) : Renderer ω :=
  { r with output := Output.endLine r.output }

/-- How a type is written after what was written so far. -/
def spell (r : Renderer ω) (name : ClassName) : String × Renderer ω :=
  let (spelled, imports) := r.imports.spell name
  (spelled, { r with imports })

/-- Write a type. -/
def type (r : Renderer ω) (name : ClassName) : Renderer ω :=
  let (spelled, r) := r.spell name
  r.write spelled

/-- Write a literal. -/
def literal (r : Renderer ω) (l : Literal) : Renderer ω :=
  l.fragments.foldl write r

mutual

/-- Write an expression. -/
def expr : Expr → Renderer ω → Renderer ω
  | .literal l, r => r.literal l
  | .typeLiteral name, r => (r.type name).write ".class"
  | .staticField owner name, r => ((r.type owner).write ".").write name
  | .var name, r => r.write name
  | .construct name args, r =>
    let (spelled, r) := r.spell name
    (separated true args (((r.write "new ").write spelled).write "(")).write ")"
  | .newArray component elements, r =>
    let (spelled, r) := r.spell component
    (separated true elements (((r.write "new ").write spelled).write "[] \x7b")).write "\x7d"
  | .staticCall owner method args, r =>
    (separated true args ((((r.type owner).write ".").write method).write "(")).write ")"
  | .call receiver method args, r =>
    (separated true args ((((expr receiver r).write ".").write method).write "(")).write ")"
termination_by structural e => e

/-- Write expressions with commas between them. The flag says that none was written so far. -/
def separated : Bool → List Expr → Renderer ω → Renderer ω
  | _, [], r => r
  | first, e :: es, r => separated false es (expr e (if first then r else r.write ", "))
termination_by structural _ es => es

end

mutual

/-- Write the lines of a statement. -/
def stmt : Stmt → Renderer ω → Renderer ω
  | .expr e, r => ((expr e r.startLine).write ";").endLine
  | .declare name x init, r =>
    ((expr init ((((r.startLine.type name).write " ").write x).write " = ")).write ";").endLine
  | .ret e, r => ((expr e (r.startLine.write "return ")).write ";").endLine
  | .nested body, r =>
    let r := (r.startLine.write "\x7b").endLine
    let r := block body { r with depth := r.depth + 1 }
    let r := { r with depth := r.depth - 1 }
    (r.startLine.write "\x7d").endLine
termination_by structural s => s

/-- Write the lines of statements in turn, at the current depth. -/
def block : List Stmt → Renderer ω → Renderer ω
  | [], r => r
  | s :: rest, r => block rest (stmt s r)
termination_by structural body => body

end

end Renderer

end BeanScript
