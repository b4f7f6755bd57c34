import BeanScript.Code.Expr

/-!
# Lines of a script

The text of a script where it is known beforehand how each type is written: an expression is a text,
and a statement is a line, except that a nested block is the lines of its statements one level
deeper, between two lines for its braces.

## Main definitions

* `Expr.text` — the text of an expression
* `Stmt.lines`, `Block.lines` — the lines of statements at a depth, without their ends
* `Expr.names`, `Stmt.names`, `Block.names` — the names that are written as they are
-/

namespace BeanScript

section Text

variable (spell : ClassName → String)

mutual

/-- The text of an expression. -/
def Expr.text : Expr → String
  | .literal l => l.source
  | .typeLiteral type => spell type ++ ".class"
  | .staticField owner name => spell owner ++ "." ++ name
  | .var name => name
  | .construct type args =>
    "new " ++ spell type ++ "(" ++ ", ".intercalate (argumentTexts args) ++ ")"
  | .newArray component elements =>
    "new " ++ spell component ++ "[] \x7b" ++ ", ".intercalate (argumentTexts elements) ++ "\x7d"
  | .staticCall owner method args =>
    spell owner ++ "." ++ method ++ "(" ++ ", ".intercalate (argumentTexts args) ++ ")"
  | .call receiver method args =>
    receiver.text ++ "." ++ method ++ "(" ++ ", ".intercalate (argumentTexts args) ++ ")"
termination_by structural e => e

/-- The texts of expressions. -/
def argumentTexts : List Expr → List String
  | [] => []
  | e :: es => e.text :: argumentTexts es
termination_by structural es => es

end

/-- The spaces that a line at the given depth begins with. -/
def margin (depth : Nat) : String :=
  String.ofList (List.replicate (4 * depth) ' ')

mutual

/-- The lines of a statement at the given depth. -/
def Stmt.lines : Nat → Stmt → List String
  | depth, .expr e => [margin depth ++ (e.text spell ++ ";")]
  | depth, .declare type name init =>
    [margin depth ++ (spell type ++ " " ++ name ++ " = " ++ init.text spell ++ ";")]
  | depth, .ret e => [margin depth ++ ("return " ++ e.text spell ++ ";")]
  | depth, .nested body =>
    (margin depth ++ "\x7b") :: (Block.lines (depth + 1) body ++ [margin depth ++ "\x7d"])
termination_by structural _ s => s

/-- The lines of statements at the given depth. -/
def Block.lines : Nat → List Stmt → List String
  | _, [] => []
  | depth, s :: rest => s.lines depth ++ Block.lines depth rest
termination_by structural _ body => body

end

end Text

mutual

/-- The names of classes, variables, fields and methods in an expression. -/
def Expr.names : Expr → List String
  | .literal _ => []
  | .typeLiteral type => [type.text]
  | .staticField owner name => [owner.text, name]
  | .var name => [name]
  | .construct type args => type.text :: argumentNames args
  | .newArray component elements => component.text :: argumentNames elements
  | .staticCall owner method args => owner.text :: method :: argumentNames args
  | .call receiver method args => receiver.names ++ method :: argumentNames args
termination_by structural e => e

/-- The names in expressions. -/
def argumentNames : List Expr → List String
  | [] => []
  | e :: es => e.names ++ argumentNames es
termination_by structural es => es

end

mutual

/-- The names of classes, variables, fields and methods in a statement. -/
def Stmt.names : Stmt → List String
  | .expr e => e.names
  | .declare type name init => type.text :: name :: init.names
  | .ret e => e.names
  | .nested body => Block.names body
termination_by structural s => s

/-- The names in statements. -/
def Block.names : List Stmt → List String
  | [] => []
  | s :: rest => s.names ++ Block.names rest
termination_by structural body => body

end

end BeanScript
