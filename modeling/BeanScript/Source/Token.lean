import BeanScript.Code.Expr

/-!
# Tokens of a script

A script is laid out as a sequence of pieces in text order. A piece is a fixed text, or the name
of a type, whose spelling depends on the types named before it. Each piece is handed to an output
in one write: a level of indentation, an end of line, a separator is a piece of its own.

## Main definitions

* `Token`
* `Expr.tokens`, `Stmt.tokens`, `Block.tokens` — the layout, one statement on a line
-/

namespace BeanScript

/-- A piece of a laid-out script. -/
inductive Token
  | text (s : String)
  | type (name : ClassName)
deriving DecidableEq

/-- One level of indentation. -/
def indentUnit : String := "    "

/-- The start of a line at the given depth. -/
def indentation (depth : Nat) : List Token :=
  List.replicate depth (.text indentUnit)

mutual

/-- The pieces of an expression. -/
def Expr.tokens : Expr → List Token
  | .literal l => l.fragments.map .text
  | .typeLiteral type => [.type type, .text ".class"]
  | .staticField owner name => [.type owner, .text ".", .text name]
  | .var name => [.text name]
  | .construct type args =>
    .text "new " :: .type type :: .text "(" :: (listTokens args ++ [.text ")"])
  | .newArray component elements =>
    .text "new " :: .type component :: .text "[] \x7b" :: (listTokens elements ++ [.text "\x7d"])
  | .staticCall owner method args =>
    .type owner :: .text "." :: .text method :: .text "(" :: (listTokens args ++ [.text ")"])
  | .call receiver method args =>
    receiver.tokens ++
      .text "." :: .text method :: .text "(" :: (listTokens args ++ [.text ")"])
termination_by structural e => e

/-- The pieces of expressions separated by commas. -/
def listTokens : List Expr → List Token
  | [] => []
  | e :: es => e.tokens ++ tailTokens es
termination_by structural es => es

/-- The pieces of further expressions, each after a comma. -/
def tailTokens : List Expr → List Token
  | [] => []
  | e :: es => .text ", " :: (e.tokens ++ tailTokens es)
termination_by structural es => es

end

mutual

/-- The lines of a statement at the given depth. -/
def Stmt.tokens : Nat → Stmt → List Token
  | depth, .expr e => indentation depth ++ e.tokens ++ [.text ";", .text "\n"]
  | depth, .declare type name init =>
    indentation depth ++ [.type type, .text " ", .text name, .text " = "] ++ init.tokens ++
      [.text ";", .text "\n"]
  | depth, .ret e =>
    indentation depth ++ .text "return " :: e.tokens ++ [.text ";", .text "\n"]
  | depth, .nested body =>
    indentation depth ++ [.text "\x7b", .text "\n"] ++ Block.tokens (depth + 1) body ++
      indentation depth ++ [.text "\x7d", .text "\n"]
termination_by structural _ s => s

/-- The lines of a sequence of statements at the given depth. -/
def Block.tokens : Nat → List Stmt → List Token
  | _, [] => []
  | depth, s :: rest => s.tokens depth ++ Block.tokens depth rest
termination_by structural _ body => body

end

end BeanScript
