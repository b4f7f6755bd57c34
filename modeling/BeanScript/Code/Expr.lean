import BeanScript.ClassName
import BeanScript.Code.Literal

/-!
# Expressions and statements

The language of generated scripts: literals, names of types, fields and variables, construction of
objects and arrays, and calls; with statements that evaluate an expression, declare a local, nest a
scope or return.

## Main definitions

* `Expr`, `Stmt`, `Block`
* `Expr.method?` — the method that an expression calls
-/

namespace BeanScript

/-- An expression of a script. -/
inductive Expr
  | literal (l : Literal)
  /-- The class object of a type. -/
  | typeLiteral (type : ClassName)
  /-- A static field or enum constant. -/
  | staticField (owner : ClassName) (name : String)
  | var (name : String)
  | construct (type : ClassName) (args : List Expr)
  | newArray (component : ClassName) (elements : List Expr)
  | staticCall (owner : ClassName) (method : String) (args : List Expr)
  | call (receiver : Expr) (method : String) (args : List Expr)

namespace Expr

/-- The literal `null`. -/
def null : Expr := .literal .null

/-- A boolean literal. -/
def bool (b : Bool) : Expr := .literal (.bool b)

/-- An integer literal. -/
def int (n : Int32) : Expr := .literal (.int n)

/-- A string literal. -/
def string (s : String) : Expr := .literal (.string s)

/-- The method called, when the expression is a call. -/
def method? : Expr → Option String
  | .staticCall _ method _ => some method
  | .call _ method _ => some method
  | _ => none

end Expr

/-- A statement of a script. -/
inductive Stmt
  /-- An expression evaluated for its effect. -/
  | expr (e : Expr)
  /-- A local declaration with its initial value. -/
  | declare (type : ClassName) (name : String) (init : Expr)
  /-- A scope of its own: locals declared in it end with it. -/
  | nested (body : List Stmt)
  | ret (e : Expr)

/-- A sequence of statements. -/
abbrev Block := List Stmt

/-- The method called by the expression of a statement; a nested scope has no expression. -/
def Stmt.method? : Stmt → Option String
  | .expr e => e.method?
  | .declare _ _ e => e.method?
  | .nested _ => none
  | .ret e => e.method?

end BeanScript
