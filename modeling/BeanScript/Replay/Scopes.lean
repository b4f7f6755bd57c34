import BeanScript.Replay.Datum

/-!
# Scopes

Variables live in a stack of scopes that is never empty. A local belongs to the innermost scope and
ends with it; look-up goes from the innermost scope outwards.

## Main definitions

* `Scopes`, `Scopes.enter`, `Scopes.leave`, `Scopes.define`, `Scopes.lookUp?`, `Scopes.depth`

## Main results

* `Scopes.lookUp?_define` — a variable is found where it was defined last
-/

namespace BeanScript

/-- The variables of one scope. -/
abbrev Scope := Table String Datum

/-- A stack of scopes. -/
structure Scopes where
  inner : Scope := []
  outer : List Scope := []

namespace Scopes

/-- The number of scopes. -/
def depth (s : Scopes) : Nat :=
  s.outer.length + 1

/-- Open a scope. -/
def enter (s : Scopes) : Scopes :=
  { inner := [], outer := s.inner :: s.outer }

/-- Close the innermost scope, unless it is the only one. -/
def leave (s : Scopes) : Scopes :=
  match s.outer with
  | [] => s
  | scope :: rest => { inner := scope, outer := rest }

/-- Define a variable in the innermost scope. -/
def define (s : Scopes) (name : String) (datum : Datum) : Scopes :=
  { s with inner := Table.put s.inner name datum }

/-- The nearest variable of a name. -/
def lookUp? (s : Scopes) (name : String) : Option Datum :=
  (s.inner :: s.outer).findSome? fun scope => Table.get? scope name

@[simp] theorem leave_enter (s : Scopes) : s.enter.leave = s := rfl

@[simp] theorem depth_enter (s : Scopes) : s.enter.depth = s.depth + 1 := rfl

@[simp] theorem depth_define (s : Scopes) (name : String) (datum : Datum) :
    (s.define name datum).depth = s.depth := rfl

/-- A scope that has just been opened hides nothing. -/
@[simp] theorem lookUp?_enter (s : Scopes) (name : String) :
    s.enter.lookUp? name = s.lookUp? name := rfl

/-- A variable is found where it was defined last; the others are not affected. -/
theorem lookUp?_define (s : Scopes) (name : String) (datum : Datum) (other : String) :
    (s.define name datum).lookUp? other = if name = other then some datum else s.lookUp? other := by
  by_cases h : name = other <;>
    simp [lookUp?, define, List.findSome?_cons, Table.get?_put, h]

end Scopes

end BeanScript
