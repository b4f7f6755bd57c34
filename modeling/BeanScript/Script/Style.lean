import BeanScript.Api
import BeanScript.Code.Expr

/-!
# The style of a script

What a script leaves open: the name of the variable that its statements are called on, the spelling
of a single lifecycle method, and the class of the methods for nested definitions.

## Main definitions

* `Style`
* `Style.call`, `Style.callArguments`, `Style.callProperties` — calls on the receiver and its parts
-/

namespace BeanScript

/-- Choices that a script leaves open. -/
structure Style where
  /-- The variable on which statements are called. -/
  receiver : String := "beanDefinition"
  /-- Whether a single lifecycle method is set by the setter for a single name. -/
  singularLifecycle : Bool := true
  /-- The class of the methods that build nested definitions. -/
  methodOwner : ClassName := ⟨"BeanDefinitions__Generated"⟩
deriving DecidableEq

namespace Style

/-- The receiver. -/
def receiverExpr (style : Style) : Expr :=
  .var style.receiver

/-- The statement that calls a method on the receiver. -/
def call (style : Style) (m : Api.DefinitionMethod) (args : List Expr) : Stmt :=
  .expr (.call style.receiverExpr m.name args)

/-- The statement that calls a method on the constructor arguments of the receiver. -/
def callArguments (style : Style) (m : Api.ArgumentsMethod) (args : List Expr) : Stmt :=
  .expr (.call (.call style.receiverExpr Api.DefinitionMethod.getConstructorArgumentValues.name [])
    m.name args)

/-- The statement that calls a method on the property values of the receiver. -/
def callProperties (style : Style) (m : Api.PropertiesMethod) (args : List Expr) : Stmt :=
  .expr (.call (.call style.receiverExpr Api.DefinitionMethod.getPropertyValues.name [])
    m.name args)

end Style

/-- The call of a static factory. -/
def Api.Factory.call (f : Api.Factory) (args : List Expr) : Expr :=
  .staticCall f.owner f.name args

/-- A construction. -/
def Api.Constructor.call (k : Api.Constructor) (args : List Expr) : Expr :=
  .construct k.type args

end BeanScript
