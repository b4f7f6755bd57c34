/-!
# Faults of replay

Why a script cannot be replayed, with the wording of each fault.

## Main definitions

* `Expected` — what an argument has to be
* `Fault`, `Fault.message`
-/

namespace BeanScript

/-- What an argument has to be. -/
inductive Expected
  | value
  | string
  | stringOrNull
  | boolean
  | int
  | classObject
  | mapEntry
  | qualifier
  | nonNegativeIndex
  | beanNameOrType
deriving DecidableEq

/-- The expectation in words. -/
def Expected.text : Expected → String
  | value => "value"
  | string => "string"
  | stringOrNull => "string or null"
  | boolean => "boolean"
  | int => "int"
  | classObject => "class"
  | mapEntry => "map entry"
  | qualifier => "qualifier"
  | nonNegativeIndex => "non-negative index"
  | beanNameOrType => "bean name or type"

/-- Why a script cannot be replayed. -/
inductive Fault
  | undefinedVariable (name : String)
  | undefinedMethod (method typeName : String)
  | arityMismatch (name : String) (expected got : Nat)
  | wrongArgument (method : String) (index : Nat) (expected : Expected) (got : String)
  | unknownConstructor (type : String)
  | unknownStaticCall (owner method : String)
  | unknownStaticField (owner name : String)
  | missingReturn (method : String)
  | recursionLimit (limit : Nat)
deriving DecidableEq

/-- The fault in words. -/
def Fault.message : Fault → String
  | undefinedVariable name => "undefined variable `" ++ name ++ "`"
  | undefinedMethod method typeName => "no method `" ++ method ++ "` on " ++ typeName
  | arityMismatch name expected got =>
    "`" ++ name ++ "` expects " ++ toString expected ++ " argument(s), got " ++ toString got
  | wrongArgument method index expected got =>
    "`" ++ method ++ "` argument " ++ toString index ++ ": expected " ++ expected.text ++
      ", got " ++ got
  | unknownConstructor type => "unknown constructor `new " ++ type ++ "`"
  | unknownStaticCall owner method => "unknown static call `" ++ owner ++ "." ++ method ++ "`"
  | unknownStaticField owner name => "unknown static field `" ++ owner ++ "." ++ name ++ "`"
  | missingReturn method => "`" ++ method ++ "` finished without returning a bean definition"
  | recursionLimit limit => "call depth limit of " ++ toString limit ++ " exceeded"

end BeanScript
