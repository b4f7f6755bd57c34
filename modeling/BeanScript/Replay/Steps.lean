import BeanScript.Replay.Run
import Mathlib.Logic.Relation

/-!
# Replay step by step

The same replay, as one small step after the other. A state says what is looked at now, what waits
for its result, and how the machine looks by then, so that the middle of a run can be talked about
and not only its end: how many calls are in progress, and which objects are referred to.

References are used where an argument is handed over and where a method is called on an object. A
run that has to use a reference to an object that is not there cannot go on.

## Main definitions

* `Object`, `Machine.Has`, `Datum.InBounds` — the objects that data refer to
* `Wait`, `State` — what waits for a result, and the states of a run
* `State.next?`, `State.Reaches` — one step, and any number of them
* `State.callers`, `State.calls`, `State.data` — the calls in progress, and the data that are held
-/

namespace BeanScript

/-! ### Objects -/

/-- An object that a datum can refer to. -/
inductive Object
  | definition (id : DefinitionRef)
  | qualifier (id : QualifierRef)
deriving DecidableEq

/-- The object that a datum refers to, if it does. -/
def Datum.object? : Datum → Option Object
  | value _ => none
  | definition id => some (.definition id)
  | qualifier id => some (.qualifier id)
  | properties id => some (.definition id)
  | arguments id => some (.definition id)
  | holder _ => none
  | entry _ _ => none
  | void => none

/-- Whether an object is there. -/
def Machine.Has (m : Machine) : Object → Prop
  | .definition id => id.index < m.definitions.length
  | .qualifier id => id.index < m.qualifiers.length

instance (m : Machine) : DecidablePred m.Has
  | .definition id => inferInstanceAs (Decidable (id.index < m.definitions.length))
  | .qualifier id => inferInstanceAs (Decidable (id.index < m.qualifiers.length))

/-- Whether the object that a datum refers to is there. -/
def Datum.InBounds (m : Machine) (datum : Datum) : Prop :=
  ∀ object ∈ datum.object?, m.Has object

instance (m : Machine) : DecidablePred (Datum.InBounds m) := fun datum =>
  inferInstanceAs (Decidable (∀ object ∈ datum.object?, m.Has object))

/-! ### States -/

/-- What can be waited for. -/
inductive Wanted
  | datum
  | arguments
  | ending

/-- What waits for a datum, for evaluated arguments, or for the end of statements: the nearest
first, and what waits for its result in turn. -/
inductive Wait : Wanted → Type
  /-- An expression is all there is to evaluate. -/
  | evaluated : Wait .datum
  /-- Statements are all there is to run. -/
  | executed : Wait .ending
  | receiver (method : String) (args : List Expr) (next : Wait .datum) : Wait .datum
  /-- An argument, after those that are evaluated and before those that are not. -/
  | argument (done : List Datum) (todo : List Expr) (next : Wait .arguments) : Wait .datum
  | discard (rest : Block) (next : Wait .ending) : Wait .datum
  | declare (name : String) (rest : Block) (next : Wait .ending) : Wait .datum
  | ret (next : Wait .ending) : Wait .datum
  | construct (type : ClassName) (next : Wait .datum) : Wait .arguments
  | newArray (component : ClassName) (next : Wait .datum) : Wait .arguments
  | staticCall (owner : ClassName) (name : String) (next : Wait .datum) : Wait .arguments
  | call (receiver : Datum) (method : String) (next : Wait .datum) : Wait .arguments
  /-- A nested scope, with the statements after it. -/
  | scope (rest : Block) (next : Wait .ending) : Wait .ending
  /-- A call of a generated method, with the variables of its caller. -/
  | method (owner : ClassName) (name : String) (caller : Scopes) (next : Wait .datum) :
    Wait .ending

/-- A state of a run. -/
inductive State
  /-- An expression is evaluated next. -/
  | expr (e : Expr) (next : Wait .datum) (m : Machine)
  /-- Arguments are evaluated next, after those that are evaluated already. -/
  | args (done : List Datum) (todo : List Expr) (next : Wait .arguments) (m : Machine)
  /-- Statements are run next. -/
  | block (body : Block) (next : Wait .ending) (m : Machine)
  /-- An expression has been evaluated. -/
  | value (datum : Datum) (next : Wait .datum) (m : Machine)
  /-- Statements have ended, with a datum where a `return` has ended them. -/
  | ended (returned : Option Datum) (next : Wait .ending) (m : Machine)
  /-- There was a fault. -/
  | fault (f : Fault) {wanted : Wanted} (next : Wait wanted) (m : Machine)

namespace Machine

/-- Open a scope. -/
def enterScope (m : Machine) : Machine :=
  { m with scopes := m.scopes.enter }

/-- Close the innermost scope. -/
def leaveScope (m : Machine) : Machine :=
  { m with scopes := m.scopes.leave }

/-- Set the variables aside for a call. -/
def enterCall (m : Machine) : Machine :=
  { m with scopes := {}, callers := m.scopes :: m.callers }

/-- Go on with the variables of the caller. -/
def leaveCall (m : Machine) (caller : Scopes) : Machine :=
  { m with scopes := caller, callers := m.callers.tail }

end Machine

/-! ### Steps -/

/-- The state in which a result is given to what waits for it. -/
def State.ofResult (next : Wait .datum) : Except Fault Datum × Machine → State
  | (.ok datum, m) => .value datum next m
  | (.error f, m) => .fault f next m

/-- Begin to evaluate an expression. -/
def Expr.begin (next : Wait .datum) (m : Machine) : Expr → State
  | .literal l => .value (.value (.literal l)) next m
  | .typeLiteral type => .value (.value (.atom (.classObject type))) next m
  | .staticField owner name => .ofResult next (BeanScript.staticField owner name, m)
  | .var name =>
    match m.scopes.lookUp? name with
    | some datum => .value datum next m
    | none => .fault (.undefinedVariable name) next m
  | .construct type args => .args [] args (.construct type next) m
  | .newArray component elements => .args [] elements (.newArray component next) m
  | .staticCall owner name args => .args [] args (.staticCall owner name next) m
  | .call receiver method args => .expr receiver (.receiver method args next) m

/-- Begin to run a statement. -/
def Stmt.begin (rest : Block) (next : Wait .ending) (m : Machine) : Stmt → State
  | .expr e => .expr e (.discard rest next) m
  | .declare _ name init => .expr init (.declare name rest next) m
  | .ret e => .expr e (.ret next) m
  | .nested body => .block body (.scope rest next) m.enterScope

/-- Begin a call of a generated method, where not too many are in progress. -/
def State.ofMethodCall (owner : ClassName) (name : String) (body : Block) (next : Wait .datum)
    (m : Machine) : State :=
  if maxCalls ≤ m.callers.length then .fault (.recursionLimit maxCalls) next m
  else .block body (.method owner name m.scopes next) m.enterCall

/-- Begin a static call. -/
def State.ofStaticCall (methods : Methods) (owner : ClassName) (name : String) (data : List Datum)
    (next : Wait .datum) (m : Machine) : State :=
  let args : Arguments := { method := name, data }
  match Api.Factory.of? owner name with
  | some factory => .ofResult next (factory.build args, m)
  | none =>
    match Table.get? methods (owner, name) with
    | none => .fault (.unknownStaticCall owner.text name) next m
    | some body =>
      match args.expect 0 with
      | .error f => .fault f next m
      | .ok () => .ofMethodCall owner name body next m

namespace Wait

/-- Take a datum. -/
def takeDatum (m : Machine) (datum : Datum) : Wait .datum → Option State
  | evaluated => none
  | receiver name args next => some (.args [] args (.call datum name next) m)
  | argument done todo next =>
    -- a definition is copied, so it is looked up here
    if datum.InBounds m then some (.args (done ++ [m.toArgument datum]) todo next m) else none
  | discard rest next => some (.block rest next m)
  | declare name rest next => some (.block rest next (m.define name datum))
  | ret next => some (.ended (some datum) next m)

/-- Take evaluated arguments. -/
def takeArguments (methods : Methods) (m : Machine) (data : List Datum) :
    Wait .arguments → Option State
  | construct type next => some (.ofResult next (BeanScript.construct type data m))
  | newArray component next =>
    let args : Arguments := { method := "new[]", data }
    some (.ofResult next
      ((args.all Arguments.value).map fun elements => .value (.array component elements), m))
  | staticCall owner name next => some (.ofStaticCall methods owner name data next m)
  | call object name next =>
    -- the call may look up its object, and a qualifier among its arguments
    if ∀ datum ∈ object :: data, datum.InBounds m then
      some (.ofResult next (callOn object name data m))
    else none

/-- Take the end of statements. -/
def takeEnding (m : Machine) (returned : Option Datum) : Wait .ending → Option State
  | executed => none
  | scope rest next =>
    match returned with
    | some datum => some (.ended (some datum) next m.leaveScope)
    | none => some (.block rest next m.leaveScope)
  | method owner name caller next =>
    match returned with
    | some datum => some (.value datum next (m.leaveCall caller))
    | none => some (.fault (.missingReturn (qualifiedName owner name)) next (m.leaveCall caller))

/-- Take a fault: it ends everything that waits. -/
def takeFault (m : Machine) (f : Fault) {wanted : Wanted} : Wait wanted → Option State
  | evaluated => none
  | executed => none
  | receiver _ _ next => some (.fault f next m)
  | argument _ _ next => some (.fault f next m)
  | discard _ next => some (.fault f next m)
  | declare _ _ next => some (.fault f next m)
  | ret next => some (.fault f next m)
  | construct _ next => some (.fault f next m)
  | newArray _ next => some (.fault f next m)
  | staticCall _ _ next => some (.fault f next m)
  | call _ _ next => some (.fault f next m)
  | scope _ next => some (.fault f next m.leaveScope)
  | method _ _ caller next => some (.fault f next (m.leaveCall caller))

end Wait

namespace State

/-- The next state; none at the end of a run, and where a reference to an object that is not there
would have to be used. -/
def next? (methods : Methods) : State → Option State
  | expr e next m => some (e.begin next m)
  | args done (e :: todo) next m => some (.expr e (.argument done todo next) m)
  | args done [] next m => next.takeArguments methods m done
  | block [] next m => some (.ended none next m)
  | block (s :: rest) next m => some (s.begin rest next m)
  | value datum next m => next.takeDatum m datum
  | ended returned next m => next.takeEnding m returned
  | fault f next m => next.takeFault m f

/-- There are steps from one state to another. -/
def Reaches (methods : Methods) : State → State → Prop :=
  Relation.ReflTransGen fun s t => s.next? methods = some t

/-- Nothing waits for the result any more. -/
def IsFinal : State → Prop
  | value _ .evaluated _ => True
  | ended _ .executed _ => True
  | fault _ .evaluated _ => True
  | fault _ .executed _ => True
  | _ => False

end State

/-! ### What a state holds -/

/-- The data of the variables. -/
def Scopes.data (s : Scopes) : List Datum :=
  (s.inner :: s.outer).flatMap fun scope => scope.map Prod.snd

/-- The data of the variables, also of those that are set aside. -/
def Machine.data (m : Machine) : List Datum :=
  (m.scopes :: m.callers).flatMap Scopes.data

namespace Wait

/-- The variables of the callers, the latest first. -/
def callers {wanted : Wanted} : Wait wanted → List Scopes
  | evaluated => []
  | executed => []
  | receiver _ _ next => next.callers
  | argument _ _ next => next.callers
  | discard _ next => next.callers
  | declare _ _ next => next.callers
  | ret next => next.callers
  | construct _ next => next.callers
  | newArray _ next => next.callers
  | staticCall _ _ next => next.callers
  | call _ _ next => next.callers
  | scope _ next => next.callers
  | method _ _ caller next => caller :: next.callers

/-- The data that are held until there is a result. -/
def data {wanted : Wanted} : Wait wanted → List Datum
  | evaluated => []
  | executed => []
  | receiver _ _ next => next.data
  | argument done _ next => done ++ next.data
  | discard _ next => next.data
  | declare _ _ next => next.data
  | ret next => next.data
  | construct _ next => next.data
  | newArray _ next => next.data
  | staticCall _ _ next => next.data
  | call object _ next => object :: next.data
  | scope _ next => next.data
  | method _ _ caller next => caller.data ++ next.data

end Wait

namespace State

/-- The machine by now. -/
def machine : State → Machine
  | expr _ _ m => m
  | args _ _ _ m => m
  | block _ _ m => m
  | value _ _ m => m
  | ended _ _ m => m
  | fault _ _ m => m

/-- The variables of the callers of generated methods, the latest first. -/
def callers : State → List Scopes
  | expr _ next _ => next.callers
  | args _ _ next _ => next.callers
  | block _ next _ => next.callers
  | value _ next _ => next.callers
  | ended _ next _ => next.callers
  | fault _ next _ => next.callers

/-- The number of calls of generated methods in progress. -/
def calls (s : State) : Nat :=
  s.callers.length

/-- The data that were computed and not handed on yet. -/
def held : State → List Datum
  | expr _ next _ => next.data
  | args done _ next _ => done ++ next.data
  | block _ next _ => next.data
  | value datum next _ => datum :: next.data
  | ended returned next _ => returned.toList ++ next.data
  | fault _ next _ => next.data

/-- All data: the values of all variables, and what was computed and not handed on yet. -/
def data (s : State) : List Datum :=
  s.held ++ s.machine.data

end State

end BeanScript
