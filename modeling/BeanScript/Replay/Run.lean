import BeanScript.Code.Expr
import BeanScript.Replay.Objects

/-!
# Running scripts

Expressions are evaluated from left to right, statements in order up to the first `return`. A
static call builds a collection or runs a generated method in variables of its own. Calls of
generated methods may nest up to a limit, so every run ends.

## Main definitions

* `Expr.eval`, `Stmt.exec`, `Block.exec` — running with a given meaning of static calls
* `Methods`, `staticCall`, `runMethod` — the meaning of static calls
* `Replay.eval`, `Replay.exec` — running with generated methods
* `execute`, `Methods.build` — the definition that a script, a method builds
-/

namespace BeanScript

/-- The meaning of a static call, from its owner, its name and its arguments. -/
abbrev StaticCalls := ClassName → String → List Datum → Replay Datum

mutual

/-- Evaluate an expression. -/
def Expr.eval (call : StaticCalls) : Expr → Replay Datum
  | .literal l => return .value (.literal l)
  | .typeLiteral type => return .value (.atom (.classObject type))
  | .staticField owner name => Replay.ofExcept (staticField owner name)
  | .var name => do
    match (← get).scopes.lookUp? name with
    | some datum => return datum
    | none => throw (.undefinedVariable name)
  | .construct type args => do
    construct type (← evalArgs call args)
  | .newArray component elements => do
    let args : Arguments := { method := "new[]", data := ← evalArgs call elements }
    return .value (.array component (← Replay.ofExcept (args.all Arguments.value)))
  | .staticCall owner method args => do
    call owner method (← evalArgs call args)
  | .call receiver method args => do
    let object ← receiver.eval call
    callOn object method (← evalArgs call args)
termination_by structural e => e

/-- Evaluate arguments in turn. -/
def evalArgs (call : StaticCalls) : List Expr → Replay (List Datum)
  | [] => return []
  | e :: es => do
    let datum ← e.eval call
    let argument := (← get).toArgument datum
    return argument :: (← evalArgs call es)
termination_by structural es => es

end

mutual

/-- Run a statement; the answer is the datum that a `return` gives. -/
def Stmt.exec (call : StaticCalls) : Stmt → Replay (Option Datum)
  | .expr e => do
    let _ ← e.eval call
    return none
  | .declare _ name init => do
    let datum ← init.eval call
    modify (·.define name datum)
    return none
  | .ret e => do
    return some (← e.eval call)
  | .nested body => Replay.inScope (Block.exec call body)
termination_by structural s => s

/-- Run statements in turn, up to the first `return`. -/
def Block.exec (call : StaticCalls) : List Stmt → Replay (Option Datum)
  | [] => return none
  | s :: rest => do
    match ← s.exec call with
    | some datum => return some datum
    | none => Block.exec call rest
termination_by structural body => body

end

/-- The bodies of generated methods by class and name. -/
abbrev Methods := Table (ClassName × String) Block

/-- The most calls of generated methods that may wait for an answer at the same time. -/
def maxCalls : Nat := 64

/-- A static call: a collection factory, or else a generated method, which takes no arguments and
is run by `run`. -/
def staticCall (methods : Methods) (run : ClassName → String → Block → Replay Datum) :
    StaticCalls := fun owner name data =>
  let args : Arguments := { method := name, data }
  match Api.Factory.of? owner name with
  | some factory => Replay.ofExcept (factory.build args)
  | none =>
    match Table.get? methods (owner, name) with
    | none => throw (.unknownStaticCall owner.text name)
    | some body => do
      Replay.ofExcept (args.expect 0)
      run owner name body

/-- The name of a method with its class. -/
def qualifiedName (owner : ClassName) (name : String) : String :=
  owner.text ++ "." ++ name

/-- Run the body of a generated method, where so many nested calls are still allowed. -/
def runMethod (methods : Methods) : Nat → ClassName → String → Block → Replay Datum
  | 0, _, _, _ => throw (.recursionLimit maxCalls)
  | n + 1, owner, name, body => do
    match ← Replay.inCall (Block.exec (staticCall methods (runMethod methods n)) body) with
    | some datum => return datum
    | none => throw (.missingReturn (qualifiedName owner name))

/-- The meaning of static calls where some calls already wait for an answer. -/
def staticCallsAt (methods : Methods) (waiting : Nat) : StaticCalls :=
  staticCall methods (runMethod methods (maxCalls - waiting))

namespace Replay

/-- Evaluate an expression with generated methods. -/
def eval (methods : Methods) (e : Expr) : Replay Datum := do
  e.eval (staticCallsAt methods (← get).callers.length)

/-- Run statements with generated methods. -/
def exec (methods : Methods) (block : Block) : Replay (Option Datum) := do
  Block.exec (staticCallsAt methods (← get).callers.length) block

end Replay

/-- Run a script on a fresh definition, which the receiver variable denotes, and answer with what
has become of it. -/
def execute (methods : Methods) (block : Block) (receiver : String) : Except Fault Definition :=
  let (id, m) := ({} : Machine).addDefinition {}
  match Replay.exec methods block (m.define receiver (.definition id)) with
  | (.ok _, m) => .ok (m.definition id)
  | (.error fault, _) => .error fault

/-- Run a generated method by itself and answer with the definition that it returns. -/
def Methods.build (methods : Methods) (owner : ClassName) (name : String) :
    Except Fault Definition :=
  match Table.get? methods (owner, name) with
  | none => .error (.unknownStaticCall owner.text name)
  | some body =>
    match Replay.exec methods body {} with
    | (.ok (some (.definition id)), m) => .ok (m.definition id)
    | (.ok _, _) => .error (.missingReturn (qualifiedName owner name))
    | (.error fault, _) => .error fault

end BeanScript
