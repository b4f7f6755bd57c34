import BeanScript.Bean.Edit
import BeanScript.Replay.Fault
import BeanScript.Replay.Scopes

/-!
# The state of a replay

Replay works on a machine: the variables in scope, the variables of the calls that wait for an
answer, and the objects created so far. A fault leaves the machine as it is at that moment, so that
the changes made before it can be seen.

## Main definitions

* `Machine`, `Replay` — the state, and computations on it that may fail
* `Machine.definition`, `Machine.qualifier` — the objects behind references
* `Change`, `Machine.change` — changes to one object
* `Replay.inScope`, `Replay.inCall` — computations in variables of their own

## Main results

* `Replay.bind_run` and its companions — computations as functions on machines
-/

namespace BeanScript

/-- The state of a replay. -/
structure Machine where
  scopes : Scopes := {}
  /-- The variables of the calls that wait for an answer, the latest first. -/
  callers : List Scopes := []
  definitions : List Definition := []
  qualifiers : List Qualifier := []

/-- A change to one object. -/
inductive Change
  | definition (id : DefinitionRef) (edit : Edit)
  | qualifier (id : QualifierRef) (key : String) (value : Value)

namespace Machine

/-- The definition behind a reference. -/
def definition (m : Machine) (id : DefinitionRef) : Definition :=
  m.definitions[id.index]?.getD {}

/-- The qualifier behind a reference. -/
def qualifier (m : Machine) (id : QualifierRef) : Qualifier :=
  m.qualifiers[id.index]?.getD { typeName := "" }

/-- Create a definition; the answer refers to it. -/
def addDefinition (m : Machine) (d : Definition) : DefinitionRef × Machine :=
  (⟨m.definitions.length⟩, { m with definitions := m.definitions ++ [d] })

/-- Create a qualifier; the answer refers to it. -/
def addQualifier (m : Machine) (q : Qualifier) : QualifierRef × Machine :=
  (⟨m.qualifiers.length⟩, { m with qualifiers := m.qualifiers ++ [q] })

/-- Change one object. -/
def change (m : Machine) : Change → Machine
  | .definition id edit =>
    { m with definitions := m.definitions.modify id.index (·.apply edit) }
  | .qualifier id key v =>
    { m with qualifiers := m.qualifiers.modify id.index (·.setAttribute key v) }

/-- Define a variable in the innermost scope. -/
def define (m : Machine) (name : String) (datum : Datum) : Machine :=
  { m with scopes := m.scopes.define name datum }

/-- What a datum becomes as an argument: a definition is handed over as a value, so it is copied. -/
def toArgument (m : Machine) : Datum → Datum
  | .definition id => .value (.bean (m.definition id))
  | other => other

end Machine

/-- A computation on a machine that may fail. -/
abbrev Replay := ExceptT Fault (StateM Machine)

namespace Replay

/-- A computation that does not touch the machine. -/
def ofExcept (result : Except Fault α) : Replay α :=
  ExceptT.mk (pure result)

/-! ### What a computation does to a machine -/

theorem pure_run (a : α) (m : Machine) : (pure a : Replay α) m = (.ok a, m) := rfl

theorem throw_run (fault : Fault) (m : Machine) :
    (throw fault : Replay α) m = (.error fault, m) := rfl

theorem get_run (m : Machine) : (get : Replay Machine) m = (.ok m, m) := rfl

theorem modify_run (f : Machine → Machine) (m : Machine) :
    (modify f : Replay PUnit) m = (.ok ⟨⟩, f m) := rfl

theorem ofExcept_run (result : Except Fault α) (m : Machine) :
    (ofExcept result : Replay α) m = (result, m) := rfl

/-- A fault ends a sequence of computations; the machine stays as the fault has left it. -/
theorem bind_run (first : Replay α) (next : α → Replay β) (m : Machine) :
    (first >>= next) m = match first m with
      | (.ok a, m) => next a m
      | (.error fault, m) => (.error fault, m) := by
  rcases h : first m with ⟨_ | _, _⟩ <;>
    simp [bind, ExceptT.bind, ExceptT.mk, ExceptT.bindCont, StateT.bind, h]
  rfl

/-- Create a definition. -/
def newDefinition (d : Definition) : Replay DefinitionRef :=
  modifyGet (·.addDefinition d)

/-- Create a qualifier. -/
def newQualifier (q : Qualifier) : Replay QualifierRef :=
  modifyGet (·.addQualifier q)

/-- Run in a nested scope, which is closed whatever happens. -/
def inScope (body : Replay α) : Replay α := fun m =>
  let (result, m) := body { m with scopes := m.scopes.enter }
  (result, { m with scopes := m.scopes.leave })

/-- Run with fresh variables, while those of the caller wait; they are back whatever happens. -/
def inCall (body : Replay α) : Replay α := fun caller =>
  let (result, m) :=
    body { caller with scopes := {}, callers := caller.scopes :: caller.callers }
  (result, { m with scopes := caller.scopes, callers := caller.callers })

end Replay

end BeanScript
