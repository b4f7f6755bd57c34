import BeanScript.Proofs.Replay.Environments
import BeanScript.Replay.InPlace

/-!
# Calls on objects are atomic

A call on an object fails and leaves the machine as it was, or it succeeds and changes the object it
is called on and nothing else. What makes it so is the order inside the methods: all checks come
before the only change, and nothing that comes after the change can fail. A single method that
changed its object between two checks would leave a definition half changed.

So atomicity is shown of the methods as sequences of effects, by rules that follow these sequences,
and the calls that decide first and change afterwards are shown to be the same computations.

## Main definitions

* `Machine.AgreesBut` — two machines differ at most in the contents of one object
* `Replay.Atomic` — all or nothing, and nothing but one object
* `Replay.carryOut` — the computation that an outcome stands for

## Main results

* `Replay.Atomic.check`, `Replay.Atomic.change` — a check before an atomic computation, and a change
  as the last thing that may have an effect
* `Replay.callInPlace_atomic` — calls that change their object on the way
* `Replay.callInPlace_eq` — deciding first comes to the same
* `Replay.instanceCall_atomic` — calls on objects
-/

namespace BeanScript

variable {α β : Type} {target : Option Object}

/-! ### All but one object -/

/-- The object that a change is made to. -/
def Change.object : Change → Object
  | .definition id _ => .definition id
  | .qualifier id _ _ => .qualifier id

/-- The second machine is the first, up to the contents of one object if there is a target. -/
structure Machine.AgreesBut (target : Option Object) (m m' : Machine) : Prop where
  environment : m'.environment = m.environment
  definitionCount : m'.definitions.length = m.definitions.length
  qualifierCount : m'.qualifiers.length = m.qualifiers.length
  definition : ∀ id : DefinitionRef, target ≠ some (.definition id) →
    m'.definitions[id.index]? = m.definitions[id.index]?
  qualifier : ∀ id : QualifierRef, target ≠ some (.qualifier id) →
    m'.qualifiers[id.index]? = m.qualifiers[id.index]?

namespace Machine

theorem AgreesBut.refl (m : Machine) : m.AgreesBut target m :=
  ⟨rfl, rfl, rfl, fun _ _ => rfl, fun _ _ => rfl⟩

/-- A change leaves alone what it is not made to. -/
theorem agreesBut_change (m : Machine) (c : Change) :
    m.AgreesBut (some c.object) (m.change c) := by
  cases c with
  | definition target edit =>
    refine ⟨rfl, List.length_modify _ _ _, rfl, fun id hid => ?_, fun _ _ => rfl⟩
    have hne : target.index ≠ id.index := fun h =>
      hid (congrArg (fun i => some (Object.definition ⟨i⟩)) h)
    exact List.getElem?_modify_ne _ _ hne
  | qualifier target key v =>
    refine ⟨rfl, rfl, List.length_modify _ _ _, fun _ _ => rfl, fun id hid => ?_⟩
    have hne : target.index ≠ id.index := fun h =>
      hid (congrArg (fun i => some (Object.qualifier ⟨i⟩)) h)
    exact List.getElem?_modify_ne _ _ hne

end Machine

namespace Replay

/-! ### Atomic computations -/

/-- A computation that fails has done nothing, and one that succeeds has changed at most the
target. -/
def Atomic (target : Option Object) (c : Replay α) : Prop :=
  ∀ m, match c m with
    | (.error _, m') => m' = m
    | (.ok _, m') => m.AgreesBut target m'

namespace Atomic

theorem pure (a : α) : Atomic target (Pure.pure a : Replay α) := fun m => .refl m

theorem throw (f : Fault) : Atomic target (MonadExcept.throw f : Replay α) := fun _ => rfl

/-- Before an atomic computation there may be anything that has no effect, also where it fails. -/
theorem check {c : Replay α} {next : α → Replay β} (hc : Preserves id c)
    (hnext : ∀ a, Atomic target (next a)) : Atomic target (c >>= next) := by
  intro m
  have hm := hc m
  rw [bind_run]
  rcases hrun : c m with ⟨f | a, m'⟩
  · rw [hrun] at hm
    exact hm
  · rw [hrun] at hm
    obtain rfl : m' = m := hm
    exact hnext a m'

/-- After a change there may be an answer, but nothing that could fail. -/
theorem change (c : Change) (a : α) :
    Atomic (some c.object) (Replay.change c >>= fun _ => Pure.pure a) := fun m =>
  m.agreesBut_change c

end Atomic

/-! ### The methods -/

section Methods

variable (id : DefinitionRef) (args : Arguments)

theorem setOne_atomic (read : Arguments → Nat → Except Fault α) (edit : α → Edit) :
    Atomic (some (.definition id)) (setOne id args read edit) :=
  .check (.ofExcept _) fun _ => .check (.ofExcept _) fun _ => .change (.definition id _) _

theorem setAll_atomic (edit : List String → Edit) :
    Atomic (some (.definition id)) (setAll id args edit) :=
  .check (.ofExcept _) fun _ => .change (.definition id _) _

theorem onDefinition_atomic (method : Api.DefinitionMethod) :
    Atomic (some (.definition id)) (onDefinition id args method) := by
  cases method with
  | getPropertyValues => exact .check (.ofExcept _) fun _ => .pure _
  | getConstructorArgumentValues => exact .check (.ofExcept _) fun _ => .pure _
  | addQualifier =>
    refine .check (.ofExcept _) fun _ => .check (.ofExcept _) fun datum => ?_
    cases datum with
    | qualifier q => exact .check .get fun _ => .change (.definition id _) _
    | _ => exact .throw _
  | setAttribute =>
    exact .check (.ofExcept _) fun _ => .check (.ofExcept _) fun _ => .check (.ofExcept _) fun _ =>
      .change (.definition id _) _
  | setDependsOn | setInitMethodNames | setDestroyMethodNames => exact setAll_atomic id args _
  | _ => exact setOne_atomic id args _ _

theorem onProperties_atomic : Atomic (some (.definition id)) (onProperties id args) :=
  .check (.ofExcept _) fun _ => .check (.ofExcept _) fun _ => .check (.ofExcept _) fun _ =>
    .change (.definition id _) _

theorem onArguments_atomic (method : Api.ArgumentsMethod) :
    Atomic (some (.definition id)) (onArguments id args method) := by
  cases method with
  | addIndexedArgumentValue =>
    exact .check (.ofExcept _) fun _ => .check (.ofExcept _) fun _ => .check (.ofExcept _) fun _ =>
      .change (.definition id _) _
  | addGenericArgumentValue =>
    exact .check (.ofExcept _) fun _ => .check (.ofExcept _) fun _ => .change (.definition id _) _

theorem onQualifier_atomic (id : QualifierRef) :
    Atomic (some (.qualifier id)) (onQualifier id args) :=
  .check (.ofExcept _) fun _ => .check (.ofExcept _) fun _ => .check (.ofExcept _) fun _ =>
    .change (.qualifier id _ _) _

end Methods

/-- A call is atomic, and its target is the object that its receiver refers to. -/
theorem callInPlace_atomic (receiver : Datum) (name : String) (data : List Datum) :
    Atomic receiver.object? (callInPlace receiver name data) := by
  unfold callInPlace
  cases receiver with
  | definition id =>
    dsimp only
    cases Api.DefinitionMethod.ofName? name with
    | none => exact .throw _
    | some method => exact onDefinition_atomic id _ method
  | properties id =>
    dsimp only
    cases Api.PropertiesMethod.ofName? name with
    | none => exact .throw _
    | some method => exact onProperties_atomic id _
  | arguments id =>
    dsimp only
    cases Api.ArgumentsMethod.ofName? name with
    | none => exact .throw _
    | some method => exact onArguments_atomic id _ method
  | qualifier id =>
    dsimp only
    cases Api.QualifierMethod.ofName? name with
    | none => exact .throw _
    | some method => exact onQualifier_atomic _ id
  | _ => exact .throw _

/-! ### Deciding first -/

/-- Fail or make the change of an outcome, and give its answer. -/
def carryOut (r : Except Fault Outcome) : Replay Datum := do
  let outcome ← ofExcept r
  match outcome.change with
  | some c => change c
  | none => pure ()
  return outcome.answer

/-- A call on an object is carried out as it was decided, at the machine it was decided at. -/
theorem callOn_run (receiver : Datum) (name : String) (data : List Datum) (m : Machine) :
    callOn receiver name data m = carryOut (instanceCall m receiver name data) m := rfl

/-- Nothing is lost when a check is made right away: it does not touch the machine. -/
theorem carryOut_bind (r : Except Fault α) (f : α → Except Fault Outcome) :
    carryOut (r >>= f) = ofExcept r >>= fun a => carryOut (f a) := by
  funext m
  rw [bind_run, ofExcept_run]
  cases r <;> rfl

theorem carryOut_change (answer : Datum) (c : Change) :
    carryOut (Pure.pure { answer, change := some c })
      = change c >>= fun _ => Pure.pure answer := rfl

/-- What follows a check runs at the same machine as the check. -/
theorem ofExcept_bind_congr {r : Except Fault α} {f g : α → Replay β} {m : Machine}
    (h : ∀ a, f a m = g a m) : (ofExcept r >>= f) m = (ofExcept r >>= g) m := by
  rw [bind_run, bind_run, ofExcept_run]
  cases r with
  | error fault => rfl
  | ok a => exact h a

theorem carryOut_callDefinition (m : Machine) (id : DefinitionRef) (args : Arguments)
    (method : Api.DefinitionMethod) :
    carryOut (callDefinition m id method args) m = onDefinition id args method m := by
  cases method with
  | getPropertyValues => exact congrFun (carryOut_bind _ _) m
  | getConstructorArgumentValues => exact congrFun (carryOut_bind _ _) m
  | addQualifier =>
    -- the checks leave the machine alone, so the qualifier is the same before and after them
    simp only [callDefinition, Api.DefinitionMethod.edit?, onDefinition, carryOut_bind]
    refine ofExcept_bind_congr fun _ => ofExcept_bind_congr fun datum => ?_
    cases datum <;> rfl
  | _ =>
    simp only [callDefinition, Api.DefinitionMethod.edit?, onDefinition, setOne, setAll, bind_assoc,
      pure_bind, carryOut_bind, carryOut_change]

theorem carryOut_callProperties (id : DefinitionRef) (args : Arguments) :
    carryOut (callProperties id args) = onProperties id args := by
  simp only [callProperties, onProperties, carryOut_bind, carryOut_change]

theorem carryOut_callArguments (id : DefinitionRef) (args : Arguments)
    (method : Api.ArgumentsMethod) :
    carryOut (callArguments id method args) = onArguments id args method := by
  cases method <;> simp only [callArguments, onArguments, carryOut_bind, carryOut_change]

theorem carryOut_callQualifier (id : QualifierRef) (args : Arguments) :
    carryOut (callQualifier id args) = onQualifier id args := by
  simp only [callQualifier, onQualifier, carryOut_bind, carryOut_change]

/-- Deciding first and changing afterwards is the same as changing on the way. -/
theorem callInPlace_eq (receiver : Datum) (name : String) (data : List Datum) :
    callInPlace receiver name data = callOn receiver name data := by
  funext m
  rw [callOn_run]
  unfold callInPlace instanceCall
  cases receiver with
  | definition id =>
    dsimp only
    cases Api.DefinitionMethod.ofName? name with
    | none => rfl
    | some method => exact (carryOut_callDefinition m id _ method).symm
  | properties id =>
    dsimp only
    cases Api.PropertiesMethod.ofName? name with
    | none => rfl
    | some method => exact congrFun (carryOut_callProperties id _).symm m
  | arguments id =>
    dsimp only
    cases Api.ArgumentsMethod.ofName? name with
    | none => rfl
    | some method => exact congrFun (carryOut_callArguments id _ method).symm m
  | qualifier id =>
    dsimp only
    cases Api.QualifierMethod.ofName? name with
    | none => rfl
    | some method => exact congrFun (carryOut_callQualifier id _).symm m
  | _ => rfl

/-- **Calls on objects are atomic and local.** A call comes to the same whether it decides first or
changes its object on the way. Where it fails, the machine is the one before it: all objects, all
variables, and those that wait for calls in progress. Where it succeeds there are as many objects as
before, the variables are the same, and no object differs but the one that the receiver refers to,
which is its definition for property values and constructor arguments. -/
theorem instanceCall_atomic (receiver : Datum) (name : String) (data : List Datum) (m : Machine) :
    callInPlace receiver name data m = callOn receiver name data m ∧
    (∀ fault m', callOn receiver name data m = (.error fault, m') → m' = m) ∧
    ∀ answer m', callOn receiver name data m = (.ok answer, m') →
      m.AgreesBut receiver.object? m' := by
  have hatomic := callInPlace_atomic receiver name data m
  rw [callInPlace_eq] at hatomic ⊢
  refine ⟨rfl, fun fault m' hrun => ?_, fun answer m' hrun => ?_⟩
  · rw [hrun] at hatomic
    exact hatomic
  · rw [hrun] at hatomic
    exact hatomic

end Replay

end BeanScript
