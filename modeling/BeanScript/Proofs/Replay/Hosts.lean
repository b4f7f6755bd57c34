import BeanScript.Proofs.Replay.Bounds

/-!
# A machine within another one

A call runs on the machine of its caller. It starts with no variables, so all it can get hold of are
the objects that it creates. That is a machine of its own, *within* the machine of the caller: its
objects come after those of the host, so its references are counted from there, and its callers
before the host, which waits.

Everything that is done with a machine is done alike within a host. References are handed on,
looked up and changed, but nothing depends on which ones they are, and no value and no fault tells
them apart.

## Main definitions

* `Machine.within`, with `within` for references, data, variables and changes

## Main results

* `Machine.definition_within`, `Machine.change_within` and their companions — objects
* `Arguments.value_within` and its companions — reading arguments
* `instanceCall_within`, `Api.Factory.build_within` — calls
-/

namespace BeanScript

variable (host : Machine)

/-! ### References -/

/-- The reference to the same definition, counted from the objects of the host. -/
def DefinitionRef.within (id : DefinitionRef) : DefinitionRef :=
  ⟨host.definitions.length + id.index⟩

/-- The reference to the same qualifier, counted from the objects of the host. -/
def QualifierRef.within (id : QualifierRef) : QualifierRef :=
  ⟨host.qualifiers.length + id.index⟩

/-- The reference to the same object, counted from the objects of the host. -/
def Object.within : Object → Object
  | .definition id => .definition (id.within host)
  | .qualifier id => .qualifier (id.within host)

/-- The datum with its reference, where it is one, counted from the objects of the host. -/
def Datum.within : Datum → Datum
  | .value v => .value v
  | .definition id => .definition (id.within host)
  | .qualifier id => .qualifier (id.within host)
  | .properties id => .properties (id.within host)
  | .arguments id => .arguments (id.within host)
  | .holder h => .holder h
  | .entry key v => .entry key v
  | .void => .void

/-- The same variables, with their references counted from the objects of the host. -/
def Scope.within (scope : Scope) : Scope :=
  scope.map fun e => (e.1, e.2.within host)

@[inherit_doc Scope.within]
def Scopes.within (scopes : Scopes) : Scopes where
  inner := scopes.inner.within host
  outer := scopes.outer.map (Scope.within host)

/-- The same arguments, with their references counted from the objects of the host. -/
def Arguments.within (args : Arguments) : Arguments :=
  { args with data := args.data.map (Datum.within host) }

/-- The change to the same object, counted from the objects of the host. -/
def Change.within : Change → Change
  | .definition id edit => .definition (id.within host) edit
  | .qualifier id key v => .qualifier (id.within host) key v

/-- The same outcome, with its references counted from the objects of the host. -/
def Outcome.within (outcome : Outcome) : Outcome where
  answer := outcome.answer.within host
  change := outcome.change.map (Change.within host)

/-- The machine of a call that the host waits for. -/
def Machine.within (m host : Machine) : Machine where
  scopes := m.scopes.within host
  callers := m.callers.map (Scopes.within host) ++ host.scopes :: host.callers
  definitions := host.definitions ++ m.definitions
  qualifiers := host.qualifiers ++ m.qualifiers

variable {host} {m : Machine}

/-! ### Data -/

theorem Datum.object?_within (datum : Datum) :
    (datum.within host).object? = datum.object?.map (Object.within host) := by
  cases datum <;> rfl

/-- A datum without a reference is the same everywhere. -/
theorem Datum.within_of_none {datum : Datum} (h : datum.object? = none) :
    datum.within host = datum := by
  cases datum <;> first | rfl | cases h

/-! ### Variables -/

namespace Scopes

theorem lookUp?_within (scopes : Scopes) (name : String) :
    (scopes.within host).lookUp? name = (scopes.lookUp? name).map (Datum.within host) := by
  have hscope : ∀ scope : Scope, Table.get? (scope.within host) name
      = (Table.get? scope name).map (Datum.within host) := fun scope =>
    Table.get?_map scope (Datum.within host) name
  show (List.map (Scope.within host) (scopes.inner :: scopes.outer)).findSome?
      (fun scope => Table.get? scope name) = (scopes.lookUp? name).map (Datum.within host)
  rw [List.findSome?_map, lookUp?, List.map_findSome?]
  exact congrArg (fun get => (scopes.inner :: scopes.outer).findSome? get) (funext hscope)

theorem define_within (scopes : Scopes) (name : String) (datum : Datum) :
    (scopes.within host).define name (datum.within host)
      = (scopes.define name datum).within host := by
  have hput : ∀ scope : Scope, Table.put (scope.within host) name (datum.within host)
      = Scope.within host (Table.put scope name datum) := by
    intro scope
    induction scope with
    | nil => rfl
    | cons e scope ih =>
      obtain ⟨key, d⟩ := e
      show Table.put ((key, d.within host) :: Scope.within host scope) name (datum.within host) = _
      rw [Table.put_cons, Table.put_cons, ih]
      split <;> rfl
  rw [define, define, within, within, hput]

theorem leave_within (scopes : Scopes) :
    (scopes.within host).leave = scopes.leave.within host := by
  obtain ⟨inner, _ | ⟨scope, rest⟩⟩ := scopes <;> rfl

end Scopes

/-! ### Objects -/

namespace Machine

theorem definition_within (m : Machine) (id : DefinitionRef) :
    (m.within host).definition (id.within host) = m.definition id := by
  show ((host.definitions ++ m.definitions)[host.definitions.length + id.index]?).getD {} = _
  rw [List.getElem?_append_right (Nat.le_add_right _ _), Nat.add_sub_cancel_left]
  rfl

theorem qualifier_within (m : Machine) (id : QualifierRef) :
    (m.within host).qualifier (id.within host) = m.qualifier id := by
  show ((host.qualifiers ++ m.qualifiers)[host.qualifiers.length + id.index]?).getD _ = _
  rw [List.getElem?_append_right (Nat.le_add_right _ _), Nat.add_sub_cancel_left]
  rfl

theorem has_within {object : Object} (h : m.Has object) (host : Machine) :
    (m.within host).Has (object.within host) := by
  cases object with
  | definition id =>
    show host.definitions.length + id.index < (host.definitions ++ m.definitions).length
    rw [List.length_append]
    exact Nat.add_lt_add_left h _
  | qualifier id =>
    show host.qualifiers.length + id.index < (host.qualifiers ++ m.qualifiers).length
    rw [List.length_append]
    exact Nat.add_lt_add_left h _

/-- The host has none of the objects of a machine within it. -/
theorem not_has_within (object : Object) : ¬ host.Has (object.within host) := by
  cases object with
  | definition id => exact Nat.not_lt.mpr (Nat.le_add_right _ _)
  | qualifier id => exact Nat.not_lt.mpr (Nat.le_add_right _ _)

theorem toArgument_within (m : Machine) (datum : Datum) :
    (m.within host).toArgument (datum.within host) = (m.toArgument datum).within host := by
  cases datum with
  | definition id => exact congrArg (fun d => Datum.value (.bean d)) (definition_within m id)
  | _ => rfl

theorem addDefinition_within (m : Machine) (d : Definition) :
    (m.within host).addDefinition d
      = ((m.addDefinition d).1.within host, (m.addDefinition d).2.within host) := by
  simp only [addDefinition, within, DefinitionRef.within, List.length_append, List.append_assoc]

theorem addQualifier_within (m : Machine) (q : Qualifier) :
    (m.within host).addQualifier q
      = ((m.addQualifier q).1.within host, (m.addQualifier q).2.within host) := by
  simp only [addQualifier, within, QualifierRef.within, List.length_append, List.append_assoc]

theorem change_within (m : Machine) (change : Change) :
    (m.within host).change (change.within host) = (m.change change).within host := by
  cases change with
  | definition id edit =>
    have hmodify : (host.definitions ++ m.definitions).modify
        (host.definitions.length + id.index) (·.apply edit)
          = host.definitions ++ m.definitions.modify id.index (·.apply edit) :=
      List.modifyTailIdx_add _ _ _ _
    exact congrArg (fun ds => { m.within host with definitions := ds }) hmodify
  | qualifier id key v =>
    have hmodify : (host.qualifiers ++ m.qualifiers).modify
        (host.qualifiers.length + id.index) (·.setAttribute key v)
          = host.qualifiers ++ m.qualifiers.modify id.index (·.setAttribute key v) :=
      List.modifyTailIdx_add _ _ _ _
    exact congrArg (fun qs => { m.within host with qualifiers := qs }) hmodify

theorem define_within (m : Machine) (name : String) (datum : Datum) :
    (m.within host).define name (datum.within host) = (m.define name datum).within host :=
  congrArg (fun scopes => { m.within host with scopes := scopes })
    (m.scopes.define_within name datum)

theorem leaveScope_within (m : Machine) :
    (m.within host).leaveScope = m.leaveScope.within host :=
  congrArg (fun scopes => { m.within host with scopes := scopes }) m.scopes.leave_within

/-- A call begins on a machine without anything, within that of its caller. -/
theorem enterCall_eq_within (m : Machine) : m.enterCall = ({} : Machine).within m := by
  simp only [enterCall, within, List.append_nil]
  rfl

end Machine

/-! ### Reading arguments -/

namespace Arguments

variable (args : Arguments) (i : Nat)

theorem length_within : (args.within host).data.length = args.data.length :=
  List.length_map _

theorem datum_within : (args.within host).datum i = (args.datum i).map (Datum.within host) := by
  rw [datum, datum, length_within, within, List.getElem?_map]
  cases args.data[i]? <;> rfl

theorem expect_within (count : Nat) : (args.within host).expect count = args.expect count := by
  rw [expect, expect, length_within]
  rfl

/-- What is read off an argument is the same when it does not depend on references. -/
theorem bind_datum_within {α : Type} {read read' : Datum → Except Fault α}
    (h : ∀ d, read (d.within host) = read' d) :
    ((args.within host).datum i >>= read) = (args.datum i >>= read') := by
  rw [datum_within]
  cases args.datum i with
  | error f => rfl
  | ok d => exact h d

theorem value_within : (args.within host).value i = args.value i :=
  args.bind_datum_within i fun d => by cases d <;> rfl

theorem string_within : (args.within host).string i = args.string i :=
  args.bind_datum_within i fun d => by cases d <;> rfl

theorem string?_within : (args.within host).string? i = args.string? i :=
  args.bind_datum_within i fun d => by cases d <;> rfl

theorem bool_within : (args.within host).bool i = args.bool i :=
  args.bind_datum_within i fun d => by cases d <;> rfl

theorem int_within : (args.within host).int i = args.int i :=
  args.bind_datum_within i fun d => by cases d <;> rfl

theorem classObject_within : (args.within host).classObject i = args.classObject i :=
  args.bind_datum_within i fun d => by cases d <;> rfl

theorem entry_within : (args.within host).entry i = args.entry i :=
  args.bind_datum_within i fun d => by cases d <;> rfl

theorem holder_within : (args.within host).holder i = args.holder i := by
  rw [holder, holder, value_within]
  exact args.bind_datum_within i fun d => by cases d <;> rfl

theorem index_within : (args.within host).index i = args.index i := by
  rw [index, index, int_within]
  rfl

theorem all_within {α : Type} {read : Arguments → Nat → Except Fault α}
    (h : ∀ i, read (args.within host) i = read args i) :
    (args.within host).all read = args.all read := by
  rw [all, all, length_within]
  exact congrArg (fun read => (List.range args.data.length).mapM read) (funext h)

theorem values_within :
    (args.within host).all Arguments.value = args.all Arguments.value :=
  args.all_within args.value_within

theorem strings_within :
    (args.within host).all Arguments.string = args.all Arguments.string :=
  args.all_within args.string_within

theorem entries_within :
    (args.within host).all Arguments.entry = args.all Arguments.entry :=
  args.all_within args.entry_within

end Arguments

/-! ### Calls -/

section Calls

variable (args : Arguments)

theorem asksForParent_within : asksForParent (args.within host) = asksForParent args := by
  rw [asksForParent, asksForParent, Arguments.within, ← List.map_reverse]
  rcases args.data.reverse with _ | ⟨d, _ | ⟨e, ds⟩⟩
  · rfl
  · cases d <;> rfl
  · cases d with
    | value v =>
      rcases v with ⟨⟨_ | b | _⟩ | _⟩ <;> first | rfl | cases b <;> rfl
    | _ => rfl

theorem designatedBean_within (count : Nat) :
    designatedBean (args.within host) count = designatedBean args count := by
  unfold designatedBean
  split
  · exact args.bind_datum_within 0 fun d => by cases d <;> rfl
  · simp only [Arguments.string_within, Arguments.classObject_within]
  · rfl

theorem beanReference_within : beanReference (args.within host) = beanReference args := by
  simp only [beanReference, asksForParent_within, designatedBean_within, Arguments.length_within]

theorem newQualifier_within : newQualifier (args.within host) = newQualifier args := by
  simp only [newQualifier, Arguments.length_within, Arguments.string_within,
    Arguments.value_within]
  rfl

theorem newHolder_within : newHolder (args.within host) = newHolder args := by
  simp only [newHolder, Arguments.expect_within, Arguments.value_within,
    Arguments.string?_within]

theorem newDefinition_within : newDefinition (args.within host) = newDefinition args := by
  simp only [newDefinition, Arguments.length_within, Arguments.classObject_within]
  rfl

/-- A factory makes a value or a map entry, so nothing has to be counted anew. -/
theorem Api.Factory.build_within (f : Api.Factory) :
    f.build (args.within host) = (f.build args).map (Datum.within host) := by
  have hsame : f.build (args.within host) = f.build args := by
    cases f <;> simp only [build, Arguments.expect_within, Arguments.value_within,
      Arguments.values_within, Arguments.entries_within]
  rw [hsame]
  cases hbuild : f.build args with
  | error fault => rfl
  | ok datum => exact congrArg Except.ok (Datum.within_of_none (object?_build hbuild)).symm

theorem Api.DefinitionMethod.edit?_within (method : Api.DefinitionMethod) :
    method.edit? (args.within host) = method.edit? args := by
  cases method <;> simp only [edit?, Arguments.expect_within, Arguments.bool_within,
    Arguments.string_within, Arguments.int_within, Arguments.value_within,
    Arguments.classObject_within, Arguments.strings_within]

/-- An outcome after something that is the same within a host. -/
theorem bind_outcome_within {α : Type} {r : Except Fault α} {next next' : α → Except Fault Outcome}
    (h : ∀ a, next a = (next' a).map (Outcome.within host)) :
    (r >>= next) = (r >>= next').map (Outcome.within host) := by
  cases r with
  | error f => rfl
  | ok a => exact h a

theorem callDefinition_within (m : Machine) (id : DefinitionRef) (method : Api.DefinitionMethod) :
    callDefinition (m.within host) (id.within host) method (args.within host)
      = (callDefinition m id method args).map (Outcome.within host) := by
  unfold callDefinition
  rw [method.edit?_within]
  split
  · exact bind_outcome_within fun edit => rfl
  · rw [Arguments.expect_within]
    exact bind_outcome_within fun _ => rfl
  · rw [Arguments.expect_within]
    exact bind_outcome_within fun _ => rfl
  · rw [Arguments.expect_within, Arguments.datum_within]
    refine bind_outcome_within fun _ => ?_
    rcases args.datum 0 with f | d
    · rfl
    · cases d with
      | qualifier q =>
        -- the definition gets a copy of the qualifier as it is now
        show Except.ok _ = Except.ok _
        rw [Machine.qualifier_within m q]
        rfl
      | _ => rfl

theorem callProperties_within (id : DefinitionRef) :
    callProperties (id.within host) (args.within host)
      = (callProperties id args).map (Outcome.within host) := by
  rw [callProperties, callProperties, Arguments.expect_within, Arguments.string_within,
    Arguments.value_within]
  exact bind_outcome_within fun _ => bind_outcome_within fun _ => bind_outcome_within fun _ => rfl

theorem callArguments_within (id : DefinitionRef) (method : Api.ArgumentsMethod) :
    callArguments (id.within host) method (args.within host)
      = (callArguments id method args).map (Outcome.within host) := by
  cases method with
  | addIndexedArgumentValue =>
    rw [callArguments, callArguments, Arguments.expect_within, Arguments.index_within,
      Arguments.holder_within]
    exact bind_outcome_within fun _ => bind_outcome_within fun _ => bind_outcome_within fun _ => rfl
  | addGenericArgumentValue =>
    rw [callArguments, callArguments, Arguments.expect_within, Arguments.holder_within]
    exact bind_outcome_within fun _ => bind_outcome_within fun _ => rfl

theorem callQualifier_within (id : QualifierRef) :
    callQualifier (id.within host) (args.within host)
      = (callQualifier id args).map (Outcome.within host) := by
  rw [callQualifier, callQualifier, Arguments.expect_within, Arguments.string_within,
    Arguments.value_within]
  exact bind_outcome_within fun _ => bind_outcome_within fun _ => bind_outcome_within fun _ => rfl

/-- A call on an object has the same outcome within a host. -/
theorem instanceCall_within (m : Machine) (receiver : Datum) (name : String) (data : List Datum) :
    instanceCall (m.within host) (receiver.within host) name (data.map (Datum.within host))
      = (instanceCall m receiver name data).map (Outcome.within host) := by
  let args : Arguments := { method := name, data }
  unfold instanceCall
  cases receiver with
  | definition id =>
    dsimp only [Datum.within]
    cases Api.DefinitionMethod.ofName? name with
    | none => rfl
    | some method => exact callDefinition_within args m id method
  | properties id =>
    dsimp only [Datum.within]
    cases Api.PropertiesMethod.ofName? name with
    | none => rfl
    | some method => exact callProperties_within args id
  | arguments id =>
    dsimp only [Datum.within]
    cases Api.ArgumentsMethod.ofName? name with
    | none => rfl
    | some method => exact callArguments_within args id method
  | qualifier id =>
    dsimp only [Datum.within]
    cases Api.QualifierMethod.ofName? name with
    | none => rfl
    | some method => cases method; exact callQualifier_within args id
  | _ => rfl

end Calls

end BeanScript
