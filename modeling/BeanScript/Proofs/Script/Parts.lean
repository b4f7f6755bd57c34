import BeanScript.Proofs.Replay.Values
import BeanScript.Script.Statements

/-!
# The parts of a definition

After the settings, a script has one statement for each argument, property, attribute and qualifier
of the definition. These *parts* differ in the statement that is made of them, but not in how it is
made: the values of the part are written in turn, and the statement is put together from their
expressions. Everything else about statements follows from this form.

## Main definitions

* `Part`, `Definition.parts` — the parts, in the order of their statements
* `Part.values`, `Part.statement` — the values of a part, the statement made of their expressions
* `Script.Context.write` — the statement of a part

## Main results

* `Script.Context.statements_eq` — a script consists of settings, parts and lifecycle methods
* `Script.Context.write_eq` — the statement of a part, from its values
-/

namespace BeanScript

namespace Qualifier

/-- The primary value, where there is one, under its key. -/
def primary (q : Qualifier) : List (String × Value) :=
  q.value?.toList.map (valueKey, ·)

/-- The attributes besides the primary value. -/
def further (q : Qualifier) : List (String × Value) :=
  q.attributes.filter (·.1 ≠ valueKey)

/-- The attributes in the order in which they are written: the primary value comes first. -/
def inOrder (q : Qualifier) : List (String × Value) :=
  q.primary ++ q.further

end Qualifier

/-- A part of a definition that is written by one statement. -/
inductive Part
  | indexed (index : Nat) (argument : Holder)
  | generic (number : Nat) (argument : Holder)
  | property (name : String) (value : Value)
  | metadata (key : String) (value : Value)
  | qualifier (q : Qualifier)

/-- The parts of a definition without the attributes that `keep` rejects, in the order of their
statements. -/
def Definition.parts (keep : KeyFilter) (d : Definition) : List Part :=
  d.indexed.map (fun a => .indexed a.1 a.2) ++ d.generic.zipIdx.map (fun a => .generic a.2 a.1) ++
    d.properties.map (fun e => .property e.1 e.2) ++
    (d.attributes.filter fun e => keep e.1).map (fun e => .metadata e.1 e.2) ++
    d.qualifierList.map .qualifier

namespace Part

/-- The values of a part in the order in which they are written, each with the name of its
position. -/
def values : Part → List (String × Value)
  | .indexed index argument => [(NestedMethods.indexedPosition index, argument.value)]
  | .generic number argument => [(NestedMethods.genericPosition number argument, argument.value)]
  | .property name value => [(name, value)]
  | .metadata key value => [(key, value)]
  | .qualifier q => q.inOrder

/-- The fault of a part as such: an index that a 32-bit number cannot hold. -/
def fault? : Part → Option EncodeError
  | .indexed index _ =>
    if Script.Context.indexLimit ≤ index then
      some (.unsupportedValue (NestedMethods.indexedPosition index) "argument index")
    else none
  | _ => none

end Part

/-- An argument, from the expression of its value. -/
def Holder.expression (h : Holder) (e : Expr) : Expr :=
  if h.hasHints then
    Api.Constructor.holder.call
      [e, Script.Context.optional h.typeName, Script.Context.optional h.name]
  else e

/-- The statement that sets an attribute of the qualifier that is being built. -/
def attributeStatement (entry : String × Value) (e : Expr) : Stmt :=
  .expr (.call (.var Script.Context.qualifierLocal) Api.QualifierMethod.setAttribute.name
    [.string entry.1, e])

/-- The construction of a qualifier, from the expressions of its values. -/
def Qualifier.construction (q : Qualifier) (es : List Expr) : Expr :=
  Api.Constructor.qualifier.call (.string q.typeName :: es.take q.primary.length)

/-- The statements that set the further attributes of a qualifier, from the expressions of its
values. -/
def Qualifier.attributeStatements (q : Qualifier) (es : List Expr) : Block :=
  List.zipWith attributeStatement q.further (es.drop q.primary.length)

/-- The statement of a part, from the expressions of its values. -/
def Part.statement (c : Script.Context) : Part → List Expr → Stmt
  | .indexed index argument, es =>
    c.style.callArguments .addIndexedArgumentValue
      (.int (Int32.ofNat index) :: es.map argument.expression)
  | .generic _ argument, es =>
    c.style.callArguments .addGenericArgumentValue (es.map argument.expression)
  | .property name _, es => c.style.callProperties (c.adder name) (.string name :: es)
  | .metadata key _, es => c.style.call .setAttribute (.string key :: es)
  | .qualifier q, es =>
    if q.further.isEmpty then c.style.call .addQualifier [q.construction es]
    else .nested (.declare Api.autowireCandidateQualifier Script.Context.qualifierLocal
        (q.construction es) :: (q.attributeStatements es ++
          [c.style.call .addQualifier [.var Script.Context.qualifierLocal]]))

/-- Write the value at a position. -/
def encodeEntryAt (resolve : Resolver) (entry : String × Value) : Except EncodeError Expr :=
  entry.2.encode resolve entry.1

namespace Script.Context

/-- The statement of a part. -/
def write (c : Script.Context) : Part → Except EncodeError Stmt
  | .indexed index argument => c.addIndexed (index, argument)
  | .generic number argument => c.addGeneric (argument, number)
  | .property name value => c.addProperty (name, value)
  | .metadata key value => c.setAttribute (key, value)
  | .qualifier q => c.addQualifier q

/-- A script consists of the statements for settings, parts and lifecycle methods. -/
theorem statements_eq (c : Script.Context) (d : Definition) :
    c.statements d = ((d.parts c.keep).mapM c.write).map fun block =>
      d.settings.statements c.style ++ block ++
        c.style.lifecycle .setInitMethodName .setInitMethodNames d.settings.initMethods ++
        c.style.lifecycle .setDestroyMethodName .setDestroyMethodNames
          d.settings.destroyMethods := by
  have hindexed : (d.indexed.map fun a => Part.indexed a.1 a.2).mapM c.write
      = d.indexed.mapM c.addIndexed := List.mapM_map
  have hgeneric : (d.generic.zipIdx.map fun a => Part.generic a.2 a.1).mapM c.write
      = d.generic.zipIdx.mapM c.addGeneric := List.mapM_map
  have hproperties : (d.properties.map fun e => Part.property e.1 e.2).mapM c.write
      = d.properties.mapM c.addProperty := List.mapM_map
  have hattributes : ((d.attributes.filter fun e => c.keep e.1).map fun e =>
        Part.metadata e.1 e.2).mapM c.write
      = (d.attributes.filter fun e => c.keep e.1).mapM c.setAttribute := List.mapM_map
  have hqualifiers : (d.qualifierList.map Part.qualifier).mapM c.write
      = d.qualifierList.mapM c.addQualifier := List.mapM_map
  rw [statements, Definition.parts, mapM_append_eq, mapM_append_eq, mapM_append_eq,
    mapM_append_eq, hindexed, hgeneric, hproperties, hattributes, hqualifiers]
  cases d.indexed.mapM c.addIndexed <;> cases d.generic.zipIdx.mapM c.addGeneric <;>
    cases d.properties.mapM c.addProperty <;>
    cases (d.attributes.filter fun e => c.keep e.1).mapM c.setAttribute <;>
    cases d.qualifierList.mapM c.addQualifier <;> simp

theorem addQualifier_eq (c : Script.Context) (q : Qualifier) :
    c.addQualifier q = (q.inOrder.mapM (encodeEntryAt c.resolve)).map
      (Part.statement c (.qualifier q)) := by
  have hconstruction : c.qualifierConstruction q
      = (q.primary.mapM (encodeEntryAt c.resolve)).map fun es =>
        Api.Constructor.qualifier.call (.string q.typeName :: es) := by
    rw [qualifierConstruction, Qualifier.primary]
    cases q.value? with
    | none => rfl
    | some v =>
      simp only [Option.toList_some, List.map_cons, List.map_nil, mapM_cons_eq, encodeEntryAt]
      cases v.encode c.resolve Qualifier.valueKey <;> rfl
  have hfurther : q.further.mapM c.setQualifierAttribute
      = (q.further.mapM (encodeEntryAt c.resolve)).map fun es =>
        List.zipWith attributeStatement q.further es := by
    rw [← mapM_map_with]
    refine mapM_congr_of_mem fun e _ => ?_
    rw [setQualifierAttribute, encodeEntryAt, map_eq_bind]
    rfl
  rw [addQualifier, hconstruction, Qualifier.inOrder, mapM_append_eq]
  cases hprimary : q.primary.mapM (encodeEntryAt c.resolve) with
  | error f => rfl
  | ok es =>
    have hlength : es.length = q.primary.length := (mapM_eq_ok_iff.mp hprimary).length_eq.symm
    have hconstruction : ∀ fs, q.construction (es ++ fs)
        = Api.Constructor.qualifier.call (.string q.typeName :: es) := fun fs => by
      rw [Qualifier.construction, ← hlength, List.take_left]
    have hattributes : ∀ fs, q.attributeStatements (es ++ fs)
        = List.zipWith attributeStatement q.further fs := fun fs => by
      rw [Qualifier.attributeStatements, ← hlength, List.drop_left]
    rw [map_ok, ok_bind, ok_bind, map_map_eq]
    simp only [Part.statement, hconstruction, hattributes]
    split
    · next hnone =>
      have hnone : q.further = [] := hnone
      rw [hnone]
      rfl
    · next further hsome =>
      have hsome : q.further ≠ [] := hsome
      have hempty : q.further.isEmpty = false := by simpa using hsome
      simp only [hempty, Bool.false_eq_true, if_false]
      change (q.further.mapM c.setQualifierAttribute >>= _) = _
      rw [hfurther]
      cases q.further.mapM (encodeEntryAt c.resolve) <;> rfl

/-- The statement of a part is made of the expressions of its values. -/
theorem write_eq (c : Script.Context) (p : Part) :
    c.write p = match p.fault? with
      | some fault => .error fault
      | none => (p.values.mapM (encodeEntryAt c.resolve)).map (p.statement c) := by
  have hholder : ∀ (position : String) (h : Holder),
      c.holder position h = (h.value.encode c.resolve position).map h.expression := by
    intro position h
    rw [holder, map_eq_bind]
    rfl
  cases p with
  | indexed index argument =>
    rw [write, addIndexed, Part.fault?, hholder]
    split
    · rfl
    · simp only [Part.values, mapM_cons_eq, encodeEntryAt]
      cases argument.value.encode c.resolve (NestedMethods.indexedPosition index) <;> rfl
  | generic number argument =>
    rw [write, addGeneric, hholder]
    simp only [Part.fault?, Part.values, mapM_cons_eq, encodeEntryAt]
    cases argument.value.encode c.resolve (NestedMethods.genericPosition number argument) <;> rfl
  | property name v =>
    rw [write, addProperty]
    simp only [Part.fault?, Part.values, mapM_cons_eq, encodeEntryAt]
    cases v.encode c.resolve name <;> rfl
  | metadata key v =>
    rw [write, setAttribute]
    simp only [Part.fault?, Part.values, mapM_cons_eq, encodeEntryAt]
    cases v.encode c.resolve key <;> rfl
  | qualifier q => exact c.addQualifier_eq q

theorem write_eq_ok_iff {c : Script.Context} {p : Part} {s : Stmt} :
    c.write p = .ok s ↔ p.fault? = none ∧
      ∃ es, p.values.mapM (encodeEntryAt c.resolve) = .ok es ∧ p.statement c es = s := by
  rw [write_eq]
  cases p.fault? <;> simp [map_eq_ok_iff]

end Script.Context

/-! ### The values of the parts -/

namespace Qualifier

theorem primary_eq (q : Qualifier) (hq : (Table.keys q.attributes).Nodup) :
    q.primary = q.attributes.filter fun e => e.1 = valueKey := by
  rw [primary, value?, attribute?]
  generalize q.attributes = es at hq
  induction es with
  | nil => rfl
  | cons e es ih =>
    obtain ⟨k, v⟩ := e
    obtain ⟨hk, hes⟩ := List.nodup_cons.mp hq
    rw [Table.get?_cons, List.filter_cons]
    by_cases hkey : k = valueKey
    · -- no other attribute has the key
      have hnone : es.filter (fun e => e.1 = valueKey) = [] := by
        refine List.filter_eq_nil_iff.mpr fun e he heq => hk ?_
        exact List.mem_map.mpr ⟨e, he, (of_decide_eq_true heq).trans hkey.symm⟩
      simp [hkey, hnone]
    · simpa [hkey] using ih hes

/-- Writing the primary value first changes only the order. -/
theorem inOrder_perm {q : Qualifier} (hq : (Table.keys q.attributes).Nodup) :
    q.inOrder.Perm q.attributes := by
  rw [inOrder, q.primary_eq hq, further]
  have hsplit := List.filter_append_perm (fun e : String × Value => e.1 = valueKey) q.attributes
  simpa using hsplit

theorem nodup_keys_inOrder {q : Qualifier} (hq : (Table.keys q.attributes).Nodup) :
    (Table.keys q.inOrder).Nodup :=
  ((inOrder_perm hq).map Prod.fst).nodup_iff.mpr hq

theorem mem_of_mem_inOrder {q : Qualifier} {e : String × Value} (h : e ∈ q.inOrder) :
    e ∈ q.attributes := by
  rcases List.mem_append.mp h with h | h
  · obtain ⟨v, hv, rfl⟩ := List.mem_map.mp h
    exact Table.mem_of_get? (Option.mem_toList.mp hv)
  · exact List.mem_of_mem_filter h

end Qualifier

namespace Definition

variable {keep : KeyFilter} {d : Definition}

/-- The parts have the values that the definition holds. -/
theorem perm_values_parts (hd : d.Distinct) :
    ((d.parts keep).flatMap Part.values).Perm (d.held keep) := by
  have hqualifiers : ((d.qualifierList.map Part.qualifier).flatMap Part.values).Perm
      (d.qualifiers.flatMap Prod.snd) := by
    rw [List.flatMap_map, qualifierList, List.flatMap_map]
    refine List.Perm.flatMap_left _ fun q hq => ?_
    exact Qualifier.inOrder_perm (hd.qualifierAttributes q hq)
  rw [parts, held]
  simp only [List.flatMap_append, List.flatMap_map, Part.values] at hqualifiers ⊢
  refine List.Perm.append ?_ hqualifiers
  refine List.Perm.of_eq ?_
  simp only [← List.map_eq_flatMap, List.map_id']

/-- The definitions nested in the parts are those nested in the definition. -/
theorem perm_beans_parts (hd : d.Distinct) :
    ((d.parts keep).flatMap fun p => p.values.flatMap fun e => e.2.beans).Perm
      (d.beans keep) := by
  rw [← List.flatMap_assoc]
  exact (perm_values_parts hd).flatMap_right _

/-- The values of a part are values that the definition holds. -/
theorem holds_of_mem_parts {p : Part} (hp : p ∈ d.parts keep) {e : String × Value}
    (he : e ∈ p.values) : d.Holds keep e.2 := by
  refine List.mem_map.mpr ⟨e, ?_, rfl⟩
  simp only [parts, List.mem_append, List.mem_map] at hp
  simp only [held, List.mem_append, List.mem_map]
  rcases hp with (((⟨a, ha, rfl⟩ | ⟨a, ha, rfl⟩) | ⟨a, ha, rfl⟩) | ⟨a, ha, rfl⟩) | ⟨q, hq, rfl⟩
  · obtain rfl := List.mem_singleton.mp he
    exact .inl (.inl (.inl (.inl ⟨a, ha, rfl⟩)))
  · obtain rfl := List.mem_singleton.mp he
    exact .inl (.inl (.inl (.inr ⟨a, ha, rfl⟩)))
  · obtain rfl := List.mem_singleton.mp he
    exact .inl (.inl (.inr ha))
  · obtain rfl := List.mem_singleton.mp he
    exact .inl (.inr ha)
  · obtain ⟨q', hq', rfl⟩ := List.mem_map.mp hq
    exact .inr (List.mem_flatMap.mpr ⟨q', hq', Qualifier.mem_of_mem_inOrder he⟩)

end Definition

end BeanScript
