import BeanScript.Proofs.Bean.Equivalence
import BeanScript.Script.Statements

/-!
# Normal forms

A script cannot say everything about a definition: the scope `singleton` is the default one, an
empty list of names is no list, and a rejected attribute is not there. Nested definitions are
rebuilt in the same way, and what becomes equal by it merges in sets, maps and generic arguments.
The *normal form* of a definition is what is left of it.

## Main definitions

* `Settings.normal`, `Value.normal`, `Definition.normal`
* `Definition.withTypesOf`, `Definition.withoutTypes` — the same definition of other types

## Main results

* `Definition.normal_eq` — the normal form, part by part
* `Value.Equiv.normal`, `Definition.Equiv.normal` — equal values have equal normal forms
-/

namespace BeanScript

/-- An empty list of names is no list. -/
def normalNames (names : Option (List String)) : Option (List String) :=
  names.filter fun names => !names.isEmpty

/-- The settings without what a script cannot say. -/
def Settings.normal (s : Settings) : Settings :=
  { s with
    scope := if s.scope = singletonScope then "" else s.scope
    dependsOn := normalNames s.dependsOn
    initMethods := normalNames s.initMethods
    destroyMethods := normalNames s.destroyMethods }

mutual

/-- The normal form of a value. -/
def Value.normal (keep : KeyFilter) : Value → Value
  | .atom a => .atom a
  | .array c vs => .array c (normalElements keep vs)
  | .list k vs => .list k (normalElements keep vs)
  | .set k vs => .set k (ValueSet.ofList (normalElements keep vs))
  | .map k es => .map k (ValueMap.ofList (normalEntries keep es))
  | .bean d => .bean (Definition.normal keep d)
termination_by structural v => v

/-- The normal forms of values. -/
def normalElements (keep : KeyFilter) : List Value → List Value
  | [] => []
  | v :: vs => v.normal keep :: normalElements keep vs
termination_by structural vs => vs

/-- The normal forms of map entries. -/
def normalEntries (keep : KeyFilter) : List (Value × Value) → List (Value × Value)
  | [] => []
  | (key, v) :: es => (key.normal keep, v.normal keep) :: normalEntries keep es
termination_by structural es => es

/-- An argument with the normal form of its value. -/
def Holder.normal (keep : KeyFilter) : Holder → Holder
  | ⟨v, t, n⟩ => ⟨v.normal keep, t, n⟩
termination_by structural h => h

/-- The normal forms of positional arguments. -/
def normalIndexed (keep : KeyFilter) : List (Nat × Holder) → List (Nat × Holder)
  | [] => []
  | (i, h) :: as => (i, h.normal keep) :: normalIndexed keep as
termination_by structural as => as

/-- The normal forms of generic arguments. -/
def normalGeneric (keep : KeyFilter) : List Holder → List Holder
  | [] => []
  | h :: hs => h.normal keep :: normalGeneric keep hs
termination_by structural hs => hs

/-- The normal forms of the values in a table, as far as their keys are admitted. -/
def normalTable (keep : KeyFilter) : KeyFilter → List (String × Value) → List (String × Value)
  | _, [] => []
  | admits, (key, v) :: es =>
    if admits key then (key, v.normal keep) :: normalTable keep admits es
    else normalTable keep admits es
termination_by structural _ es => es

/-- The normal forms of qualifier attributes. -/
def normalQualifiers (keep : KeyFilter) :
    List (String × List (String × Value)) → List (String × List (String × Value))
  | [] => []
  | (t, es) :: qs => (t, normalTable keep .all es) :: normalQualifiers keep qs
termination_by structural qs => qs

/-- The normal form of a definition. -/
def Definition.normal (keep : KeyFilter) : Definition → Definition
  | ⟨settings, indexed, generic, properties, attributes, qualifiers⟩ =>
    { settings := settings.normal
      indexed := normalIndexed keep indexed
      generic := Distinct.ofList (· == ·) (normalGeneric keep generic)
      properties := normalTable keep .all properties
      attributes := normalTable keep keep attributes
      qualifiers := normalQualifiers keep qualifiers }
termination_by structural d => d

end

/-- The definition with the types of another one. -/
def Definition.withTypesOf (d other : Definition) : Definition :=
  { d with settings := { d.settings with
      targetType := other.settings.targetType
      beanClass := other.settings.beanClass } }

/-- The definition without its types. -/
def Definition.withoutTypes (d : Definition) : Definition :=
  d.withTypesOf {}

section Equations

variable {keep : KeyFilter}

theorem normalElements_eq {vs : List Value} :
    normalElements keep vs = vs.map (·.normal keep) := by
  induction vs <;> simp [normalElements, *]

theorem normalEntries_eq {es : List (Value × Value)} :
    normalEntries keep es = es.map fun e => (e.1.normal keep, e.2.normal keep) := by
  induction es <;> simp [normalEntries, *]

theorem Holder.normal_eq {h : Holder} :
    h.normal keep = { h with value := h.value.normal keep } := by
  cases h
  rfl

theorem normalIndexed_eq {as : List (Nat × Holder)} :
    normalIndexed keep as = as.map fun a => (a.1, a.2.normal keep) := by
  induction as <;> simp [normalIndexed, *]

theorem normalGeneric_eq {hs : List Holder} :
    normalGeneric keep hs = hs.map (·.normal keep) := by
  induction hs <;> simp [normalGeneric, *]

theorem normalTable_eq {admits : KeyFilter} {es : List (String × Value)} :
    normalTable keep admits es
      = (es.filter fun e => admits e.1).map fun e => (e.1, e.2.normal keep) := by
  induction es with
  | nil => rfl
  | cons e es ih =>
    obtain ⟨k, v⟩ := e
    rw [normalTable, ih, List.filter_cons]
    split <;> rfl

theorem normalTable_all {es : List (String × Value)} :
    normalTable keep .all es = es.map fun e => (e.1, e.2.normal keep) := by
  have hall : (es.filter fun e => KeyFilter.all e.1) = es := List.filter_eq_self.mpr fun _ _ => rfl
  rw [normalTable_eq, hall]

theorem normalQualifiers_eq {qs : List (String × List (String × Value))} :
    normalQualifiers keep qs = qs.map fun q => (q.1, q.2.map fun e => (e.1, e.2.normal keep)) := by
  induction qs <;> simp [normalQualifiers, normalTable_all, *]

@[simp] theorem Value.normal_atom {a : Atom} : (Value.atom a).normal keep = .atom a := rfl

@[simp] theorem Value.normal_array {c : ClassName} {vs : List Value} :
    (Value.array c vs).normal keep = .array c (vs.map (·.normal keep)) := by
  rw [Value.normal, normalElements_eq]

@[simp] theorem Value.normal_list {k : Kind} {vs : List Value} :
    (Value.list k vs).normal keep = .list k (vs.map (·.normal keep)) := by
  rw [Value.normal, normalElements_eq]

@[simp] theorem Value.normal_set {k : Kind} {vs : List Value} :
    (Value.set k vs).normal keep = .set k (ValueSet.ofList (vs.map (·.normal keep))) := by
  rw [Value.normal, normalElements_eq]

@[simp] theorem Value.normal_map {k : Kind} {es : List (Value × Value)} :
    (Value.map k es).normal keep
      = .map k (ValueMap.ofList (es.map fun e => (e.1.normal keep, e.2.normal keep))) := by
  rw [Value.normal, normalEntries_eq]

@[simp] theorem Value.normal_bean {d : Definition} :
    (Value.bean d).normal keep = .bean (d.normal keep) := rfl

/-- The normal form of a definition, part by part. -/
theorem Definition.normal_eq {d : Definition} :
    d.normal keep =
      { settings := d.settings.normal
        indexed := d.indexed.map fun a => (a.1, a.2.normal keep)
        generic := Distinct.ofList (· == ·) (d.generic.map (·.normal keep))
        properties := d.properties.map fun e => (e.1, e.2.normal keep)
        attributes := (d.attributes.filter fun e => keep e.1).map fun e => (e.1, e.2.normal keep)
        qualifiers :=
          d.qualifiers.map fun q => (q.1, q.2.map fun e => (e.1, e.2.normal keep)) } := by
  cases d
  rw [Definition.normal, normalIndexed_eq, normalGeneric_eq, normalTable_all, normalTable_eq,
    normalQualifiers_eq]

end Equations

/-! ### Equal values have equal normal forms -/

theorem Holder.Related.normal {keep : KeyFilter} {g h : Holder}
    (hgh : g.Related (fun v w => (v.normal keep).Equiv (w.normal keep)) h) :
    (g.normal keep).Related Value.Equiv (h.normal keep) := by
  rw [Holder.normal_eq, Holder.normal_eq]
  exact hgh

theorem Definition.Distinct.normal {d : Definition} (hd : d.Distinct) (keep : KeyFilter) :
    (d.normal keep).Distinct := by
  rw [Definition.normal_eq]
  refine ⟨?_, Distinct.pairwise_ofList _, ?_, ?_, ?_, ?_⟩
  · simpa [Function.comp_def] using hd.indexed
  · rw [Table.keys_map]
    exact hd.properties
  · rw [Table.keys_map]
    exact Table.nodup_keys_filter _ hd.attributes
  · rw [Table.keys_map]
    exact hd.qualifiers
  · intro q' hq'
    obtain ⟨q, hq, rfl⟩ := List.mem_map.mp hq'
    rw [Table.keys_map]
    exact hd.qualifierAttributes q hq

/-- Definitions whose values have equal normal forms have equal normal forms. -/
theorem Definition.Related.normal {keep : KeyFilter} {d e : Definition} (hd : d.Distinct)
    (he : e.Distinct) (h : d.Related (fun v w => (v.normal keep).Equiv (w.normal keep)) e) :
    (d.normal keep).Related Value.Equiv (e.normal keep) := by
  rw [Definition.normal_eq, Definition.normal_eq]
  refine ⟨congrArg Settings.normal h.settings, ?_, ?_, ?_, ?_, ?_⟩
  · exact List.forall₂_map_left_iff.mpr (List.forall₂_map_right_iff.mpr
      (h.indexed.imp fun _ _ hab => ⟨hab.1, hab.2.normal⟩))
  · exact Distinct.forall₂_ofList (fun _ _ _ _ h h' => h.beq_congr h')
      (List.forall₂_map_left_iff.mpr (List.forall₂_map_right_iff.mpr
        (h.generic.imp fun _ _ hab => hab.normal)))
  · exact h.properties.map _ _ fun _ _ hvw => hvw
  · exact (h.attributes.filter hd.attributes he.attributes keep).map _ _ fun _ _ hvw => hvw
  · exact h.qualifiers.map _ _ fun _ _ hqr => hqr.map _ _ fun _ _ hvw => hvw

/-- Equal values have equal normal forms. -/
theorem Value.Equiv.normal {v w : Value} (h : v.Equiv w) (keep : KeyFilter) :
    (v.normal keep).Equiv (w.normal keep) := by
  obtain ⟨hv, hw, hvw⟩ := h
  induction v generalizing w with
  | atom a =>
    obtain rfl := atom_beq.mp hvw
    exact .refl hv
  | array c vs ih =>
    obtain ⟨ws, rfl, hs⟩ := array_beq.mp hvw
    rw [wellFormed_array] at hv hw
    rw [normal_array, normal_array]
    exact .array c (List.forall₂_map_left_iff.mpr (List.forall₂_map_right_iff.mpr
      (forall₂_imp_of_mem hs fun v hv' w hw' => ih v hv' (hv v hv') (hw w hw'))))
  | list k vs ih =>
    obtain ⟨ws, rfl, hs⟩ := list_beq.mp hvw
    rw [wellFormed_list] at hv hw
    rw [normal_list, normal_list]
    exact .list k (List.forall₂_map_left_iff.mpr (List.forall₂_map_right_iff.mpr
      (forall₂_imp_of_mem hs fun v hv' w hw' => ih v hv' (hv v hv') (hw w hw'))))
  | set k vs ih =>
    obtain ⟨ws, rfl, hs⟩ := set_beq.mp hvw
    rw [wellFormed_set] at hv hw
    rw [normal_set, normal_set]
    exact .set k (List.forall₂_map_left_iff.mpr (List.forall₂_map_right_iff.mpr
      (forall₂_imp_of_mem hs fun v hv' w hw' => ih v hv' (hv.2 v hv') (hw.2 w hw'))))
  | map k es ih =>
    obtain ⟨fs, rfl, hs⟩ := map_beq.mp hvw
    rw [wellFormed_map] at hv hw
    rw [normal_map, normal_map]
    exact .map k (List.forall₂_map_left_iff.mpr (List.forall₂_map_right_iff.mpr
      (forall₂_imp_of_mem hs fun e he f hf hef =>
        ⟨(ih e he).1 (hv.2 e he).1 (hw.2 f hf).1 hef.1,
          (ih e he).2 (hv.2 e he).2 (hw.2 f hf).2 hef.2⟩)))
  | bean d ih =>
    obtain ⟨e, rfl, hs⟩ := bean_beq.mp hvw
    obtain ⟨hd, hdv⟩ := Definition.wellFormed_iff.mp (wellFormed_bean.mp hv)
    obtain ⟨he, hev⟩ := Definition.wellFormed_iff.mp (wellFormed_bean.mp hw)
    have hrelated := (Definition.beq_iff.mp hs).imp_of_holds
      fun v hv' w hw' => ih v hv' (hdv v hv') (hev w hw')
    exact Definition.Equiv.of_related (hd.normal keep) (he.normal keep) (hrelated.normal hd he)

/-- Equal definitions have equal normal forms. -/
theorem Definition.Equiv.normal {d e : Definition} (h : d.Equiv e) (keep : KeyFilter) :
    (d.normal keep).Equiv (e.normal keep) :=
  Value.Equiv.normal h keep

end BeanScript
