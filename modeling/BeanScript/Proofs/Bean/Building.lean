import BeanScript.Proofs.Bean.Edits

/-!
# What can be built

A value is built from its parts: sets and maps by inserting into an empty one, bean definitions by
edits of a fresh one. However this is done, nothing is repeated in what is built. The other way
round, everything in which nothing is repeated can be built. So the well-formed values are those
that there can be.

## Main definitions

* `Value.Built`, `Definition.Built` — built with the operations on values and definitions
* `Definition.ownEdits` — the edits that build a definition

## Main results

* `Definition.applyAll_ownEdits` — a definition that repeats nothing is what its edits make
* `Value.built_iff_wellFormed`, `Definition.built_iff_wellFormed`
-/

namespace BeanScript

/-! ### Building -/

/-- The values that an edit puts into a definition. -/
def Edit.values : Edit → List Value
  | .addIndexed _ h | .addGeneric h => [h.value]
  | .addProperty _ v | .setAttribute _ v => [v]
  | .addQualifier q => q.attributes.map Prod.snd
  | _ => []

/-- A qualifier that is added has been built, too: its attributes have been set in turn. -/
def Edit.QualifierBuilt : Edit → Prop
  | .addQualifier q => ∃ attributes : List (String × Value), q.attributes = Table.ofList attributes
  | _ => True

/-- A value has been built with the operations on values, from values that have been. -/
inductive Value.Built : Value → Prop
  | atom (a : Atom) : Built (.atom a)
  | array (c : ClassName) {vs : List Value} (h : ∀ v ∈ vs, Built v) : Built (.array c vs)
  | list (k : Kind) {vs : List Value} (h : ∀ v ∈ vs, Built v) : Built (.list k vs)
  | set (k : Kind) {vs : List Value} (h : ∀ v ∈ vs, Built v) :
    Built (.set k (ValueSet.ofList vs))
  | map (k : Kind) {es : List (Value × Value)} (hkeys : ∀ e ∈ es, Built e.1)
    (hvalues : ∀ e ∈ es, Built e.2) : Built (.map k (ValueMap.ofList es))
  | fresh : Built (.bean {})
  | edit {d : Definition} (hd : Built (.bean d)) {edit : Edit} (hvalues : ∀ v ∈ edit.values, Built v)
    (hqualifier : edit.QualifierBuilt) : Built (.bean (d.apply edit))

/-- A definition has been built by edits of a fresh one. -/
def Definition.Built (d : Definition) : Prop :=
  (Value.bean d).Built

/-! ### What is built is well-formed -/

theorem Edit.WellFormed.of_values {e : Edit} (hvalues : ∀ v ∈ e.values, v.WellFormed)
    (hqualifier : e.QualifierBuilt) : e.WellFormed := by
  cases e with
  | addQualifier q =>
    obtain ⟨attributes, hattributes⟩ := hqualifier
    refine ⟨?_, fun e he => hvalues _ (List.mem_map_of_mem he)⟩
    have hdistinct := Table.pairwise_ofList attributes
    rw [← hattributes] at hdistinct
    exact List.pairwise_map.mpr (hdistinct.imp fun hne => by simpa using hne)
  | addIndexed index h => exact hvalues _ List.mem_cons_self
  | addGeneric h => exact hvalues _ List.mem_cons_self
  | addProperty name v => exact hvalues _ List.mem_cons_self
  | setAttribute key v => exact hvalues _ List.mem_cons_self
  | _ => trivial

theorem Definition.wellFormed_fresh : ({} : Definition).WellFormed := by decide

/-- Nothing is repeated in what is built. -/
theorem Value.Built.wellFormed {v : Value} (h : v.Built) : v.WellFormed := by
  induction h with
  | atom a => exact wellFormed_atom
  | array c _ ih => exact wellFormed_array.mpr ih
  | list k _ ih => exact wellFormed_list.mpr ih
  | set k _ ih => exact .set_ofList ih k
  | map k _ _ ihkeys ihvalues => exact .map_ofList (fun e he => ⟨ihkeys e he, ihvalues e he⟩) k
  | fresh => exact Definition.wellFormed_fresh
  | edit _ _ hqualifier ih ihvalues =>
    exact Definition.WellFormed.apply ih (.of_values ihvalues hqualifier)

/-! ### What is well-formed can be built -/

/-- Edits that lead from fresh settings to these. -/
def Settings.ownEdits (s : Settings) : List Edit :=
  [.setPrimary s.primary, .setFallback s.fallback, .setScope s.scope,
    .setAutowireCandidate s.autowireCandidate, .setDefaultCandidate s.defaultCandidate,
    .setSynthetic s.synthetic, .setRole s.role] ++
    s.dependsOn.toList.map .setDependsOn ++ s.lazyInit.toList.map .setLazyInit ++
    s.initMethods.toList.map .setInitMethods ++ s.destroyMethods.toList.map .setDestroyMethods ++
    s.targetType.toList.map .setTargetType ++ s.beanClass.toList.map .setBeanClass

/-- Edits that lead from a fresh definition to this one, part by part. -/
def Definition.ownEdits (d : Definition) : List Edit :=
  d.settings.ownEdits ++ d.indexed.map (fun a => .addIndexed a.1 a.2) ++
    d.generic.map .addGeneric ++ d.properties.map (fun e => .addProperty e.1 e.2) ++
    d.attributes.map (fun e => .setAttribute e.1 e.2) ++
    d.qualifiers.map fun q => .addQualifier { typeName := q.1, attributes := q.2 }

theorem Settings.applyAll_ownEdits (s : Settings) :
    ({} : Definition).applyAll s.ownEdits = { settings := s } := by
  let start : Settings :=
    { s with
      dependsOn := none, lazyInit := none, initMethods := none, destroyMethods := none
      targetType := none, beanClass := none }
  have hfirst : ({} : Definition).applyAll [.setPrimary s.primary, .setFallback s.fallback,
      .setScope s.scope, .setAutowireCandidate s.autowireCandidate,
      .setDefaultCandidate s.defaultCandidate, .setSynthetic s.synthetic, .setRole s.role]
        = { settings := start } := rfl
  -- what is optional is set in turn, where it is there
  have hset : ∀ {α : Type} (value : Option α) (edit : α → Edit) (after : Option α → Settings),
      (∀ a, ({ settings := after none } : Definition).apply (edit a) = { settings := after a }) →
      ({ settings := after none } : Definition).applyAll (value.toList.map edit)
        = { settings := after value } := by
    intro α value edit after h
    cases value with
    | none => rfl
    | some a => exact h a
  simp only [ownEdits, Definition.applyAll_append]
  rw [hfirst,
    hset s.dependsOn .setDependsOn (fun o => { start with dependsOn := o }) fun _ => rfl,
    hset s.lazyInit .setLazyInit
      (fun o => { start with dependsOn := s.dependsOn, lazyInit := o }) fun _ => rfl,
    hset s.initMethods .setInitMethods (fun o =>
      { s with initMethods := o, destroyMethods := none, targetType := none, beanClass := none })
      fun _ => rfl,
    hset s.destroyMethods .setDestroyMethods (fun o =>
      { s with destroyMethods := o, targetType := none, beanClass := none }) fun _ => rfl,
    hset s.targetType .setTargetType (fun o => { s with targetType := o, beanClass := none })
      fun _ => rfl,
    hset s.beanClass .setBeanClass (fun o => { s with beanClass := o }) fun _ => rfl]

/-- A definition that repeats nothing is what its edits make. -/
theorem Definition.applyAll_ownEdits {d : Definition} (hd : d.Distinct) :
    ({} : Definition).applyAll d.ownEdits = d := by
  have hindexed : d.indexed.foldl (fun l a => Ascending.put Prod.fst a l) [] = d.indexed :=
    Ascending.foldl_put_eq_append (List.pairwise_map.mp hd.indexed)
  have hgeneric : d.generic.foldl (BeanScript.Distinct.add (· == ·)) [] = d.generic :=
    Distinct.foldl_add_eq_append hd.generic
  have htable : ∀ {ν : Type} {t : Table String ν}, (Table.keys t).Nodup →
      t.foldl (fun t e => Table.put t e.1 e.2) [] = t := fun h =>
    Table.ofList_eq_self (Table.pairwise_of_nodup_keys h)
  simp only [ownEdits, applyAll_append, Settings.applyAll_ownEdits, applyAll_addIndexed,
    applyAll_addGeneric, applyAll_addProperty, applyAll_setAttribute, applyAll_addQualifier,
    hindexed, hgeneric, htable hd.properties, htable hd.attributes, htable hd.qualifiers]
  cases d
  rfl

theorem Settings.forall_mem_ownEdits (s : Settings) :
    ∀ e ∈ s.ownEdits, e.values = [] ∧ e.QualifierBuilt := by
  simp only [ownEdits, List.forall_mem_append, List.forall_mem_map, List.forall_mem_cons,
    Edit.values, Edit.QualifierBuilt]
  simp

/-- The edits of a definition put in the values that it holds. -/
theorem Definition.forall_mem_ownEdits {d : Definition} (hd : d.Distinct) :
    ∀ e ∈ d.ownEdits, (∀ v ∈ e.values, d.Holds .all v) ∧ e.QualifierBuilt := by
  have hone : ∀ {v : Value}, d.Holds .all v → ∀ w ∈ [v], d.Holds .all w := fun h =>
    List.forall_mem_singleton.mpr h
  simp only [ownEdits, List.forall_mem_append, List.forall_mem_map]
  refine ⟨⟨⟨⟨⟨fun e he => ?_, fun a ha => ⟨hone (holds_indexed ha), trivial⟩⟩,
    fun g hg => ⟨hone (holds_generic hg), trivial⟩⟩,
    fun e he => ⟨hone (holds_property he), trivial⟩⟩,
    fun e he => ⟨hone (holds_attribute he), trivial⟩⟩, fun q hq => ⟨?_, q.2, ?_⟩⟩
  · obtain ⟨hvalues, hqualifier⟩ := d.settings.forall_mem_ownEdits e he
    rw [hvalues]
    exact ⟨nofun, hqualifier⟩
  · exact List.forall_mem_map.mpr fun e he => holds_qualifier hq he
  · exact (Table.ofList_eq_self
      (Table.pairwise_of_nodup_keys (hd.qualifierAttributes q hq))).symm

theorem Definition.Built.applyAll {d : Definition} (hd : d.Built) {edits : List Edit}
    (h : ∀ e ∈ edits, (∀ v ∈ e.values, v.Built) ∧ e.QualifierBuilt) :
    (d.applyAll edits).Built := by
  induction edits generalizing d with
  | nil => exact hd
  | cons e edits ih =>
    rw [List.forall_mem_cons] at h
    exact ih (.edit hd h.1.1 h.1.2) h.2

/-- Everything in which nothing is repeated can be built. -/
theorem Value.WellFormed.built {v : Value} (h : v.WellFormed) : v.Built := by
  induction v with
  | atom a => exact .atom a
  | array c vs ih => exact .array c fun v hv => ih v hv (wellFormed_array.mp h v hv)
  | list k vs ih => exact .list k fun v hv => ih v hv (wellFormed_list.mp h v hv)
  | set k vs ih =>
    obtain ⟨hdistinct, hvs⟩ := wellFormed_set.mp h
    rw [← Distinct.ofList_eq_self hdistinct]
    exact .set k fun v hv => ih v hv (hvs v hv)
  | map k es ih =>
    obtain ⟨hdistinct, hes⟩ := wellFormed_map.mp h
    rw [← Table.ofList_eq_self hdistinct]
    exact .map k (fun e he => (ih e he).1 (hes e he).1) fun e he => (ih e he).2 (hes e he).2
  | bean d ih =>
    obtain ⟨hd, hheld⟩ := Definition.wellFormed_iff.mp (wellFormed_bean.mp h)
    have hbuilt : (({} : Definition).applyAll d.ownEdits).Built := by
      refine Definition.Built.applyAll .fresh fun e he => ?_
      obtain ⟨hvalues, hqualifier⟩ := Definition.forall_mem_ownEdits hd e he
      exact ⟨fun v hv => ih v (hvalues v hv) (hheld v (hvalues v hv)), hqualifier⟩
    rw [Definition.applyAll_ownEdits hd] at hbuilt
    exact hbuilt

/-- The values that there can be are the well-formed ones. -/
theorem Value.built_iff_wellFormed {v : Value} : v.Built ↔ v.WellFormed :=
  ⟨Built.wellFormed, WellFormed.built⟩

theorem Definition.built_iff_wellFormed {d : Definition} : d.Built ↔ d.WellFormed :=
  Value.built_iff_wellFormed

end BeanScript
