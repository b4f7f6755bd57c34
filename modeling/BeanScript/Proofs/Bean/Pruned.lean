import BeanScript.Proofs.Bean.Bisimulation

/-!
# Without rejected attributes

A filter rejects attributes on definitions at any depth. Definitions that differ in nothing else are
the same once these attributes are *pruned*. Pruning is no part of generation: two nested
definitions that differ in a rejected attribute are different definitions, and each gets a method of
its own. A set may even have equal elements once they are pruned, so pruned values need not be
well-formed. Still they can be compared, and well-formed values with equal pruned forms are
bisimilar.

## Main definitions

* `Value.pruned`, `Definition.pruned` — without rejected attributes at any depth
* `Value.PrunedAlike` — well-formed values with equal pruned forms

## Main results

* `Definition.pruned_eq`, `Definition.held_pruned` — the pruned form, part by part
* `Value.Equiv.pruned` — equal values have equal pruned forms
* `Value.alike_of_pruned_beq` — pruning changes no shape
* `Value.Bisimulation.ofPruned` — having equal pruned forms is a bisimulation
-/

namespace BeanScript

mutual

/-- The value without the attributes that `keep` rejects. -/
def Value.pruned (keep : KeyFilter) : Value → Value
  | .atom a => .atom a
  | .array c vs => .array c (prunedElements keep vs)
  | .list k vs => .list k (prunedElements keep vs)
  | .set k vs => .set k (prunedElements keep vs)
  | .map k es => .map k (prunedEntries keep es)
  | .bean d => .bean (Definition.pruned keep d)
termination_by structural v => v

/-- Values without rejected attributes. -/
def prunedElements (keep : KeyFilter) : List Value → List Value
  | [] => []
  | v :: vs => v.pruned keep :: prunedElements keep vs
termination_by structural vs => vs

/-- Map entries without rejected attributes. -/
def prunedEntries (keep : KeyFilter) : List (Value × Value) → List (Value × Value)
  | [] => []
  | (key, v) :: es => (key.pruned keep, v.pruned keep) :: prunedEntries keep es
termination_by structural es => es

/-- An argument without rejected attributes. -/
def Holder.pruned (keep : KeyFilter) : Holder → Holder
  | ⟨v, t, n⟩ => ⟨v.pruned keep, t, n⟩
termination_by structural h => h

/-- Positional arguments without rejected attributes. -/
def prunedIndexed (keep : KeyFilter) : List (Nat × Holder) → List (Nat × Holder)
  | [] => []
  | (i, h) :: as => (i, h.pruned keep) :: prunedIndexed keep as
termination_by structural as => as

/-- Generic arguments without rejected attributes. -/
def prunedGeneric (keep : KeyFilter) : List Holder → List Holder
  | [] => []
  | h :: hs => h.pruned keep :: prunedGeneric keep hs
termination_by structural hs => hs

/-- The values of a table without rejected attributes, as far as their keys are admitted. -/
def prunedTable (keep : KeyFilter) : KeyFilter → List (String × Value) → List (String × Value)
  | _, [] => []
  | admits, (key, v) :: es =>
    if admits key then (key, v.pruned keep) :: prunedTable keep admits es
    else prunedTable keep admits es
termination_by structural _ es => es

/-- Qualifiers without rejected attributes of what is nested in them. -/
def prunedQualifiers (keep : KeyFilter) :
    List (String × List (String × Value)) → List (String × List (String × Value))
  | [] => []
  | (t, es) :: qs => (t, prunedTable keep .all es) :: prunedQualifiers keep qs
termination_by structural qs => qs

/-- The definition without the attributes that `keep` rejects, its own and those of the definitions
nested in it. -/
def Definition.pruned (keep : KeyFilter) : Definition → Definition
  | ⟨settings, indexed, generic, properties, attributes, qualifiers⟩ =>
    { settings
      indexed := prunedIndexed keep indexed
      generic := prunedGeneric keep generic
      properties := prunedTable keep .all properties
      attributes := prunedTable keep keep attributes
      qualifiers := prunedQualifiers keep qualifiers }
termination_by structural d => d

end

section Equations

variable {keep : KeyFilter}

theorem prunedElements_eq {vs : List Value} :
    prunedElements keep vs = vs.map (·.pruned keep) := by
  induction vs <;> simp [prunedElements, *]

theorem prunedEntries_eq {es : List (Value × Value)} :
    prunedEntries keep es = es.map fun e => (e.1.pruned keep, e.2.pruned keep) := by
  induction es <;> simp [prunedEntries, *]

theorem Holder.pruned_eq {h : Holder} :
    h.pruned keep = { h with value := h.value.pruned keep } := by
  cases h
  rfl

theorem prunedIndexed_eq {as : List (Nat × Holder)} :
    prunedIndexed keep as = as.map fun a => (a.1, a.2.pruned keep) := by
  induction as <;> simp [prunedIndexed, *]

theorem prunedGeneric_eq {hs : List Holder} :
    prunedGeneric keep hs = hs.map (·.pruned keep) := by
  induction hs <;> simp [prunedGeneric, *]

theorem prunedTable_eq {admits : KeyFilter} {es : List (String × Value)} :
    prunedTable keep admits es
      = (es.filter fun e => admits e.1).map fun e => (e.1, e.2.pruned keep) := by
  induction es with
  | nil => rfl
  | cons e es ih =>
    obtain ⟨k, v⟩ := e
    rw [prunedTable, ih, List.filter_cons]
    split <;> rfl

theorem prunedTable_all {es : List (String × Value)} :
    prunedTable keep .all es = es.map fun e => (e.1, e.2.pruned keep) := by
  have hall : (es.filter fun e => KeyFilter.all e.1) = es := List.filter_eq_self.mpr fun _ _ => rfl
  rw [prunedTable_eq, hall]

theorem prunedQualifiers_eq {qs : List (String × List (String × Value))} :
    prunedQualifiers keep qs = qs.map fun q => (q.1, q.2.map fun e => (e.1, e.2.pruned keep)) := by
  induction qs <;> simp [prunedQualifiers, prunedTable_all, *]

namespace Value

@[simp] theorem pruned_atom {a : Atom} : (Value.atom a).pruned keep = .atom a := rfl

@[simp] theorem pruned_array {c : ClassName} {vs : List Value} :
    (Value.array c vs).pruned keep = .array c (vs.map (·.pruned keep)) := by
  rw [Value.pruned, prunedElements_eq]

@[simp] theorem pruned_list {k : Kind} {vs : List Value} :
    (Value.list k vs).pruned keep = .list k (vs.map (·.pruned keep)) := by
  rw [Value.pruned, prunedElements_eq]

@[simp] theorem pruned_set {k : Kind} {vs : List Value} :
    (Value.set k vs).pruned keep = .set k (vs.map (·.pruned keep)) := by
  rw [Value.pruned, prunedElements_eq]

@[simp] theorem pruned_map {k : Kind} {es : List (Value × Value)} :
    (Value.map k es).pruned keep
      = .map k (es.map fun e => (e.1.pruned keep, e.2.pruned keep)) := by
  rw [Value.pruned, prunedEntries_eq]

@[simp] theorem pruned_bean {d : Definition} :
    (Value.bean d).pruned keep = .bean (d.pruned keep) := rfl

/-- Pruning goes on inside nested definitions. -/
theorem beans_pruned {v : Value} : (v.pruned keep).beans = v.beans.map (·.pruned keep) := by
  induction v with
  | atom a => rfl
  | array c vs ih =>
    rw [pruned_array, beans_array, beans_array, List.flatMap_map, List.map_flatMap]
    exact List.flatMap_congr ih
  | list k vs ih =>
    rw [pruned_list, beans_list, beans_list, List.flatMap_map, List.map_flatMap]
    exact List.flatMap_congr ih
  | set k vs ih =>
    rw [pruned_set, beans_set, beans_set, List.flatMap_map, List.map_flatMap]
    exact List.flatMap_congr ih
  | map k es ih =>
    rw [pruned_map, beans_map, beans_map, List.flatMap_map, List.map_flatMap]
    refine List.flatMap_congr fun e he => ?_
    rw [(ih e he).1, (ih e he).2, List.map_append]
  | bean d => rfl

end Value

namespace Definition

variable {d : Definition}

/-- The pruned form of a definition, part by part. -/
theorem pruned_eq : d.pruned keep =
    { settings := d.settings
      indexed := d.indexed.map fun a => (a.1, a.2.pruned keep)
      generic := d.generic.map (·.pruned keep)
      properties := d.properties.map fun e => (e.1, e.2.pruned keep)
      attributes := (d.attributes.filter fun e => keep e.1).map fun e => (e.1, e.2.pruned keep)
      qualifiers :=
        d.qualifiers.map fun q => (q.1, q.2.map fun e => (e.1, e.2.pruned keep)) } := by
  cases d
  rw [Definition.pruned, prunedIndexed_eq, prunedGeneric_eq, prunedTable_all, prunedTable_eq,
    prunedQualifiers_eq]

/-- No attribute of the pruned form is rejected. -/
theorem filter_attributes_pruned :
    ((d.pruned keep).attributes.filter fun e => keep e.1) = (d.pruned keep).attributes := by
  rw [pruned_eq, List.filter_map, List.filter_filter]
  simp

/-- The pruned form holds the pruned forms of the values that the definition holds. -/
theorem held_pruned :
    (d.pruned keep).held keep = (d.held keep).map fun e => (e.1, e.2.pruned keep) := by
  have hposition : ∀ (n : Nat) (h : Holder),
      NestedMethods.genericPosition n (h.pruned keep) = NestedMethods.genericPosition n h :=
    fun _ h => by rw [Holder.pruned_eq]; rfl
  have hvalue : ∀ h : Holder, (h.pruned keep).value = h.value.pruned keep :=
    fun h => by rw [Holder.pruned_eq]
  rw [held, filter_attributes_pruned, pruned_eq, held]
  simp only [List.map_append, List.map_map, List.zipIdx_map, List.map_flatMap, List.flatMap_map,
    Function.comp_def, Prod.map_fst, Prod.map_snd, id_eq, hposition, hvalue]

theorem beans_pruned : (d.pruned keep).beans keep = (d.beans keep).map (·.pruned keep) := by
  rw [beans, beans, held_pruned, List.flatMap_map, List.map_flatMap]
  exact List.flatMap_congr fun e _ => Value.beans_pruned

end Definition

end Equations

/-! ### Comparing pruned forms -/

theorem Holder.related_pruned_iff {keep : KeyFilter} {R : Value → Value → Prop} {g h : Holder} :
    (g.pruned keep).Related R (h.pruned keep) ↔
      g.Related (fun v w => R (v.pruned keep) (w.pruned keep)) h := by
  rw [Holder.pruned_eq, Holder.pruned_eq]
  exact Iff.rfl

/-- Pruned forms are equal when what is kept has equal pruned forms. -/
theorem Definition.pruned_beq_iff {keep : KeyFilter} {d e : Definition} :
    d.pruned keep == e.pruned keep ↔
      (d.kept keep).Related (fun v w => v.pruned keep == w.pruned keep) (e.kept keep) := by
  rw [beq_iff, pruned_eq, pruned_eq]
  constructor
  · rintro ⟨hs, hi, hg, hp, ha, hq⟩
    simp only [List.forall₂_map_left_iff, List.forall₂_map_right_iff, Table.same_map_iff,
      Holder.related_pruned_iff] at hi hg hp ha hq
    exact ⟨hs, hi, hg, hp, ha, hq⟩
  · rintro ⟨hs, hi, hg, hp, ha, hq⟩
    refine ⟨hs, ?_, ?_, ?_, ?_, ?_⟩ <;>
      simp only [List.forall₂_map_left_iff, List.forall₂_map_right_iff, Table.same_map_iff,
        Holder.related_pruned_iff]
    exacts [hi, hg, hp, ha, hq]

namespace Value

/-- Equal values have equal pruned forms. -/
theorem Equiv.pruned {v w : Value} (h : v.Equiv w) (keep : KeyFilter) :
    v.pruned keep == w.pruned keep := by
  have hR := Bisimulation.ofEquiv keep
  have helements : ∀ {vs ws : List Value},
      (∀ v ∈ vs, ∀ w, v.Equiv w → v.pruned keep == w.pruned keep) → List.Forall₂ Value.Equiv vs ws →
      List.Forall₂ (fun v w => v == w) (vs.map (·.pruned keep)) (ws.map (·.pruned keep)) := by
    intro vs ws ih hs
    rw [List.forall₂_map_left_iff, List.forall₂_map_right_iff]
    exact forall₂_imp_of_mem hs fun v hv w _ hvw => ih v hv w hvw
  induction v generalizing w with
  | atom a =>
    cases hR.alike h
    exact atom_beq.mpr rfl
  | array c vs ih =>
    cases hR.alike h with
    | array hs =>
      rw [pruned_array, pruned_array]
      exact array_beq.mpr ⟨_, rfl, helements (fun v hv w => ih v hv) hs⟩
  | list k vs ih =>
    cases hR.alike h with
    | list hs =>
      rw [pruned_list, pruned_list]
      exact list_beq.mpr ⟨_, rfl, helements (fun v hv w => ih v hv) hs⟩
  | set k vs ih =>
    cases hR.alike h with
    | set hs =>
      rw [pruned_set, pruned_set]
      exact set_beq.mpr ⟨_, rfl, helements (fun v hv w => ih v hv) hs⟩
  | map k es ih =>
    cases hR.alike h with
    | map hs =>
      rw [pruned_map, pruned_map]
      refine map_beq.mpr ⟨_, rfl, ?_⟩
      rw [List.forall₂_map_left_iff, List.forall₂_map_right_iff]
      exact forall₂_imp_of_mem hs fun e he f _ hef => ⟨(ih e he).1 hef.1, (ih e he).2 hef.2⟩
  | bean d ih =>
    cases hR.alike h with
    | bean hs =>
      refine bean_beq.mpr ⟨_, rfl, Definition.pruned_beq_iff.mpr ?_⟩
      exact hs.imp_of_holds fun v hv w _ hvw => ih v (Definition.holds_kept.mp hv).all hvw

/-- Values with equal pruned forms are of one shape, and so are their parts. -/
theorem alike_of_pruned_beq {keep : KeyFilter} {v w : Value} (h : v.pruned keep == w.pruned keep) :
    Alike keep (fun v w => v.pruned keep == w.pruned keep) v w := by
  cases v with
  | atom a =>
    have heq := atom_beq.mp h
    cases w with
    | atom b =>
      obtain rfl := atom.inj heq
      exact .atom b
    | _ => simp at heq
  | array c vs =>
    obtain ⟨us, heq, hs⟩ := array_beq.mp (pruned_array ▸ h)
    cases w with
    | array c' ws =>
      rw [pruned_array, array.injEq] at heq
      obtain ⟨rfl, rfl⟩ := heq
      rw [List.forall₂_map_left_iff, List.forall₂_map_right_iff] at hs
      exact .array hs
    | _ => simp at heq
  | list k vs =>
    obtain ⟨us, heq, hs⟩ := list_beq.mp (pruned_list ▸ h)
    cases w with
    | list k' ws =>
      rw [pruned_list, list.injEq] at heq
      obtain ⟨rfl, rfl⟩ := heq
      rw [List.forall₂_map_left_iff, List.forall₂_map_right_iff] at hs
      exact .list hs
    | _ => simp at heq
  | set k vs =>
    obtain ⟨us, heq, hs⟩ := set_beq.mp (pruned_set ▸ h)
    cases w with
    | set k' ws =>
      rw [pruned_set, set.injEq] at heq
      obtain ⟨rfl, rfl⟩ := heq
      rw [List.forall₂_map_left_iff, List.forall₂_map_right_iff] at hs
      exact .set hs
    | _ => simp at heq
  | map k es =>
    obtain ⟨us, heq, hs⟩ := map_beq.mp (pruned_map ▸ h)
    cases w with
    | map k' fs =>
      rw [pruned_map, map.injEq] at heq
      obtain ⟨rfl, rfl⟩ := heq
      rw [List.forall₂_map_left_iff, List.forall₂_map_right_iff] at hs
      exact .map hs
    | _ => simp at heq
  | bean d =>
    obtain ⟨u, heq, hs⟩ := bean_beq.mp h
    cases w with
    | bean e =>
      obtain rfl := bean.inj heq
      exact .bean (Definition.pruned_beq_iff.mp hs)
    | _ => simp at heq

/-- Well-formed values whose pruned forms are equal. -/
structure PrunedAlike (keep : KeyFilter) (v w : Value) : Prop where
  left : v.WellFormed
  right : w.WellFormed
  beq : v.pruned keep == w.pruned keep

namespace PrunedAlike

variable {keep : KeyFilter} {v w : Value}

/-- Values with the same pruned form have equal pruned forms. -/
theorem of_eq (hv : v.WellFormed) (hw : w.WellFormed) (h : v.pruned keep = w.pruned keep) :
    PrunedAlike keep v w :=
  ⟨hv, hw, h ▸ (Equiv.refl hv).pruned keep⟩

end PrunedAlike

/-- Well-formed values are bisimilar when their pruned forms are equal. -/
theorem Bisimulation.ofPruned (keep : KeyFilter) : Bisimulation keep (PrunedAlike keep) where
  wellFormed h := ⟨h.left, h.right⟩
  alike h := (alike_of_pruned_beq h.beq).of_wellFormed h.left h.right fun hv hw hvw => ⟨hv, hw, hvw⟩
  congr h h' h'' :=
    ⟨h.left, h''.right, beq_trans (beq_trans (h.pruned keep) h'.beq) (h''.pruned keep)⟩

end Value

end BeanScript
