import BeanScript.Bean.Edit
import BeanScript.Proofs.Ascending
import BeanScript.Proofs.Bean.Equivalence

/-!
# Making edits

Edits of one kind, made in turn on a fresh definition, lead to the list or table of what they add.
Whatever edits are made, a well-formed definition stays well-formed as long as the values that are
put into it are: a definition that repeats something cannot be built.

## Main definitions

* `Edit.WellFormed` — nothing is repeated in the values of an edit

## Main results

* `Definition.applyAll_addIndexed` and its companions — many edits of one kind
* `Definition.WellFormed.apply`, `Definition.WellFormed.applyAll` — what is built is well-formed
-/

namespace BeanScript

/-! ### Many edits of one kind -/

namespace Definition

theorem applyAll_append (d : Definition) (es fs : List Edit) :
    d.applyAll (es ++ fs) = (d.applyAll es).applyAll fs :=
  List.foldl_append

theorem applyAll_addIndexed (d : Definition) (as : List (Nat × Holder)) :
    d.applyAll (as.map fun a => .addIndexed a.1 a.2)
      = { d with indexed := as.foldl (fun l a => Ascending.put Prod.fst a l) d.indexed } := by
  induction as generalizing d with
  | nil => cases d; rfl
  | cons a as ih => exact ih _

theorem applyAll_addGeneric (d : Definition) (hs : List Holder) :
    d.applyAll (hs.map .addGeneric)
      = { d with generic := hs.foldl (Distinct.add (· == ·)) d.generic } := by
  induction hs generalizing d with
  | nil => cases d; rfl
  | cons h hs ih => exact ih _

theorem applyAll_addProperty (d : Definition) (es : List (String × Value)) :
    d.applyAll (es.map fun e => .addProperty e.1 e.2)
      = { d with properties := es.foldl (fun t e => Table.put t e.1 e.2) d.properties } := by
  induction es generalizing d with
  | nil => cases d; rfl
  | cons e es ih => exact ih _

theorem applyAll_setAttribute (d : Definition) (es : List (String × Value)) :
    d.applyAll (es.map fun e => .setAttribute e.1 e.2)
      = { d with attributes := es.foldl (fun t e => Table.put t e.1 e.2) d.attributes } := by
  induction es generalizing d with
  | nil => cases d; rfl
  | cons e es ih => exact ih _

theorem applyAll_addQualifier (d : Definition) (qs : List (String × List (String × Value))) :
    d.applyAll (qs.map fun q => .addQualifier { typeName := q.1, attributes := q.2 })
      = { d with qualifiers := qs.foldl (fun t q => Table.put t q.1 q.2) d.qualifiers } := by
  induction qs generalizing d with
  | nil => cases d; rfl
  | cons q qs ih => exact ih _

end Definition

/-! ### What is built is well-formed -/

/-- Nothing is repeated in the values of the edit. -/
def Edit.WellFormed : Edit → Prop
  | .addIndexed _ h | .addGeneric h => h.WellFormed
  | .addProperty _ v | .setAttribute _ v => v.WellFormed
  | .addQualifier q => (Table.keys q.attributes).Nodup ∧ ∀ e ∈ q.attributes, e.2.WellFormed
  | _ => True

namespace Definition

/-- A definition is well-formed when it repeats nothing and its parts are well-formed. -/
theorem wellFormed_iff_parts {d : Definition} :
    d.WellFormed ↔ d.Distinct ∧ (∀ a ∈ d.indexed, a.2.WellFormed) ∧
      (∀ h ∈ d.generic, h.WellFormed) ∧ (∀ e ∈ d.properties, e.2.WellFormed) ∧
      (∀ e ∈ d.attributes, e.2.WellFormed) ∧ ∀ q ∈ d.qualifiers, ∀ e ∈ q.2, e.2.WellFormed := by
  rw [wellFormed_iff]
  refine and_congr_right fun _ => ?_
  constructor
  · intro h
    exact ⟨fun a ha => h _ (holds_indexed ha), fun g hg => h _ (holds_generic hg),
      fun e he => h _ (holds_property he), fun e he => h _ (holds_attribute he),
      fun q hq e he => h _ (holds_qualifier hq he)⟩
  · rintro ⟨hindexed, hgeneric, hproperties, hattributes, hqualifiers⟩ v hv
    rcases holds_iff.mp hv with ⟨a, ha, rfl⟩ | ⟨g, hg, rfl⟩ | ⟨e, he, rfl⟩ | ⟨e, he, -, rfl⟩ |
      ⟨q, hq, e, he, rfl⟩
    · exact hindexed a ha
    · exact hgeneric g hg
    · exact hproperties e he
    · exact hattributes e he
    · exact hqualifiers q hq e he

/-- An edit keeps a definition well-formed. -/
theorem WellFormed.apply {d : Definition} (hd : d.WellFormed) {e : Edit} (he : e.WellFormed) :
    (d.apply e).WellFormed := by
  obtain ⟨hdistinct, hindexed, hgeneric, hproperties, hattributes, hqualifiers⟩ :=
    wellFormed_iff_parts.mp hd
  have htable : ∀ {t : Table String Value} {key : String} {v : Value}, v.WellFormed →
      (∀ f ∈ t, f.2.WellFormed) → ∀ f ∈ Table.put t key v, f.2.WellFormed := by
    intro t key v hv ht f hf
    rcases (Table.mem_put hf).2 with hmem | hnew
    · obtain ⟨g, hg, hgf⟩ := List.mem_map.mp hmem
      exact hgf ▸ ht g hg
    · exact hnew ▸ hv
  rw [wellFormed_iff_parts]
  cases e with
  | addIndexed index h =>
    refine ⟨{ hdistinct with indexed := ?_ }, fun a ha => ?_, hgeneric, hproperties, hattributes,
      hqualifiers⟩
    · exact List.pairwise_map.mpr
        (Ascending.pairwise_put _ (List.pairwise_map.mp hdistinct.indexed))
    · rcases Ascending.mem_of_mem_put ha with rfl | ha
      · exact he
      · exact hindexed a ha
  | addGeneric h =>
    refine ⟨{ hdistinct with generic := Distinct.pairwise_add h hdistinct.generic }, hindexed,
      fun g hg => ?_, hproperties, hattributes, hqualifiers⟩
    rcases Distinct.mem_of_mem_add hg with hg | rfl
    · exact hgeneric g hg
    · exact he
  | addProperty name v =>
    exact ⟨{ hdistinct with properties := Table.nodup_keys_put name v hdistinct.properties },
      hindexed, hgeneric, htable he hproperties, hattributes, hqualifiers⟩
  | removeProperty name =>
    exact ⟨{ hdistinct with properties := Table.nodup_keys_remove name hdistinct.properties },
      hindexed, hgeneric, fun e he => hproperties e (Table.mem_of_mem_remove he), hattributes,
      hqualifiers⟩
  | setAttribute key v =>
    exact ⟨{ hdistinct with attributes := Table.nodup_keys_put key v hdistinct.attributes },
      hindexed, hgeneric, hproperties, htable he hattributes, hqualifiers⟩
  | removeAttribute key =>
    exact ⟨{ hdistinct with attributes := Table.nodup_keys_remove key hdistinct.attributes },
      hindexed, hgeneric, hproperties, fun e he => hattributes e (Table.mem_of_mem_remove he),
      hqualifiers⟩
  | addQualifier q =>
    have hmem : ∀ r ∈ Table.put d.qualifiers q.typeName q.attributes,
        r.2 ∈ d.qualifiers.map Prod.snd ∨ r.2 = q.attributes := fun r hr => (Table.mem_put hr).2
    refine ⟨{ hdistinct with
        qualifiers := Table.nodup_keys_put q.typeName q.attributes hdistinct.qualifiers
        qualifierAttributes := fun r hr => ?_ },
      hindexed, hgeneric, hproperties, hattributes, fun r hr => ?_⟩
    · rcases hmem r hr with hold | hnew
      · obtain ⟨r', hr', heq⟩ := List.mem_map.mp hold
        exact heq ▸ hdistinct.qualifierAttributes r' hr'
      · exact hnew ▸ he.1
    · rcases hmem r hr with hold | hnew
      · obtain ⟨r', hr', heq⟩ := List.mem_map.mp hold
        exact heq ▸ hqualifiers r' hr'
      · exact hnew ▸ he.2
  | _ => exact ⟨{ hdistinct with }, hindexed, hgeneric, hproperties, hattributes, hqualifiers⟩

/-- Edits in turn keep a definition well-formed. -/
theorem WellFormed.applyAll {d : Definition} (hd : d.WellFormed) {es : List Edit}
    (hes : ∀ e ∈ es, e.WellFormed) : (d.applyAll es).WellFormed := by
  induction es generalizing d with
  | nil => exact hd
  | cons e es ih =>
    rw [List.forall_mem_cons] at hes
    exact ih (hd.apply hes.1) hes.2

end Definition

end BeanScript
