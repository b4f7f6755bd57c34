import BeanScript.Proofs.Bean.Induction
import BeanScript.Proofs.Distinct
import BeanScript.Proofs.Table

/-!
# Well-formed values and definitions

The types of values and definitions are wider than what can be built with the operations on them: a
list stands for a set, a table for a map. What is built is *well-formed* at every depth: the members
of a set, the keys of a map or table and the generic arguments are distinct, and positional
arguments ascend.

Well-formedness, and every other condition on all values inside a value, is an instance of
`Value.every`, which is computed.

## Main definitions

* `Value.every`, `Definition.every` — a test holds of every value inside, outside rejected
  attributes
* `Value.Distinct`, `Definition.Distinct` — nothing is repeated at the outermost level
* `Value.WellFormed`, `Definition.WellFormed` — nothing is repeated at any level

## Main results

* `Definition.every_iff`, `Definition.wellFormed_iff` — a definition, by the values it holds
* `Definition.every_mono` — a weaker test holds where a stronger one does
-/

namespace BeanScript

/-! ### A test of every value inside -/

mutual

/-- The test holds of the value and of every value inside it. -/
def Value.every (keep : KeyFilter) (p : Value → Bool) : Value → Bool
  | .atom a => p (.atom a)
  | .array c vs => p (.array c vs) && everyElement keep p vs
  | .list k vs => p (.list k vs) && everyElement keep p vs
  | .set k vs => p (.set k vs) && everyElement keep p vs
  | .map k es => p (.map k es) && everyEntry keep p es
  | .bean d => p (.bean d) && Definition.every keep p d
termination_by structural v => v

/-- The test holds inside all elements. -/
def everyElement (keep : KeyFilter) (p : Value → Bool) : List Value → Bool
  | [] => true
  | v :: vs => v.every keep p && everyElement keep p vs
termination_by structural vs => vs

/-- The test holds inside all keys and values of a map. -/
def everyEntry (keep : KeyFilter) (p : Value → Bool) : List (Value × Value) → Bool
  | [] => true
  | (key, v) :: es => key.every keep p && v.every keep p && everyEntry keep p es
termination_by structural es => es

/-- The test holds inside the value of an argument. -/
def everyArgument (keep : KeyFilter) (p : Value → Bool) : Holder → Bool
  | ⟨v, _, _⟩ => v.every keep p
termination_by structural h => h

/-- The test holds inside all positional arguments. -/
def everyIndexed (keep : KeyFilter) (p : Value → Bool) : List (Nat × Holder) → Bool
  | [] => true
  | (_, h) :: as => everyArgument keep p h && everyIndexed keep p as
termination_by structural as => as

/-- The test holds inside all generic arguments. -/
def everyGeneric (keep : KeyFilter) (p : Value → Bool) : List Holder → Bool
  | [] => true
  | h :: hs => everyArgument keep p h && everyGeneric keep p hs
termination_by structural hs => hs

/-- The test holds inside all values whose keys are admitted. -/
def everyTable (keep : KeyFilter) (p : Value → Bool) : KeyFilter → List (String × Value) → Bool
  | _, [] => true
  | admits, (key, v) :: es => (!admits key || v.every keep p) && everyTable keep p admits es
termination_by structural _ es => es

/-- The test holds inside the attributes of all qualifiers. -/
def everyQualifier (keep : KeyFilter) (p : Value → Bool) :
    List (String × List (String × Value)) → Bool
  | [] => true
  | (_, es) :: qs => everyTable keep p .all es && everyQualifier keep p qs
termination_by structural qs => qs

/-- The test holds of every value inside a definition, outside attributes that `keep` rejects. -/
def Definition.every (keep : KeyFilter) (p : Value → Bool) : Definition → Bool
  | ⟨_, indexed, generic, properties, attributes, qualifiers⟩ =>
    everyIndexed keep p indexed && everyGeneric keep p generic &&
      everyTable keep p .all properties && everyTable keep p keep attributes &&
      everyQualifier keep p qualifiers
termination_by structural d => d

end

section Every

variable {keep : KeyFilter} {p : Value → Bool}

theorem everyElement_iff {vs : List Value} :
    everyElement keep p vs ↔ ∀ v ∈ vs, v.every keep p := by
  induction vs <;> simp [everyElement, *]

theorem everyEntry_iff {es : List (Value × Value)} :
    everyEntry keep p es ↔ ∀ e ∈ es, e.1.every keep p ∧ e.2.every keep p := by
  induction es <;> simp [everyEntry, *]

theorem everyTable_iff {admits : KeyFilter} {es : List (String × Value)} :
    everyTable keep p admits es ↔ ∀ e ∈ es, admits e.1 → e.2.every keep p := by
  induction es with
  | nil => simp [everyTable]
  | cons e es ih =>
    obtain ⟨k, v⟩ := e
    rw [everyTable, Bool.and_eq_true, ih, List.forall_mem_cons]
    cases admits k <;> simp

theorem everyArgument_eq {h : Holder} : everyArgument keep p h = h.value.every keep p := by
  cases h
  rfl

theorem everyIndexed_iff {as : List (Nat × Holder)} :
    everyIndexed keep p as ↔ ∀ a ∈ as, a.2.value.every keep p := by
  induction as <;> simp [everyIndexed, everyArgument_eq, *]

theorem everyGeneric_iff {hs : List Holder} :
    everyGeneric keep p hs ↔ ∀ h ∈ hs, h.value.every keep p := by
  induction hs <;> simp [everyGeneric, everyArgument_eq, *]

theorem everyQualifier_iff {qs : List (String × List (String × Value))} :
    everyQualifier keep p qs ↔ ∀ q ∈ qs, ∀ e ∈ q.2, e.2.every keep p := by
  induction qs with
  | nil => simp [everyQualifier]
  | cons q qs ih =>
    obtain ⟨t, es⟩ := q
    rw [everyQualifier, Bool.and_eq_true, ih, everyTable_iff, List.forall_mem_cons]
    simp [KeyFilter.all]

@[simp] theorem Value.every_atom {a : Atom} :
    (Value.atom a).every keep p = p (.atom a) := rfl

@[simp] theorem Value.every_array {c : ClassName} {vs : List Value} :
    (Value.array c vs).every keep p ↔ p (.array c vs) ∧ ∀ v ∈ vs, v.every keep p := by
  rw [Value.every, Bool.and_eq_true, everyElement_iff]

@[simp] theorem Value.every_list {k : Kind} {vs : List Value} :
    (Value.list k vs).every keep p ↔ p (.list k vs) ∧ ∀ v ∈ vs, v.every keep p := by
  rw [Value.every, Bool.and_eq_true, everyElement_iff]

@[simp] theorem Value.every_set {k : Kind} {vs : List Value} :
    (Value.set k vs).every keep p ↔ p (.set k vs) ∧ ∀ v ∈ vs, v.every keep p := by
  rw [Value.every, Bool.and_eq_true, everyElement_iff]

@[simp] theorem Value.every_map {k : Kind} {es : List (Value × Value)} :
    (Value.map k es).every keep p ↔
      p (.map k es) ∧ ∀ e ∈ es, e.1.every keep p ∧ e.2.every keep p := by
  rw [Value.every, Bool.and_eq_true, everyEntry_iff]

@[simp] theorem Value.every_bean {d : Definition} :
    (Value.bean d).every keep p ↔ p (.bean d) ∧ d.every keep p := by
  rw [Value.every, Bool.and_eq_true]

/-- A test of every value inside a definition is one of the values it holds. -/
theorem Definition.every_iff {d : Definition} :
    d.every keep p ↔ ∀ v, d.Holds keep v → v.every keep p := by
  obtain ⟨settings, indexed, generic, properties, attributes, qualifiers⟩ := d
  simp only [Definition.every, Bool.and_eq_true, everyIndexed_iff, everyGeneric_iff,
    everyTable_iff, everyQualifier_iff, Definition.holds_iff, KeyFilter.all]
  constructor
  · rintro ⟨⟨⟨⟨hi, hg⟩, hp⟩, ha⟩, hq⟩ v
    rintro (⟨a, h, rfl⟩ | ⟨a, h, rfl⟩ | ⟨e, h, rfl⟩ | ⟨e, h, hkeep, rfl⟩ | ⟨q, h, e, he, rfl⟩)
    · exact hi a h
    · exact hg a h
    · exact hp e h trivial
    · exact ha e h hkeep
    · exact hq q h e he
  · intro h
    refine ⟨⟨⟨⟨fun a ha => h _ ?_, fun a ha => h _ ?_⟩, fun e he _ => h _ ?_⟩,
      fun e he hkeep => h _ ?_⟩, fun q hq e he => h _ ?_⟩
    · exact .inl ⟨a, ha, rfl⟩
    · exact .inr (.inl ⟨a, ha, rfl⟩)
    · exact .inr (.inr (.inl ⟨e, he, rfl⟩))
    · exact .inr (.inr (.inr (.inl ⟨e, he, hkeep, rfl⟩)))
    · exact .inr (.inr (.inr (.inr ⟨q, hq, e, he, rfl⟩)))

/-- Fewer values are held where a filter rejects attributes. -/
theorem Definition.Holds.all {d : Definition} {v : Value}
    (h : d.Holds keep v) : d.Holds .all v := by
  rw [Definition.holds_iff] at h ⊢
  rcases h with h | h | h | ⟨e, he, -, rfl⟩ | h
  · exact .inl h
  · exact .inr (.inl h)
  · exact .inr (.inr (.inl h))
  · exact .inr (.inr (.inr (.inl ⟨e, he, rfl, rfl⟩)))
  · exact .inr (.inr (.inr (.inr h)))

/-- A weaker test holds where a stronger one does. -/
theorem Value.every_mono {q : Value → Bool} (hpq : ∀ v, p v → q v) {v : Value}
    (h : v.every keep p) : v.every keep q := by
  induction v with
  | atom a => exact hpq _ h
  | array c vs ih =>
    rw [every_array] at h ⊢
    exact ⟨hpq _ h.1, fun v hv => ih v hv (h.2 v hv)⟩
  | list k vs ih =>
    rw [every_list] at h ⊢
    exact ⟨hpq _ h.1, fun v hv => ih v hv (h.2 v hv)⟩
  | set k vs ih =>
    rw [every_set] at h ⊢
    exact ⟨hpq _ h.1, fun v hv => ih v hv (h.2 v hv)⟩
  | map k es ih =>
    rw [every_map] at h ⊢
    exact ⟨hpq _ h.1, fun e he => ⟨(ih e he).1 (h.2 e he).1, (ih e he).2 (h.2 e he).2⟩⟩
  | bean d ih =>
    rw [every_bean, Definition.every_iff] at h ⊢
    exact ⟨hpq _ h.1, fun v hv => ih v hv.all (h.2 v hv)⟩

theorem Definition.every_mono {q : Value → Bool} (hpq : ∀ v, p v → q v) {d : Definition}
    (h : d.every keep p) : d.every keep q :=
  every_iff.mpr fun v hv => Value.every_mono hpq (every_iff.mp h v hv)

end Every

/-! ### Well-formedness -/

/-- Nothing is repeated in the parts of a definition, and positional arguments ascend. -/
structure Definition.Distinct (d : Definition) : Prop where
  indexed : (d.indexed.map Prod.fst).Pairwise (· < ·)
  generic : d.generic.Pairwise fun g h => ¬ g == h
  properties : (Table.keys d.properties).Nodup
  attributes : (Table.keys d.attributes).Nodup
  qualifiers : (Table.keys d.qualifiers).Nodup
  qualifierAttributes : ∀ q ∈ d.qualifiers, (Table.keys q.2).Nodup

instance (d : Definition) : Decidable d.Distinct :=
  decidable_of_iff
    ((d.indexed.map Prod.fst).Pairwise (· < ·) ∧ (d.generic.Pairwise fun g h => ¬ g == h) ∧
      (Table.keys d.properties).Nodup ∧ (Table.keys d.attributes).Nodup ∧
      (Table.keys d.qualifiers).Nodup ∧ ∀ q ∈ d.qualifiers, (Table.keys q.2).Nodup)
    ⟨fun ⟨a, b, c, d, e, f⟩ => ⟨a, b, c, d, e, f⟩, fun ⟨a, b, c, d, e, f⟩ => ⟨a, b, c, d, e, f⟩⟩

/-- Nothing is repeated at the outermost level of a value. -/
def Value.Distinct : Value → Prop
  | .set _ vs => vs.Pairwise fun v w => ¬ v == w
  | .map _ es => es.Pairwise fun e f => ¬ e.1 == f.1
  | .bean d => d.Distinct
  | .atom _ | .array _ _ | .list _ _ => True

instance : DecidablePred Value.Distinct
  | .set _ _ | .map _ _ => inferInstanceAs (Decidable (List.Pairwise _ _))
  | .bean d => inferInstanceAs (Decidable d.Distinct)
  | .atom _ | .array _ _ | .list _ _ => inferInstanceAs (Decidable True)

/-- Nothing is repeated at any level of a value. -/
def Value.WellFormed (v : Value) : Prop :=
  v.every .all fun w => decide w.Distinct

instance (v : Value) : Decidable v.WellFormed :=
  inferInstanceAs (Decidable (_ = true))

/-- Nothing is repeated at any level of a definition. -/
def Definition.WellFormed (d : Definition) : Prop :=
  (Value.bean d).WellFormed

instance (d : Definition) : Decidable d.WellFormed :=
  inferInstanceAs (Decidable (Value.WellFormed _))

/-- Nothing is repeated at any level of an argument. -/
def Holder.WellFormed (h : Holder) : Prop :=
  h.value.WellFormed

namespace Value

@[simp] theorem wellFormed_atom {a : Atom} : (Value.atom a).WellFormed :=
  decide_eq_true_iff.mpr trivial

@[simp] theorem wellFormed_array {c : ClassName} {vs : List Value} :
    (Value.array c vs).WellFormed ↔ ∀ v ∈ vs, v.WellFormed := by
  rw [WellFormed, every_array, decide_eq_true_iff]
  exact and_iff_right trivial

@[simp] theorem wellFormed_list {k : Kind} {vs : List Value} :
    (Value.list k vs).WellFormed ↔ ∀ v ∈ vs, v.WellFormed := by
  rw [WellFormed, every_list, decide_eq_true_iff]
  exact and_iff_right trivial

@[simp] theorem wellFormed_set {k : Kind} {vs : List Value} :
    (Value.set k vs).WellFormed ↔
      (vs.Pairwise fun v w => ¬ v == w) ∧ ∀ v ∈ vs, v.WellFormed := by
  rw [WellFormed, every_set, decide_eq_true_iff]
  rfl

@[simp] theorem wellFormed_map {k : Kind} {es : List (Value × Value)} :
    (Value.map k es).WellFormed ↔
      (es.Pairwise fun e f => ¬ e.1 == f.1) ∧ ∀ e ∈ es, e.1.WellFormed ∧ e.2.WellFormed := by
  rw [WellFormed, every_map, decide_eq_true_iff]
  rfl

@[simp] theorem wellFormed_bean {d : Definition} :
    (Value.bean d).WellFormed ↔ d.WellFormed := Iff.rfl

end Value

/-- A definition is well-formed when it repeats nothing and all values that it holds are. -/
theorem Definition.wellFormed_iff {d : Definition} :
    d.WellFormed ↔ d.Distinct ∧ ∀ v, d.Holds .all v → v.WellFormed := by
  rw [Definition.WellFormed, Value.WellFormed, Value.every_bean, decide_eq_true_iff,
    Definition.every_iff]
  rfl

/-- What a well-formed definition holds is well-formed. -/
theorem Definition.WellFormed.of_holds {keep : KeyFilter} {d : Definition} {v : Value}
    (hd : d.WellFormed) (h : d.Holds keep v) : v.WellFormed :=
  (Definition.wellFormed_iff.mp hd).2 v h.all

end BeanScript
