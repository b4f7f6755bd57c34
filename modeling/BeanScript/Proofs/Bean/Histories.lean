import BeanScript.Proofs.Bean.Building
import BeanScript.Proofs.Histories

/-!
# What a definition keeps of the edits made

Whichever edits are made on a fresh definition, and in whatever order, each of its parts is told by
the history: properties, attributes and qualifiers as tables, whose keys stand where they were first
put since they were last removed; positional arguments as the last one put at each position; generic
arguments as the first of every group of equal ones. An edit of another part changes nothing.

A qualifier is a whole thing to the edit that adds it, and it is stored by its type. So its table is
read with the whole qualifiers as values, and the history says that each stands under its own type.

## Main definitions

* `Edit.propertyChange?` and its companions — what an edit does to one part of a definition
* `Definition.qualifierTable` — the qualifiers under their types
* `Definition.Records` — every part is what the history says
* `Definition.Steady` — one further edit replaces in place, appends, or removes and keeps the rest

## Main results

* `Definition.applyAll_records` — what is built from a fresh definition records the edits made
-/

namespace BeanScript

namespace Edit

/-- The change made to the properties. -/
def propertyChange? : Edit → Option (Table.Change String Value)
  | .addProperty name v => some (.put name v)
  | .removeProperty name => some (.remove name)
  | _ => none

/-- The change made to the attributes. -/
def attributeChange? : Edit → Option (Table.Change String Value)
  | .setAttribute key v => some (.put key v)
  | .removeAttribute key => some (.remove key)
  | _ => none

/-- The change made to the qualifiers, each under its own type. -/
def qualifierChange? : Edit → Option (Table.Change String Qualifier)
  | .addQualifier q => some (.put q.typeName q)
  | _ => none

/-- The positional argument that is put. -/
def indexedArgument? : Edit → Option (Nat × Holder)
  | .addIndexed index h => some (index, h)
  | _ => none

/-- The generic argument that is added. -/
def genericArgument? : Edit → Option Holder
  | .addGeneric h => some h
  | _ => none

end Edit

namespace Holder

variable {g h i : Holder}

theorem beq_self (hh : h.WellFormed) : h == h :=
  beq_iff.mpr ⟨Value.beq_self hh, rfl, rfl⟩

theorem beq_symm (hg : g.WellFormed) (hh : h.WellFormed) (hgh : g == h) : h == g := by
  obtain ⟨hvalue, htype, hname⟩ := beq_iff.mp hgh
  exact beq_iff.mpr ⟨Value.beq_symm hg hh hvalue, htype.symm, hname.symm⟩

theorem beq_trans (hgh : g == h) (hhi : h == i) : g == i := by
  obtain ⟨hvalue, htype, hname⟩ := beq_iff.mp hgh
  obtain ⟨hvalue', htype', hname'⟩ := beq_iff.mp hhi
  exact beq_iff.mpr ⟨Value.beq_trans hvalue hvalue', htype.trans htype', hname.trans hname'⟩

end Holder

namespace Definition

/-- The qualifiers, each under its type. -/
def qualifierTable (d : Definition) : Table String Qualifier :=
  d.qualifierList.map fun q => (q.typeName, q)

/-- Every part of the definition is what the history of edits says. -/
structure Records (d : Definition) (es : List Edit) : Prop where
  properties : Table.Follows d.properties (es.filterMap Edit.propertyChange?)
  attributes : Table.Follows d.attributes (es.filterMap Edit.attributeChange?)
  qualifiers : Table.Follows d.qualifierTable (es.filterMap Edit.qualifierChange?)
  qualifier?_eq : ∀ type, d.qualifier? type = Table.get? d.qualifierTable type
  typeName_of_qualifier? : ∀ type q, d.qualifier? type = some q → q.typeName = type
  indexed_ascending : d.indexed.Pairwise fun a b => a.1 < b.1
  mem_indexed_iff : ∀ a, a ∈ d.indexed ↔ d.indexed? a.1 = some a.2
  indexed?_eq : ∀ i, d.indexed? i
    = ((es.filterMap Edit.indexedArgument?).filter (·.1 == i)).getLast?.map Prod.snd
  generic : Distinct.Follows (· == ·) d.generic (es.filterMap Edit.genericArgument?)
  generic_unequal : d.generic.Pairwise fun g h => ¬ g == h ∧ ¬ h == g

/-- One further edit replaces in place, appends, or removes and keeps the order of the rest. -/
structure Steady (d : Definition) : Prop where
  properties : ∀ e, Table.keys (d.apply e).properties
    = e.propertyChange?.elim (Table.keys d.properties) (·.keysAfter (Table.keys d.properties))
  attributes : ∀ e, Table.keys (d.apply e).attributes
    = e.attributeChange?.elim (Table.keys d.attributes) (·.keysAfter (Table.keys d.attributes))
  qualifiers : ∀ e, Table.keys (d.apply e).qualifierTable
    = e.qualifierChange?.elim (Table.keys d.qualifierTable)
      (·.keysAfter (Table.keys d.qualifierTable))

/-! ### One edit, part by part -/

variable (d : Definition) (e : Edit)

theorem properties_apply :
    (d.apply e).properties = e.propertyChange?.elim d.properties (·.make d.properties) := by
  cases e <;> rfl

theorem attributes_apply :
    (d.apply e).attributes = e.attributeChange?.elim d.attributes (·.make d.attributes) := by
  cases e <;> rfl

theorem indexed_apply :
    (d.apply e).indexed
      = e.indexedArgument?.elim d.indexed fun a => Ascending.put Prod.fst a d.indexed := by
  cases e <;> rfl

theorem generic_apply :
    (d.apply e).generic
      = e.genericArgument?.elim d.generic (Distinct.add (· == ·) d.generic) := by
  cases e <;> rfl

theorem qualifierTable_eq :
    d.qualifierTable = d.qualifiers.map fun e => (e.1, { typeName := e.1, attributes := e.2 }) := by
  simp [qualifierTable, qualifierList]

theorem keys_qualifierTable : Table.keys d.qualifierTable = Table.keys d.qualifiers := by
  simp [qualifierTable_eq, Table.keys]

theorem get?_qualifierTable (type : String) :
    Table.get? d.qualifierTable type = d.qualifier? type := by
  rw [qualifierTable_eq, qualifier?]
  induction d.qualifiers with
  | nil => rfl
  | cons q qs ih =>
    rw [List.map_cons, Table.get?_cons, Table.get?_cons, ih]
    by_cases htype : q.1 = type
    · simp [htype]
    · simp [htype]

/-- Storing the attributes of a qualifier under its type stores the whole qualifier there. -/
theorem qualifierTable_apply :
    (d.apply e).qualifierTable
      = e.qualifierChange?.elim d.qualifierTable (·.make d.qualifierTable) := by
  cases e with
  | addQualifier q =>
    change (apply d (.addQualifier q)).qualifierTable = Table.put d.qualifierTable q.typeName q
    rw [qualifierTable_eq, qualifierTable_eq, apply]
    induction d.qualifiers with
    | nil => rfl
    | cons r rs ih =>
      rw [List.map_cons, Table.put_cons, Table.put_cons, ← ih]
      by_cases htype : r.1 = q.typeName
      · simp [htype]
      · simp [htype]
  | _ => rfl

variable {d} in
/-- A qualifier is stored under its own type. -/
theorem typeName_of_qualifier? {type : String} {q : Qualifier} (h : d.qualifier? type = some q) :
    q.typeName = type := by
  obtain ⟨attributes, -, rfl⟩ := Option.map_eq_some_iff.mp h
  rfl

variable {d} in
/-- Positions that ascend hold one argument each. -/
theorem mem_indexed_iff (h : d.indexed.Pairwise fun a b => a.1 < b.1) (a : Nat × Holder) :
    a ∈ d.indexed ↔ d.indexed? a.1 = some a.2 := by
  rw [indexed?, Option.map_eq_some_iff]
  constructor
  · exact fun ha => ⟨a, (Ascending.find?_eq_some_iff h).mpr ⟨ha, rfl⟩, rfl⟩
  · rintro ⟨b, hb, hba⟩
    obtain ⟨hmem, hkey⟩ := (Ascending.find?_eq_some_iff h).mp hb
    have hab : a = b := Prod.ext hkey.symm hba.symm
    rwa [hab]

/-! ### The whole history -/

/-- A part that every edit changes by itself is what the changes to it lead to. -/
theorem part_applyAll {σ : Type u} {γ : Type v} (part : Definition → σ) (read : Edit → Option γ)
    (change : σ → γ → σ)
    (hstep : ∀ d e, part (apply d e) = (read e).elim (part d) (change (part d))) (d : Definition)
    (es : List Edit) : part (d.applyAll es) = (es.filterMap read).foldl change (part d) := by
  induction es generalizing d with
  | nil => rfl
  | cons e es ih =>
    have htail := ih (d.apply e)
    rw [hstep] at htail
    rw [applyAll, List.foldl_cons, ← applyAll, htail, List.filterMap_cons]
    cases read e <;> rfl

variable {d} in
/-- A well-formed definition is steady. -/
theorem WellFormed.steady (hd : d.WellFormed) : d.Steady := by
  have hdistinct := (wellFormed_iff.mp hd).1
  refine ⟨fun e => ?_, fun e => ?_, fun e => ?_⟩
  · rw [properties_apply]
    cases e.propertyChange? with
    | none => rfl
    | some c => exact Table.keys_make hdistinct.properties c
  · rw [attributes_apply]
    cases e.attributeChange? with
    | none => rfl
    | some c => exact Table.keys_make hdistinct.attributes c
  · rw [qualifierTable_apply]
    cases e.qualifierChange? with
    | none => rfl
    | some c => exact Table.keys_make (keys_qualifierTable d ▸ hdistinct.qualifiers) c

/-- What is built from the empty definition records the edits made. -/
theorem records_of_empty {es : List Edit} (hes : ∀ e ∈ es, e.WellFormed) :
    (({} : Definition).applyAll es).Records es := by
  have hwell : (({} : Definition).applyAll es).WellFormed := wellFormed_fresh.applyAll hes
  obtain ⟨hdistinct, -, hgeneric, -⟩ := wellFormed_iff_parts.mp hwell
  have hproperties := part_applyAll properties Edit.propertyChange? Table.Change.make
    properties_apply {} es
  have hattributes := part_applyAll attributes Edit.attributeChange? Table.Change.make
    attributes_apply {} es
  have hqualifiers := part_applyAll qualifierTable Edit.qualifierChange? Table.Change.make
    qualifierTable_apply {} es
  have hindexed := part_applyAll indexed Edit.indexedArgument?
    (fun l a => Ascending.put Prod.fst a l) indexed_apply {} es
  have hadds := part_applyAll generic Edit.genericArgument? (Distinct.add (· == ·))
    generic_apply {} es
  have hadded : ∀ h ∈ es.filterMap Edit.genericArgument?, h.WellFormed := by
    intro h hh
    obtain ⟨e, he, heh⟩ := List.mem_filterMap.mp hh
    cases e <;> cases heh
    exact hes _ he
  have hascending : (({} : Definition).applyAll es).indexed.Pairwise fun a b => a.1 < b.1 :=
    List.pairwise_map.mp hdistinct.indexed
  refine
    { properties := hproperties ▸ Table.follows_after _
      attributes := hattributes ▸ Table.follows_after _
      qualifiers := hqualifiers ▸ Table.follows_after _
      qualifier?_eq := fun type => (get?_qualifierTable _ type).symm
      typeName_of_qualifier? := fun _ _ => typeName_of_qualifier?
      indexed_ascending := hascending
      mem_indexed_iff := mem_indexed_iff hascending
      indexed?_eq := fun i => ?_
      generic := hadds ▸ Distinct.follows_ofList (fun _ _ _ => Holder.beq_trans) fun h hh => ?_
      generic_unequal := ?_ }
  · rw [indexed?, hindexed, ← Ascending.find?_foldl_put]
  · exact Holder.beq_self (hadded h hh)
  · refine hdistinct.generic.imp_of_mem fun {g h} hg hh hne => ⟨hne, fun hhg => hne ?_⟩
    exact Holder.beq_symm (hgeneric h hh) (hgeneric g hg) hhg

/-- Whatever edits are made on a fresh definition, with or without a bean class, each part of it is
what the history says, and one further edit is steady. -/
theorem applyAll_records {start : Definition}
    (hstart : start = {} ∨ ∃ type, start = ofClass type) {es : List Edit}
    (hes : ∀ e ∈ es, e.WellFormed) :
    (start.applyAll es).Records es ∧ (start.applyAll es).Steady := by
  rcases hstart with rfl | ⟨type, rfl⟩
  · exact ⟨records_of_empty hes, (wellFormed_fresh.applyAll hes).steady⟩
  · -- the bean class is one more edit, which none of the parts sees
    have hall : ∀ e ∈ Edit.setBeanClass type :: es, e.WellFormed :=
      List.forall_mem_cons.mpr ⟨trivial, hes⟩
    have hrecords : ((ofClass type).applyAll es).Records (.setBeanClass type :: es) :=
      records_of_empty hall
    exact ⟨{ hrecords with }, (wellFormed_fresh.applyAll hall).steady⟩

/-- A run that replaces in every part, and removes properties and attributes to put them again. -/
theorem applyAll_records_again :
    let text (s : String) : Holder := { value := .string s }
    let es : List Edit :=
      [.addProperty "a" .null, .addProperty "b" .null, .setAttribute "k" .null, .setPrimary true,
        .addProperty "a" (.string "x"), .removeProperty "a", .addProperty "a" .null,
        .setAttribute "l" .null, .setAttribute "k" (.string "y"), .removeAttribute "k",
        .addQualifier (.ofValue "A" .null), .addQualifier { typeName := "B" },
        .addQualifier { typeName := "A" }, .addIndexed 2 (text "p"), .addIndexed 0 (text "q"),
        .addIndexed 2 (text "r"), .addGeneric (text "s"), .addGeneric (text "t"),
        .addGeneric (text "s")]
    let d := (ofClass ⟨"com.example.Service"⟩).applyAll es
    (d.Records es ∧ d.Steady) ∧ Table.keys d.properties = ["b", "a"] ∧
      Table.keys d.attributes = ["l"] ∧ Table.keys d.qualifiers = ["A", "B"] ∧
      d.indexed.map Prod.fst = [0, 2] ∧ d.generic.length = 2 := by
  intro text es d
  have hes : ∀ e ∈ es, e.WellFormed := by
    simp [es, text, Edit.WellFormed, Holder.WellFormed, Value.null, Value.string, Value.literal,
      Qualifier.ofValue, Qualifier.setAttribute, Table.put, Table.keys]
  exact ⟨applyAll_records (.inr ⟨_, rfl⟩) hes, by decide⟩

end Definition

end BeanScript
