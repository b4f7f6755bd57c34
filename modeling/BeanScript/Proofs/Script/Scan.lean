import BeanScript.Proofs.Bean.Nesting
import BeanScript.Proofs.Script.Names

/-!
# Scanning for nested definitions

A scan goes through the occurrences of nested definitions in order. At a definition that has no
method yet, it names one and goes on inside; a definition that has its method is passed over, and
so is everything inside it. Nothing is missed by this, because what is inside an equal definition
was named when that one was.

## Main definitions

* `Definition.occurrences` — the nested definitions with the names of their positions
* `NestedMethods.visit` — what a scan does at an occurrence
* `NestedMethods.Sound` — different names for different definitions
* `NestedMethods.Scans` — what a scan adds

## Main results

* `NestedMethods.scan_eq` — a scan visits the occurrences in turn
* `NestedMethods.sound_ofDefinition`, `NestedMethods.scans_ofDefinition`
* `NestedMethods.nameFor?_definition` — a method is found by its definition
-/

namespace BeanScript

namespace Definition

variable {keep : KeyFilter}

/-! ### Occurrences -/

/-- The definitions nested in a definition, each with the name of its position. -/
def occurrences (keep : KeyFilter) (d : Definition) : List (String × Definition) :=
  (d.held keep).flatMap fun e => e.2.beans.map (e.1, ·)

theorem map_snd_occurrences {d : Definition} :
    (d.occurrences keep).map Prod.snd = d.beans keep := by
  simp [occurrences, beans, List.map_flatMap, Function.comp_def]

theorem mem_beans_of_mem_occurrences {d : Definition} {o : String × Definition}
    (h : o ∈ d.occurrences keep) : o.2 ∈ d.beans keep :=
  map_snd_occurrences ▸ List.mem_map_of_mem h

end Definition

namespace NestedMethods

variable {keep : KeyFilter} {t t' : NestedMethods}

/-- Visit an occurrence: unless the definition has its method, name one and go on inside. -/
def visit (keep : KeyFilter) (t : NestedMethods) (o : String × Definition) : NestedMethods :=
  if (t.nameFor? o.2).isSome then t else scan keep o.2 (t.assign o.1 o.2)

theorem scanElements_eq {position : String} {vs : List Value} :
    scanElements keep position vs t = vs.foldl (fun t v => scanValue keep position v t) t := by
  induction vs generalizing t with
  | nil => rfl
  | cons v vs ih => rw [scanElements, ih, List.foldl_cons]

theorem scanEntries_eq {position : String} {es : List (Value × Value)} :
    scanEntries keep position es t
      = es.foldl (fun t e => scanValue keep position e.2 (scanValue keep position e.1 t)) t := by
  induction es generalizing t with
  | nil => rfl
  | cons e es ih => rw [scanEntries, ih, List.foldl_cons]

/-- Scanning a value visits the definitions nested in it. -/
theorem scanValue_eq {position : String} {v : Value} :
    scanValue keep position v t = (v.beans.map (position, ·)).foldl (visit keep) t := by
  have helements : ∀ {vs : List Value},
      (∀ v ∈ vs, ∀ t, scanValue keep position v t
        = (v.beans.map (position, ·)).foldl (visit keep) t) → ∀ t,
      scanElements keep position vs t
        = ((vs.flatMap Value.beans).map (position, ·)).foldl (visit keep) t := by
    intro vs ih t
    rw [scanElements_eq, List.map_flatMap, List.foldl_flatMap]
    exact List.foldl_ext _ _ _ fun t v hv => ih v hv t
  induction v generalizing t with
  | atom a => rfl
  | array c vs ih => rw [Value.beans_array]; exact helements (fun v hv t => ih v hv) t
  | list k vs ih => rw [Value.beans_list]; exact helements (fun v hv t => ih v hv) t
  | set k vs ih => rw [Value.beans_set]; exact helements (fun v hv t => ih v hv) t
  | map k es ih =>
    rw [scanValue, scanEntries_eq, Value.beans_map, List.map_flatMap, List.foldl_flatMap]
    refine List.foldl_ext _ _ _ fun t e he => ?_
    rw [(ih e he).1, (ih e he).2, List.map_append, List.foldl_append]
  | bean d => rfl

/-- Scan a value at the position of the given name. -/
abbrev scanAt (keep : KeyFilter) (t : NestedMethods) (e : String × Value) : NestedMethods :=
  scanValue keep e.1 e.2 t

theorem scanHolder_eq {position : String} {h : Holder} :
    scanHolder keep position h t = scanAt keep t (position, h.value) := by
  cases h
  rfl

theorem scanIndexed_eq {as : List (Nat × Holder)} :
    scanIndexed keep as t
      = (as.map fun a => (indexedPosition a.1, a.2.value)).foldl (scanAt keep) t := by
  induction as generalizing t with
  | nil => rfl
  | cons a as ih => rw [scanIndexed, ih, scanHolder_eq, List.map_cons, List.foldl_cons]

theorem scanGeneric_eq {hs : List Holder} {number : Nat} :
    scanGeneric keep number hs t
      = ((hs.zipIdx number).map fun a => (genericPosition a.2 a.1, a.1.value)).foldl
          (scanAt keep) t := by
  induction hs generalizing t number with
  | nil => rfl
  | cons h hs ih =>
    rw [scanGeneric, ih, scanHolder_eq, List.zipIdx_cons, List.map_cons, List.foldl_cons]

theorem scanTable_eq {admits : KeyFilter} {es : List (String × Value)} :
    scanTable keep admits es t = (es.filter fun e => admits e.1).foldl (scanAt keep) t := by
  induction es generalizing t with
  | nil => rfl
  | cons e es ih =>
    obtain ⟨key, v⟩ := e
    rw [scanTable, ih, List.filter_cons]
    split <;> rfl

theorem scanTable_all {es : List (String × Value)} :
    scanTable keep (fun _ => true) es t = es.foldl (scanAt keep) t := by
  rw [scanTable_eq, List.filter_eq_self.mpr fun _ _ => rfl]

theorem scanQualifiers_eq {qs : List (String × List (String × Value))} :
    scanQualifiers keep qs t = (qs.flatMap Prod.snd).foldl (scanAt keep) t := by
  induction qs generalizing t with
  | nil => rfl
  | cons q qs ih =>
    obtain ⟨type, es⟩ := q
    rw [scanQualifiers, ih, scanTable_all, List.flatMap_cons, List.foldl_append]

/-- A scan visits the occurrences in turn. -/
theorem scan_eq {d : Definition} :
    scan keep d t = (d.occurrences keep).foldl (visit keep) t := by
  have hheld : scan keep d t = (d.held keep).foldl (scanAt keep) t := by
    obtain ⟨settings, indexed, generic, properties, attributes, qualifiers⟩ := d
    rw [scan, scanQualifiers_eq, scanTable_eq, scanTable_all, scanGeneric_eq, scanIndexed_eq,
      Definition.held]
    simp only [List.foldl_append]
  rw [hheld, Definition.occurrences, List.foldl_flatMap]
  exact List.foldl_ext _ _ _ fun t e _ => scanValue_eq

/-! ### Known definitions -/

/-- A definition has its method. -/
def Knows (t : NestedMethods) (d : Definition) : Prop :=
  ∃ n ∈ t.list, n.definition == d

theorem isSome_nameFor?_iff {d : Definition} : (t.nameFor? d).isSome ↔ t.Knows d := by
  rw [nameFor?, Option.isSome_map, List.find?_isSome]
  rfl

/-- The name found for a definition is that of a method made for an equal one. -/
theorem exists_of_nameFor? {d : Definition} {name : String} (h : t.nameFor? d = some name) :
    ∃ n ∈ t.list, n.definition == d ∧ n.name = name := by
  obtain ⟨n, hn, rfl⟩ := Option.map_eq_some_iff.mp h
  have heq := List.find?_some (p := fun n : NestedMethod => n.definition == d) hn
  exact ⟨n, List.mem_of_find?_eq_some hn, heq, rfl⟩

theorem Knows.mono {d : Definition} (h : t.Knows d) (hlist : t.list <+: t'.list) : t'.Knows d := by
  obtain ⟨n, hn, hnd⟩ := h
  exact ⟨n, hlist.subset hn, hnd⟩

theorem mem_assign {position : String} {d : Definition} {n : NestedMethod} :
    n ∈ (t.assign position d).list ↔ n ∈ t.list ∨
      n = { name := firstFree t.names (methodName position), definition := d } := by
  simp [assign]

theorem knows_assign {position : String} {d : Definition} (hd : d.WellFormed) :
    (t.assign position d).Knows d :=
  ⟨_, mem_assign.mpr (.inr rfl), (Definition.Equiv.refl hd).beq⟩

/-! ### What a scan keeps and adds -/

/-- The methods have different names and were made for different definitions. -/
structure Sound (t : NestedMethods) : Prop where
  names : t.names.Nodup
  numbered : ∀ n ∈ t.list, ∃ position k, n.name = numbered (methodName position) k
  definitions : t.list.Pairwise fun n m => ¬ n.definition == m.definition

theorem Sound.of_list_eq_nil (h : t.list = []) : t.Sound where
  names := by rw [NestedMethods.names, h]; exact List.nodup_nil
  numbered := by rw [h]; exact List.forall_mem_nil _
  definitions := by rw [h]; exact .nil

theorem Sound.assign (ht : t.Sound) (position : String) {d : Definition} (hd : ¬ t.Knows d) :
    (t.assign position d).Sound where
  names := by
    have hfree := firstFree_not_mem t.names (methodName position)
    have hnames : (t.assign position d).names
        = t.names ++ [firstFree t.names (methodName position)] := by
      simp [NestedMethods.assign, NestedMethods.names]
    rw [hnames, List.nodup_append]
    refine ⟨ht.names, List.nodup_singleton _, ?_⟩
    rintro name hname _ hnew rfl
    exact hfree (List.mem_singleton.mp hnew ▸ hname)
  numbered := by
    intro n hn
    rcases mem_assign.mp hn with hn | rfl
    · exact ht.numbered n hn
    · obtain ⟨k, hk⟩ := exists_firstFree_eq t.names (methodName position)
      exact ⟨position, k, hk⟩
  definitions := by
    refine List.pairwise_append.mpr ⟨ht.definitions, List.pairwise_singleton _ _, ?_⟩
    intro n hn m hm
    obtain rfl := List.mem_singleton.mp hm
    exact fun hnd => hd ⟨n, hn, hnd⟩

/-- What scanning the definitions `bs` adds to the methods. -/
structure Scans (keep : KeyFilter) (bs : List Definition) (t t' : NestedMethods) : Prop where
  owner : t'.owner = t.owner
  grows : t.list <+: t'.list
  /-- All of them have their methods afterwards. -/
  knows : ∀ b ∈ bs, t'.Knows b
  /-- So have the definitions inside those that have a new method. -/
  closed : ∀ n ∈ t'.list, n ∈ t.list ∨ ∀ b ∈ n.definition.beans keep, t'.Knows b
  /-- A new method is made for one of them or for a definition inside that of another new one. -/
  origin : ∀ n ∈ t'.list, n ∈ t.list ∨ n.definition ∈ bs ∨
    ∃ m ∈ t'.list, n.definition ∈ m.definition.beans keep
  /-- A property that nested definitions inherit holds of all definitions that have methods. -/
  inherits : ∀ P : Definition → Prop, (∀ c, P c → ∀ b ∈ c.beans keep, P b) → (∀ b ∈ bs, P b) →
    (∀ n ∈ t.list, P n.definition) → ∀ n ∈ t'.list, P n.definition

theorem Scans.nil : Scans keep [] t t where
  owner := rfl
  grows := List.prefix_refl _
  knows _ hb := by cases hb
  closed _ hn := .inl hn
  origin _ hn := .inl hn
  inherits _ _ _ ht := ht

theorem Scans.append {bs cs : List Definition} {t'' : NestedMethods} (h : Scans keep bs t t')
    (h' : Scans keep cs t' t'') : Scans keep (bs ++ cs) t t'' where
  owner := h'.owner.trans h.owner
  grows := h.grows.trans h'.grows
  knows b hb := (List.mem_append.mp hb).elim (fun hb => (h.knows b hb).mono h'.grows) (h'.knows b)
  closed n hn := by
    rcases h'.closed n hn with hn | hclosed
    · exact (h.closed n hn).imp_right fun hclosed b hb => (hclosed b hb).mono h'.grows
    · exact .inr hclosed
  origin n hn := by
    rcases h'.origin n hn with hn | hn | hm
    · rcases h.origin n hn with hn | hn | ⟨m, hm, hnm⟩
      · exact .inl hn
      · exact .inr (.inl (List.mem_append_left _ hn))
      · exact .inr (.inr ⟨m, h'.grows.subset hm, hnm⟩)
    · exact .inr (.inl (List.mem_append_right _ hn))
    · exact .inr (.inr hm)
  inherits P hP hbs ht :=
    have ht' := h.inherits P hP (fun b hb => hbs b (List.mem_append_left _ hb)) ht
    h'.inherits P hP (fun b hb => hbs b (List.mem_append_right _ hb)) ht'

theorem Scans.of_knows {b : Definition} (h : t.Knows b) : Scans keep [b] t t where
  owner := rfl
  grows := List.prefix_refl _
  knows _ hc := List.mem_singleton.mp hc ▸ h
  closed _ hn := .inl hn
  origin _ hn := .inl hn
  inherits _ _ _ ht := ht

/-- Naming a method and scanning inside its definition deals with the definition. -/
theorem Scans.of_assign {position : String} {b : Definition} (hb : b.WellFormed)
    (h : Scans keep (b.beans keep) (t.assign position b) t') : Scans keep [b] t t' where
  owner := h.owner
  grows := (List.prefix_append _ _).trans h.grows
  knows _ hc := List.mem_singleton.mp hc ▸ (knows_assign hb).mono h.grows
  closed n hn := by
    rcases h.closed n hn with hn | hclosed
    · rcases mem_assign.mp hn with hn | rfl
      · exact .inl hn
      · exact .inr h.knows
    · exact .inr hclosed
  origin n hn := by
    rcases h.origin n hn with hn | hn | hm
    · rcases mem_assign.mp hn with hn | rfl
      · exact .inl hn
      · exact .inr (.inl List.mem_cons_self)
    · exact .inr (.inr ⟨_, h.grows.subset (mem_assign.mpr (.inr rfl)), hn⟩)
    · exact .inr (.inr hm)
  inherits P hP hbs ht := by
    have hnew := hbs b List.mem_cons_self
    refine h.inherits P hP (hP b hnew) fun n hn => ?_
    rcases mem_assign.mp hn with hn | rfl
    · exact ht n hn
    · exact hnew

/-- A scan keeps names and definitions apart and deals with every definition nested directly. -/
theorem scan_spec {d : Definition} {t : NestedMethods} (hd : d.WellFormed) (ht : t.Sound) :
    (scan keep d t).Sound ∧ Scans keep (d.beans keep) t (scan keep d t) := by
  -- the definitions inside are smaller
  have hvisit : ∀ o ∈ d.occurrences keep, ∀ t : NestedMethods, t.Sound →
      (visit keep t o).Sound ∧ Scans keep [o.2] t (visit keep t o) := by
    intro o ho t ht
    have hb := Definition.mem_beans_of_mem_occurrences ho
    have hsize := Definition.sizeOf_lt_of_mem_beans hb
    have hwf := hd.of_mem_beans hb
    rw [visit]
    split
    · next hknown => exact ⟨ht, .of_knows (isSome_nameFor?_iff.mp hknown)⟩
    · next hnew =>
      rw [isSome_nameFor?_iff] at hnew
      obtain ⟨hsound, hscans⟩ := scan_spec hwf (ht.assign o.1 hnew)
      exact ⟨hsound, .of_assign hwf hscans⟩
  rw [scan_eq, ← Definition.map_snd_occurrences]
  generalize d.occurrences keep = os at hvisit
  induction os generalizing t with
  | nil => exact ⟨ht, .nil⟩
  | cons o os ih =>
    rw [List.forall_mem_cons] at hvisit
    obtain ⟨hsound, hscans⟩ := hvisit.1 t ht
    obtain ⟨hsound', hscans'⟩ := ih hsound hvisit.2
    exact ⟨hsound', hscans.append hscans'⟩
termination_by sizeOf d

/-! ### The methods for a definition -/

section OfDefinition

variable {owner : ClassName} {d : Definition} (hd : d.WellFormed)

include hd

theorem sound_ofDefinition : (ofDefinition owner keep d).Sound :=
  (scan_spec hd (.of_list_eq_nil rfl)).1

theorem scans_ofDefinition :
    Scans keep (d.beans keep) { owner } (ofDefinition owner keep d) :=
  (scan_spec hd (.of_list_eq_nil rfl)).2

theorem owner_ofDefinition : (ofDefinition owner keep d).owner = owner :=
  (scans_ofDefinition hd).owner

/-- Every definition nested in the definition itself has a method. -/
theorem knows_ofDefinition {b : Definition} (hb : b ∈ d.beans keep) :
    (ofDefinition owner keep d).Knows b :=
  (scans_ofDefinition hd).knows b hb

/-- Every definition nested in one that has a method has a method. -/
theorem knows_of_mem_list {n : NestedMethod} (hn : n ∈ (ofDefinition owner keep d).list)
    {b : Definition} (hb : b ∈ n.definition.beans keep) : (ofDefinition owner keep d).Knows b :=
  ((scans_ofDefinition hd).closed n hn).resolve_left List.not_mem_nil b hb

/-- Every method is made for a definition nested in the definition itself, or in one that has a
method. -/
theorem origin_ofDefinition {n : NestedMethod} (hn : n ∈ (ofDefinition owner keep d).list) :
    n.definition ∈ d.beans keep ∨
      ∃ m ∈ (ofDefinition owner keep d).list, n.definition ∈ m.definition.beans keep :=
  ((scans_ofDefinition hd).origin n hn).resolve_left List.not_mem_nil

/-- A property that nested definitions inherit holds of all definitions that have methods. -/
theorem inherits_ofDefinition {P : Definition → Prop} (h : P d)
    (hP : ∀ c, P c → ∀ b ∈ c.beans keep, P b) {n : NestedMethod}
    (hn : n ∈ (ofDefinition owner keep d).list) : P n.definition :=
  (scans_ofDefinition hd).inherits P hP (hP d h) (List.forall_mem_nil _) n hn

theorem wellFormed_of_mem_list {n : NestedMethod} (hn : n ∈ (ofDefinition owner keep d).list) :
    n.definition.WellFormed :=
  inherits_ofDefinition hd (P := Definition.WellFormed) hd (fun _ hc _ hb => hc.of_mem_beans hb) hn

/-- A method is found by its definition. -/
theorem nameFor?_definition {n : NestedMethod} (hn : n ∈ (ofDefinition owner keep d).list) :
    (ofDefinition owner keep d).nameFor? n.definition = some n.name := by
  have hwf := wellFormed_of_mem_list hd hn
  obtain ⟨before, after, hlist⟩ := List.append_of_mem hn
  have hbefore : ∀ m ∈ before, ¬ m.definition == n.definition := by
    have hpairs : (ofDefinition owner keep d).list.Pairwise _ := (sound_ofDefinition hd).definitions
    rw [hlist, List.pairwise_append] at hpairs
    exact fun m hm => hpairs.2.2 m hm n List.mem_cons_self
  have hfirst : before.find? (·.definition == n.definition) = none := by
    simpa using hbefore
  rw [nameFor?, hlist, List.find?_append, hfirst, Option.none_or,
    List.find?_cons, (Definition.Equiv.refl hwf).beq, Option.map_some]

end OfDefinition

end NestedMethods

end BeanScript
