import BeanScript.Proofs.Bean.Pruned
import BeanScript.Proofs.Script.Listing
import BeanScript.Proofs.Script.Setters

/-!
# The fault of a batch

A batch that cannot be written fails with the first fault that comes up. What comes first is decided
by the order of the parts of a definition, and then by the order of the methods, and a method is
written only for the first of several equal definitions. Yet the fault does not depend on who shares
a method with whom. Equal definitions may have different faults, but they have one or none together,
so a definition that was passed over never has the first fault. The fault of a batch is the first
one in the listing of all occurrences.

Neither does it matter how nested definitions are supplied, or what attributes they have that are
rejected.

## Main definitions

* `faultOf?` — the fault of a result
* `Resolver.placeholder` — supplies every nested definition with `null`
* `Definition.fault?` — the first fault of a definition, nested ones apart

## Main results

* `Script.Context.faultOf?_statements` — the fault of a script
* `Definition.fault?_pruned` — rejected attributes have no fault
* `Value.Bisimulation.fault?_eq_none` — related definitions have a fault or none together
* `Generator.Coherent.faultOf?_batch` — the fault of a batch
-/

namespace BeanScript

/-! ### Results and their faults -/

section FaultOf

variable {α β : Type u} {ε : Type v}

/-- The fault of a result, where it is one. -/
def faultOf? : Except ε α → Option ε
  | .error e => some e
  | .ok _ => none

theorem faultOf?_eq_none_iff {r : Except ε α} : faultOf? r = none ↔ ∃ a, r = .ok a := by
  cases r <;> simp [faultOf?]

theorem faultOf?_eq_some_iff {r : Except ε α} {e : ε} : faultOf? r = some e ↔ r = .error e := by
  cases r <;> simp [faultOf?]

@[simp] theorem faultOf?_map (r : Except ε α) (f : α → β) : faultOf? (r.map f) = faultOf? r := by
  cases r <;> rfl

theorem faultOf?_bind {r : Except ε α} {f : α → Except ε β} {fault : Option ε}
    (h : ∀ a, faultOf? (f a) = fault) : faultOf? (r >>= f) = (faultOf? r).or fault := by
  cases r with
  | error e => rfl
  | ok a => exact h a

/-- Steps in turn have the first fault of a step. -/
@[simp] theorem faultOf?_mapM {l : List α} {f : α → Except ε β} :
    faultOf? (l.mapM f) = l.findSome? fun a => faultOf? (f a) := by
  induction l with
  | nil => rfl
  | cons a l ih =>
    rw [mapM_cons_eq, List.findSome?_cons]
    cases f a with
    | error e => rfl
    | ok b => exact (faultOf?_map _ _).trans ih

end FaultOf

theorem findSome?_congr_of_mem {α : Type u} {β : Type v} {f g : α → Option β} {l : List α}
    (h : ∀ a ∈ l, f a = g a) : l.findSome? f = l.findSome? g := by
  induction l with
  | nil => rfl
  | cons a l ih =>
    rw [List.forall_mem_cons] at h
    rw [List.findSome?_cons, List.findSome?_cons, h.1, ih h.2]

/-- Leaving out an element for an equivalent one before it does not change what is found first. -/
theorem Distinct.findSome?_ofList {α : Type u} {β : Type v} {same : α → α → Bool}
    {f : α → Option β} {l : List α}
    (h : ∀ a ∈ l, ∀ b ∈ l, same a b → f a = none → f b = none) :
    (ofList same l).findSome? f = l.findSome? f := by
  induction l using List.reverseRecOn with
  | nil => rfl
  | append_singleton l b ih =>
    have hl : (ofList same l).findSome? f = l.findSome? f := ih fun a ha c hc =>
      h a (List.mem_append_left _ ha) c (List.mem_append_left _ hc)
    rw [ofList, List.foldl_concat, ← ofList, List.findSome?_append]
    by_cases hany : (ofList same l).any (same · b)
    · rw [add_of_any hany, hl]
      cases hfind : l.findSome? f with
      | some c => rfl
      | none =>
        -- nothing has been found yet, so neither is there anything in `b`
        obtain ⟨a, ha, hab⟩ := List.any_eq_true.mp hany
        have hmem := mem_of_mem_ofList ha
        have hb := h a (List.mem_append_left _ hmem) b
          (List.mem_append_right _ (List.mem_singleton_self b)) hab
          (List.findSome?_eq_none_iff.mp hfind a hmem)
        simp [hb]
    · rw [add_of_not_any hany, List.findSome?_append, hl]

/-! ### Values -/

/-- The resolver that supplies every nested definition with `null`, and nothing else. -/
def Resolver.placeholder : Resolver := fun _ v =>
  match v with
  | .bean _ => some .null
  | _ => none

theorem Resolver.suppliesOnly_placeholder (bs : List Definition) :
    Resolver.placeholder.SuppliesOnly bs where
  bean _ _ _ := ⟨_, rfl⟩
  other _ _ := rfl

namespace Value

variable {keep : KeyFilter} {resolve : Resolver} {name : String}

@[simp] theorem isCollection_pruned {v : Value} : (v.pruned keep).isCollection = v.isCollection := by
  cases v <;> rfl

@[simp] theorem kindName_pruned {v : Value} : (v.pruned keep).kindName = v.kindName := by
  cases v with
  | list k vs => cases k <;> rfl
  | set k vs => cases k <;> rfl
  | map k es => cases k <;> rfl
  | _ => rfl

/-- The fault of a map entry: of its key, and then of its value. -/
theorem faultOf?_encodeEntry {e : Value × Value} : faultOf? (encodeEntry resolve name e)
    = if e.1.isCollection then some (.unsupportedMapKey name e.1.kindName)
      else (faultOf? (e.1.encode resolve name)).or (faultOf? (e.2.encode resolve name)) := by
  rw [encodeEntry]
  split
  · rfl
  · exact faultOf?_bind fun _ => faultOf?_map _ _

/-- What supplies the nested definitions does not matter for the fault of a value, and neither do
their rejected attributes. -/
theorem faultOf?_encode {v : Value} (h : resolve.SuppliesOnly v.beans) :
    faultOf? (v.encode resolve name) = faultOf? ((v.pruned keep).encode .placeholder name) := by
  have helements : ∀ {vs : List Value}, (∀ v ∈ vs, resolve.SuppliesOnly v.beans →
        faultOf? (v.encode resolve name) = faultOf? ((v.pruned keep).encode .placeholder name)) →
      resolve.SuppliesOnly (vs.flatMap beans) →
      (vs.findSome? fun v => faultOf? (v.encode resolve name))
        = (vs.map (·.pruned keep)).findSome? fun v => faultOf? (v.encode .placeholder name) := by
    intro vs ih h
    rw [List.findSome?_map]
    exact findSome?_congr_of_mem fun v hv => ih v hv
      ⟨fun b hb => h.bean b (List.mem_flatMap.mpr ⟨v, hv, hb⟩), h.other⟩
  induction v with
  | atom a =>
    cases a with
    | literal l => cases l <;> rfl
    | instanceOf type =>
      rw [pruned_atom, encode, encode, Atom.encode, Atom.encode, h.other]
      rfl
    | _ => rfl
  | array c vs ih =>
    rw [pruned_array, encode_array, encode_array, faultOf?_map, faultOf?_map, faultOf?_mapM,
      faultOf?_mapM]
    exact helements ih (beans_array ▸ h)
  | list k vs ih =>
    rw [pruned_list, encode_list, encode_list, faultOf?_map, faultOf?_map, faultOf?_mapM,
      faultOf?_mapM]
    exact helements ih (beans_list ▸ h)
  | set k vs ih =>
    rw [pruned_set, encode_set, encode_set, faultOf?_map, faultOf?_map, faultOf?_mapM,
      faultOf?_mapM]
    exact helements ih (beans_set ▸ h)
  | map k es ih =>
    rw [beans_map] at h
    rw [pruned_map, encode_map, encode_map, faultOf?_map, faultOf?_map, faultOf?_mapM,
      faultOf?_mapM, List.findSome?_map]
    refine findSome?_congr_of_mem fun e he => ?_
    have hsupplies : ∀ b ∈ e.1.beans ++ e.2.beans, ∀ name, ∃ x, resolve name (.bean b) = some x :=
      fun b hb => h.bean b (List.mem_flatMap.mpr ⟨e, he, hb⟩)
    rw [List.forall_mem_append] at hsupplies
    rw [Function.comp_apply, faultOf?_encodeEntry, faultOf?_encodeEntry, isCollection_pruned,
      kindName_pruned, (ih e he).1 ⟨hsupplies.1, h.other⟩, (ih e he).2 ⟨hsupplies.2, h.other⟩]
  | bean d =>
    obtain ⟨e, he⟩ := h.bean d (List.mem_singleton_self d) name
    rw [encode, he]
    rfl

end Value

/-! ### Parts and definitions -/

namespace Part

variable {keep : KeyFilter} {resolve : Resolver} {p : Part}

/-- The part without rejected attributes. -/
def pruned (keep : KeyFilter) : Part → Part
  | .indexed index argument => .indexed index (argument.pruned keep)
  | .generic number argument => .generic number (argument.pruned keep)
  | .property name v => .property name (v.pruned keep)
  | .metadata key v => .metadata key (v.pruned keep)
  | .qualifier q => .qualifier
    { q with attributes := q.attributes.map fun e => (e.1, e.2.pruned keep) }

@[simp] theorem fault?_pruned : (p.pruned keep).fault? = p.fault? := by
  cases p <;> rfl

@[simp] theorem values_pruned :
    (p.pruned keep).values = p.values.map fun e => (e.1, e.2.pruned keep) := by
  cases p with
  | qualifier q =>
    simp only [pruned, values, Qualifier.inOrder, Qualifier.primary, Qualifier.value?,
      Qualifier.attribute?, Qualifier.further, Table.get?_map, List.filter_map, List.map_append]
    cases Table.get? q.attributes Qualifier.valueKey <;> rfl
  | indexed index argument => cases argument; rfl
  | generic number argument => cases argument; rfl
  | _ => rfl

/-- The first fault of a part, nested definitions apart. -/
def firstFault? (resolve : Resolver) (p : Part) : Option EncodeError :=
  p.fault?.or (p.values.findSome? fun e => faultOf? (e.2.encode resolve e.1))

theorem firstFault?_eq (h : ∀ e ∈ p.values, resolve.SuppliesOnly e.2.beans) :
    p.firstFault? resolve = (p.pruned keep).firstFault? .placeholder := by
  rw [firstFault?, firstFault?, fault?_pruned, values_pruned, List.findSome?_map]
  congr 1
  exact findSome?_congr_of_mem fun e he => Value.faultOf?_encode (h e he)

end Part

namespace Definition

variable {keep : KeyFilter} {d : Definition}

/-- The first fault of a definition, nested definitions apart. -/
def fault? (keep : KeyFilter) (d : Definition) : Option EncodeError :=
  (d.parts keep).findSome? (Part.firstFault? .placeholder)

theorem parts_pruned : (d.pruned keep).parts keep = (d.parts keep).map (Part.pruned keep) := by
  rw [parts, filter_attributes_pruned, pruned_eq, parts]
  simp only [List.map_append, List.map_map, List.zipIdx_map, qualifierList, Function.comp_def,
    Prod.map_fst, Prod.map_snd, id_eq, Part.pruned]

/-- Rejected attributes have no fault. -/
theorem fault?_pruned : (d.pruned keep).fault? keep = d.fault? keep := by
  rw [fault?, parts_pruned, List.findSome?_map, fault?]
  exact findSome?_congr_of_mem fun p _ =>
    (Part.firstFault?_eq fun e _ => Resolver.suppliesOnly_placeholder e.2.beans).symm

theorem fault?_eq_none_iff (hd : d.Distinct) : d.fault? keep = none ↔ (Value.bean d).isWritable ∧
    ∀ e ∈ d.held keep, faultOf? (e.2.encode .placeholder e.1) = none := by
  have hvalues : (∀ p ∈ d.parts keep, ∀ e ∈ p.values,
        faultOf? (e.2.encode .placeholder e.1) = none) ↔
      ∀ e ∈ d.held keep, faultOf? (e.2.encode .placeholder e.1) = none := by
    have hperm : List.Perm _ (d.held keep) := perm_values_parts hd
    rw [← List.forall_mem_flatMap]
    exact forall_congr' fun e => by rw [hperm.mem_iff]
  simp only [fault?, List.findSome?_eq_none_iff, Part.firstFault?, Option.or_eq_none_iff,
    forall₂_and, Part.fault?_eq_none_iff, hvalues]

end Definition

namespace Script.Context

/-- A statement fails for the first fault of its part. -/
theorem faultOf?_write (c : Script.Context) (p : Part) :
    faultOf? (c.write p) = p.firstFault? c.resolve := by
  rw [write_eq, Part.firstFault?]
  cases p.fault? with
  | some fault => rfl
  | none => simp [encodeEntryAt]

/-- A script fails for the first fault of a part. -/
theorem faultOf?_statements_eq (c : Script.Context) (d : Definition) :
    faultOf? (c.statements d) = (d.parts c.keep).findSome? (Part.firstFault? c.resolve) := by
  rw [statements_eq, faultOf?_map, faultOf?_mapM]
  exact findSome?_congr_of_mem fun p _ => c.faultOf?_write p

/-- The fault of a script is that of the definition, however nested definitions are supplied. -/
theorem faultOf?_statements {c : Script.Context} {d : Definition}
    (h : c.resolve.SuppliesOnly (d.beans c.keep)) :
    faultOf? (c.statements d) = d.fault? c.keep := by
  rw [faultOf?_statements_eq, ← Definition.fault?_pruned, Definition.fault?,
    Definition.parts_pruned, List.findSome?_map]
  refine findSome?_congr_of_mem fun p hp => ?_
  refine Part.firstFault?_eq fun e he => ⟨fun b hb => h.bean b ?_, h.other⟩
  exact Definition.mem_beans_iff.mpr ⟨e.2, Definition.holds_of_mem_parts hp he, hb⟩

end Script.Context

namespace Value.Bisimulation

variable {keep : KeyFilter} {R : Value → Value → Prop} {v w : Value} {d e : Definition}

/-- Related values have a fault or none together, at whatever positions. -/
theorem faultOf?_encode_eq_none (hR : Bisimulation keep R) (h : R v w) {name name' : String}
    (hv : faultOf? (v.encode .placeholder name) = none) :
    faultOf? (w.encode .placeholder name') = none := by
  have helements : ∀ {vs ws : List Value},
      (∀ v ∈ vs, ∀ w, R v w → faultOf? (v.encode .placeholder name) = none →
        faultOf? (w.encode .placeholder name') = none) → List.Forall₂ R vs ws →
      (∀ v ∈ vs, faultOf? (v.encode .placeholder name) = none) →
      ∀ w ∈ ws, faultOf? (w.encode .placeholder name') = none := by
    intro vs ws ih hs hvs w hw
    obtain ⟨v, hv, hvw⟩ := exists_of_forall₂ hs.flip hw
    exact ih v hv w hvw (hvs v hv)
  induction v generalizing w with
  | atom a =>
    cases hR.alike h
    rw [encode, faultOf?_eq_none_iff, Atom.exists_encode_iff fun _ => rfl] at hv ⊢
    exact hv
  | array c vs ih =>
    cases hR.alike h with
    | array hs =>
      simp only [encode_array, faultOf?_map, faultOf?_mapM, List.findSome?_eq_none_iff] at hv ⊢
      exact helements (fun v hv w => ih v hv) hs hv
  | list k vs ih =>
    cases hR.alike h with
    | list hs =>
      simp only [encode_list, faultOf?_map, faultOf?_mapM, List.findSome?_eq_none_iff] at hv ⊢
      exact helements (fun v hv w => ih v hv) hs hv
  | set k vs ih =>
    cases hR.alike h with
    | set hs =>
      simp only [encode_set, faultOf?_map, faultOf?_mapM, List.findSome?_eq_none_iff] at hv ⊢
      exact helements (fun v hv w => ih v hv) hs hv
  | map k es ih =>
    cases hR.alike h with
    | map hs =>
      simp only [encode_map, faultOf?_map, faultOf?_mapM, List.findSome?_eq_none_iff,
        faultOf?_encodeEntry] at hv ⊢
      intro f hf
      obtain ⟨e, he, hkey, hvalue⟩ := exists_of_forall₂ hs.flip hf
      have hentry := hv e he
      rw [(hR.alike hkey).isCollection] at hentry
      split at hentry
      · cases hentry
      next hcollection =>
      rw [if_neg hcollection, Option.or_eq_none_iff]
      rw [Option.or_eq_none_iff] at hentry
      exact ⟨(ih e he).1 hkey hentry.1, (ih e he).2 hvalue hentry.2⟩
  | bean d =>
    cases hR.alike h
    rfl

/-- Related definitions have a fault or none together. -/
theorem fault?_eq_none (hR : Bisimulation keep R) (h : R (.bean d) (.bean e))
    (hd : d.fault? keep = none) : e.fault? keep = none := by
  obtain ⟨hdistinct, hdistinct'⟩ := hR.distinct h
  rw [Definition.fault?_eq_none_iff hdistinct] at hd
  rw [Definition.fault?_eq_none_iff hdistinct']
  refine ⟨hR.isWritable _ _ h hd.1, fun f hf => ?_⟩
  obtain ⟨v, hv, hvf⟩ := hR.flip.exists_holds h (List.mem_map_of_mem hf)
  obtain ⟨p, hp, rfl⟩ := List.mem_map.mp hv
  exact hR.faultOf?_encode_eq_none hvf (hd.2 p hp)

end Value.Bisimulation

/-! ### Batches -/

namespace Generator

variable {g : Generator} {d : Definition}

/-- Without a resolver of its own, a generator fails for the first fault in the listing, or not at
all. -/
theorem Coherent.faultOf?_batch (hg : g.Coherent) (hresolve : g.resolve = .empty)
    (hd : d.WellFormed) : faultOf? (g.batch d).1
      = (d :: (d.listing g.keep).map Prod.snd).findSome? (Definition.fault? g.keep) := by
  have hstatements : ∀ u, g.Writes d u →
      faultOf? ((g.context (g.batchResolver d) u).statements u) = u.fault? g.keep := by
    intro u hu
    have hfits : (g.context (g.batchResolver d) u).Fits g (g.batchResolver d) :=
      (SameChoices.refl g).fits u
    have hsupplies := supplies_batchResolver hresolve hd fun _ => hu.knows hd
    rw [← hfits.keep, Script.Context.faultOf?_statements]
    rwa [hfits.keep, hfits.resolve]
  have hmethods : ((g.nested d).list.findSome? fun n =>
        faultOf? ((g.context (g.batchResolver d) n.definition).statements n.definition))
      = ((g.nested d).list.map NestedMethod.definition).findSome? (Definition.fault? g.keep) := by
    rw [List.findSome?_map]
    exact findSome?_congr_of_mem fun n hn => hstatements n.definition (.inr ⟨n, hn, rfl⟩)
  have hfirsts : ((NestedMethods.firsts (d.listing g.keep)).map Prod.snd).findSome?
        (Definition.fault? g.keep)
      = ((d.listing g.keep).map Prod.snd).findSome? (Definition.fault? g.keep) := by
    have hwf : ∀ o ∈ d.listing g.keep, o.2.WellFormed := fun o ho =>
      (Definition.mem_listing_iff.mp
        (List.mem_cons_of_mem _ (List.mem_map_of_mem ho))).wellFormed hd
    rw [List.findSome?_map, List.findSome?_map, NestedMethods.firsts]
    refine Distinct.findSome?_ofList fun o ho p hp hop => ?_
    have hequiv : o.2.Equiv p.2 := ⟨hwf o ho, hwf p hp, Value.bean_beq.mpr ⟨p.2, rfl, hop⟩⟩
    exact (Value.Bisimulation.ofEquiv g.keep).fault?_eq_none hequiv
  rw [hg.batch_eq, faultOf?_bind fun _ => faultOf?_map _ _, hstatements d (.inl rfl), faultOf?_mapM]
  simp only [faultOf?_map]
  rw [hmethods, nested, NestedMethods.map_definition_ofDefinition _ hd, hfirsts,
    List.findSome?_cons]
  cases d.fault? g.keep <;> rfl

end Generator

end BeanScript
