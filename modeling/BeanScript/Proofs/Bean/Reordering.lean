import BeanScript.Proofs.Bean.Building

/-!
# Equality up to the order of tables

Properties, attributes, qualifiers and the attributes of a qualifier come in an order, which does
not count when definitions are compared. Equal definitions are those that differ in the order of
such tables only: their own ones, and those of the definitions nested in them, at any depth.

Comparing tables by look-up is no equivalence in general, since a key may be repeated. It is one
for everything that can be built, because nothing is repeated there.

## Main definitions

* `Table.Rearranged`, `Definition.Rearranged`, `Value.Rearranged` — related values in another order
* `Value.ReorderedWithin` — another order of tables down to a depth

## Main results

* `Table.same_iff_rearranged` — tables compared by look-up are rearranged
* `Value.beq_iff_reorderedWithin`, `Definition.beq_iff_reorderedWithin` — what makes them equal
* `equality_of_built` — equality of what can be built
-/

namespace BeanScript

/-! ### Tables -/

/-- Where every element of a list has a counterpart, the counterparts make up a list. -/
theorem exists_subset_forall₂ {α : Type u} {β : Type v} {R : α → β → Prop} {xs : List α}
    {ys : List β} (h : ∀ y ∈ ys, ∃ x ∈ xs, R x y) :
    ∃ xs', xs' ⊆ xs ∧ List.Forall₂ R xs' ys := by
  induction ys with
  | nil => exact ⟨[], List.nil_subset xs, .nil⟩
  | cons y ys ih =>
    obtain ⟨⟨x, hx, hxy⟩, hys⟩ := List.forall_mem_cons.mp h
    obtain ⟨xs', hsub, hxs'⟩ := ih hys
    exact ⟨x :: xs', List.cons_subset.mpr ⟨hx, hsub⟩, .cons hxy hxs'⟩

namespace Table

variable {κ : Type u} {ν : Type v} {μ : Type w}

/-- The pairs of the first table can be put in such an order that they have the same keys as those
of the second and related values. -/
def Rearranged (R : ν → μ → Prop) (s : Table κ ν) (t : Table κ μ) : Prop :=
  ∃ s', s.Perm s' ∧ List.Forall₂ (fun e f => e.1 = f.1 ∧ R e.2 f.2) s' t

theorem Rearranged.imp_of_mem {R S : ν → μ → Prop} {s : Table κ ν} {t : Table κ μ}
    (h : Rearranged R s t) (hRS : ∀ e ∈ s, ∀ f ∈ t, R e.2 f.2 → S e.2 f.2) :
    Rearranged S s t := by
  obtain ⟨s', hperm, hpairs⟩ := h
  refine ⟨s', hperm, forall₂_imp_of_mem hpairs fun e he f hf ⟨hkey, hR⟩ => ⟨hkey, ?_⟩⟩
  exact hRS e (hperm.mem_iff.mpr he) f hf hR

variable [BEq κ] [LawfulBEq κ]

/-- With distinct keys, tables that are the same by look-up differ in their order only. -/
theorem same_iff_rearranged {R : ν → μ → Prop} {s : Table κ ν} {t : Table κ μ}
    (hs : (keys s).Nodup) (ht : (keys t).Nodup) : Same R s t ↔ Rearranged R s t := by
  constructor
  · intro h
    -- the pairs of the first table, in the order of their keys in the second one
    have hfind : ∀ f ∈ t, ∃ e ∈ s, e.1 = f.1 ∧ R e.2 f.2 := by
      intro f hf
      have hflip := h.flip_of_mem (S := fun w v => R v w) hs ht fun _ _ _ _ hR => hR
      obtain ⟨v, hv, hR⟩ := hflip.2 f hf
      exact ⟨(f.1, v), mem_of_get? hv, rfl, hR⟩
    obtain ⟨s', hsub, hpairs⟩ := exists_subset_forall₂ hfind
    have hkeys : keys s' = keys t :=
      List.forall₂_eq_eq_eq ▸ List.forall₂_map_left_iff.mpr
        (List.forall₂_map_right_iff.mpr (hpairs.imp fun _ _ hef => hef.1))
    have hnodup : s'.Nodup := .of_map Prod.fst (hkeys ▸ ht : (keys s').Nodup)
    have hlength : s.length ≤ s'.length := Nat.le_of_eq (h.1.trans hpairs.length_eq.symm)
    exact ⟨s', ((List.subperm_of_subset hnodup hsub).perm_of_length_le hlength).symm, hpairs⟩
  · rintro ⟨s', hperm, hpairs⟩
    have hs' : (keys s').Nodup := (hperm.map Prod.fst).nodup_iff.mp hs
    exact (same_of_forall₂ hs' hpairs).of_perm_left hperm.symm

end Table

/-! ### Definitions -/

/-- Definitions with the same settings and with related values, where the order of arguments counts
and the order of tables does not. -/
structure Definition.Rearranged (R : Value → Value → Prop) (d e : Definition) : Prop where
  settings : d.settings = e.settings
  indexed : List.Forall₂ (fun a b => a.1 = b.1 ∧ a.2.Related R b.2) d.indexed e.indexed
  generic : List.Forall₂ (Holder.Related R) d.generic e.generic
  properties : Table.Rearranged R d.properties e.properties
  attributes : Table.Rearranged R d.attributes e.attributes
  qualifiers : Table.Rearranged (Table.Rearranged R) d.qualifiers e.qualifiers

/-- Definitions that repeat nothing have related values key by key when they have them in some
order. -/
theorem Definition.related_iff_rearranged {R : Value → Value → Prop} {d e : Definition}
    (hd : d.Distinct) (he : e.Distinct) : d.Related R e ↔ d.Rearranged R e := by
  have hqualifiers : Table.Same (Table.Same R) d.qualifiers e.qualifiers ↔
      Table.Rearranged (Table.Rearranged R) d.qualifiers e.qualifiers := by
    rw [← Table.same_iff_rearranged hd.qualifiers he.qualifiers]
    have hattributes : ∀ q ∈ d.qualifiers, ∀ r ∈ e.qualifiers,
        (Table.Same R q.2 r.2 ↔ Table.Rearranged R q.2 r.2) := fun q hq r hr =>
      Table.same_iff_rearranged (hd.qualifierAttributes q hq) (he.qualifierAttributes r hr)
    exact ⟨fun h => h.imp_of_mem fun q hq r hr => (hattributes q hq r hr).mp,
      fun h => h.imp_of_mem fun q hq r hr => (hattributes q hq r hr).mpr⟩
  have hproperties := Table.same_iff_rearranged (R := R) hd.properties he.properties
  have hattributes := Table.same_iff_rearranged (R := R) hd.attributes he.attributes
  constructor
  · rintro ⟨hs, hi, hg, hp, ha, hq⟩
    exact ⟨hs, hi, hg, hproperties.mp hp, hattributes.mp ha, hqualifiers.mp hq⟩
  · rintro ⟨hs, hi, hg, hp, ha, hq⟩
    exact ⟨hs, hi, hg, hproperties.mpr hp, hattributes.mpr ha, hqualifiers.mpr hq⟩

/-- Whether definitions are rearranged depends only on how the values that they hold are related. -/
theorem Definition.Rearranged.imp_of_holds {R S : Value → Value → Prop} {d e : Definition}
    (h : d.Rearranged R e)
    (hRS : ∀ v, d.Holds .all v → ∀ w, e.Holds .all w → R v w → S v w) : d.Rearranged S e where
  settings := h.settings
  indexed := forall₂_imp_of_mem h.indexed fun _ ha _ hb ⟨hi, hR, hh⟩ =>
    ⟨hi, hRS _ (holds_indexed ha) _ (holds_indexed hb) hR, hh⟩
  generic := forall₂_imp_of_mem h.generic fun _ ha _ hb ⟨hR, hh⟩ =>
    ⟨hRS _ (holds_generic ha) _ (holds_generic hb) hR, hh⟩
  properties := h.properties.imp_of_mem fun _ ha _ hb =>
    hRS _ (holds_property ha) _ (holds_property hb)
  attributes := h.attributes.imp_of_mem fun _ ha _ hb =>
    hRS _ (holds_attribute ha) _ (holds_attribute hb)
  qualifiers := h.qualifiers.imp_of_mem fun _ hq _ hr hR => hR.imp_of_mem fun _ ha _ hb =>
    hRS _ (holds_qualifier hq ha) _ (holds_qualifier hr hb)

/-! ### Values -/

namespace Value

/-- Values of one form with related parts, where the order of the tables of a definition does not
count. -/
inductive Rearranged (R : Value → Value → Prop) : Value → Value → Prop
  | atom (a : Atom) : Rearranged R (.atom a) (.atom a)
  | array {c : ClassName} {vs ws : List Value} (h : List.Forall₂ R vs ws) :
    Rearranged R (.array c vs) (.array c ws)
  | list {k : Kind} {vs ws : List Value} (h : List.Forall₂ R vs ws) :
    Rearranged R (.list k vs) (.list k ws)
  | set {k : Kind} {vs ws : List Value} (h : List.Forall₂ R vs ws) :
    Rearranged R (.set k vs) (.set k ws)
  | map {k : Kind} {es fs : List (Value × Value)}
    (h : List.Forall₂ (fun e f => R e.1 f.1 ∧ R e.2 f.2) es fs) :
    Rearranged R (.map k es) (.map k fs)
  | bean {d e : Definition} (h : d.Rearranged R e) : Rearranged R (.bean d) (.bean e)

/-- The values become the same by putting tables in another order, at most so deep inside. -/
def ReorderedWithin : Nat → Value → Value → Prop
  | 0 => Eq
  | depth + 1 => Rearranged (ReorderedWithin depth)

/-- What a value is made of: elements, keys and values of entries, or what a definition holds. -/
def constituents : Value → List Value
  | .atom _ => []
  | .array _ vs | .list _ vs | .set _ vs => vs
  | .map _ es => es.flatMap fun e => [e.1, e.2]
  | .bean d => (d.held .all).map Prod.snd

variable {v w : Value}

theorem WellFormed.of_mem_constituents (h : v.WellFormed) (hw : w ∈ v.constituents) :
    w.WellFormed := by
  cases v with
  | atom a => cases hw
  | array c vs => exact wellFormed_array.mp h w hw
  | list k vs => exact wellFormed_list.mp h w hw
  | set k vs => exact (wellFormed_set.mp h).2 w hw
  | map k es =>
    obtain ⟨e, he, hw⟩ := List.mem_flatMap.mp hw
    obtain ⟨hkey, hvalue⟩ := (wellFormed_map.mp h).2 e he
    rcases List.mem_pair.mp hw with rfl | rfl
    · exact hkey
    · exact hvalue
  | bean d => exact Definition.WellFormed.of_holds h hw

theorem sizeOf_lt_of_mem_constituents (hw : w ∈ v.constituents) : sizeOf w < sizeOf v := by
  have helement : ∀ vs : List Value, w ∈ vs → ∀ {n}, sizeOf vs < n → sizeOf w < n :=
    fun _ hw _ hn => Nat.lt_trans (List.sizeOf_lt_of_mem hw) hn
  cases v with
  | atom a => cases hw
  | array c vs => exact helement vs hw (by simp only [Value.array.sizeOf_spec]; omega)
  | list k vs => exact helement vs hw (by simp only [Value.list.sizeOf_spec]; omega)
  | set k vs => exact helement vs hw (by simp only [Value.set.sizeOf_spec]; omega)
  | map k es =>
    obtain ⟨⟨x, y⟩, he, hw⟩ := List.mem_flatMap.mp hw
    have := List.sizeOf_lt_of_mem he
    simp only [Prod.mk.sizeOf_spec, Value.map.sizeOf_spec] at this ⊢
    rcases List.mem_pair.mp hw with rfl | rfl <;> omega
  | bean d =>
    have := Definition.Holds.sizeOf_lt hw
    simp only [Value.bean.sizeOf_spec]
    omega

/-- Whether values are rearranged depends only on how their constituents are related. -/
theorem Rearranged.imp_of_mem {R S : Value → Value → Prop} (h : Rearranged R v w)
    (hRS : ∀ x ∈ v.constituents, ∀ y ∈ w.constituents, R x y → S x y) : Rearranged S v w := by
  cases h with
  | atom a => exact .atom a
  | array hs => exact .array (forall₂_imp_of_mem hs hRS)
  | list hs => exact .list (forall₂_imp_of_mem hs hRS)
  | set hs => exact .set (forall₂_imp_of_mem hs hRS)
  | @map k es fs hs =>
    have hkey : ∀ {es : List (Value × Value)} {e}, e ∈ es → e.1 ∈ (Value.map k es).constituents :=
      fun he => List.mem_flatMap.mpr ⟨_, he, List.mem_cons_self⟩
    have hvalue : ∀ {es : List (Value × Value)} {e}, e ∈ es → e.2 ∈ (Value.map k es).constituents :=
      fun he => List.mem_flatMap.mpr ⟨_, he, List.mem_cons_of_mem _ List.mem_cons_self⟩
    exact .map (forall₂_imp_of_mem hs fun e he f hf ⟨hj, hx⟩ =>
      ⟨hRS _ (hkey he) _ (hkey hf) hj, hRS _ (hvalue he) _ (hvalue hf) hx⟩)
  | bean hs => exact .bean (hs.imp_of_holds hRS)

/-- Equality of values, one level down. -/
theorem beq_iff_rearranged (hv : v.WellFormed) (hw : w.WellFormed) :
    v == w ↔ Rearranged (fun x y => x == y) v w := by
  constructor
  · intro h
    cases v with
    | atom a => obtain rfl := atom_beq.mp h; exact .atom a
    | array c vs => obtain ⟨ws, rfl, hs⟩ := array_beq.mp h; exact .array hs
    | list k vs => obtain ⟨ws, rfl, hs⟩ := list_beq.mp h; exact .list hs
    | set k vs => obtain ⟨ws, rfl, hs⟩ := set_beq.mp h; exact .set hs
    | map k es => obtain ⟨fs, rfl, hs⟩ := map_beq.mp h; exact .map hs
    | bean d =>
      obtain ⟨e, rfl, hde⟩ := bean_beq.mp h
      have hd := (Definition.wellFormed_iff.mp hv).1
      have he := (Definition.wellFormed_iff.mp hw).1
      exact .bean ((Definition.related_iff_rearranged hd he).mp (Definition.beq_iff.mp hde))
  · intro h
    cases h with
    | atom a => exact atom_beq.mpr rfl
    | array hs => exact array_beq.mpr ⟨_, rfl, hs⟩
    | list hs => exact list_beq.mpr ⟨_, rfl, hs⟩
    | set hs => exact set_beq.mpr ⟨_, rfl, hs⟩
    | map hs => exact map_beq.mpr ⟨_, rfl, hs⟩
    | bean hs =>
      have hd := (Definition.wellFormed_iff.mp hv).1
      have he := (Definition.wellFormed_iff.mp hw).1
      exact bean_beq.mpr ⟨_, rfl, Definition.beq_iff.mpr
        ((Definition.related_iff_rearranged hd he).mpr hs)⟩

/-- Another order of tables, at whatever depth, makes no difference to equality. -/
theorem beq_of_reorderedWithin {depth : Nat} (hv : v.WellFormed) (hw : w.WellFormed)
    (h : v.ReorderedWithin depth w) : v == w := by
  induction depth generalizing v w with
  | zero =>
    obtain rfl : v = w := h
    exact beq_self hv
  | succ depth ih =>
    refine (beq_iff_rearranged hv hw).mpr (Rearranged.imp_of_mem h fun x hx y hy => ?_)
    exact ih (hv.of_mem_constituents hx) (hw.of_mem_constituents hy)

/-- Equal values differ in the order of tables no deeper than they are big. -/
theorem reorderedWithin_of_beq {depth : Nat} (hdepth : sizeOf v ≤ depth) (hv : v.WellFormed)
    (hw : w.WellFormed) (h : v == w) : v.ReorderedWithin depth w := by
  induction depth generalizing v w with
  | zero =>
    cases v <;> simp at hdepth
  | succ depth ih =>
    refine ((beq_iff_rearranged hv hw).mp h).imp_of_mem fun x hx y hy => ih ?_
      (hv.of_mem_constituents hx) (hw.of_mem_constituents hy)
    have := sizeOf_lt_of_mem_constituents hx
    omega

theorem beq_iff_reorderedWithin (hv : v.WellFormed) (hw : w.WellFormed) :
    v == w ↔ ∃ depth, v.ReorderedWithin depth w :=
  ⟨fun h => ⟨_, reorderedWithin_of_beq (Nat.le_refl _) hv hw h⟩,
    fun ⟨_, h⟩ => beq_of_reorderedWithin hv hw h⟩

end Value

namespace Definition

variable {d e : Definition}

/-- Equality of definitions, one level down. -/
theorem beq_iff_rearranged (hd : d.WellFormed) (he : e.WellFormed) :
    d == e ↔ d.Rearranged (fun v w => v == w) e := by
  rw [beq_iff]
  exact related_iff_rearranged (wellFormed_iff.mp hd).1 (wellFormed_iff.mp he).1

theorem beq_iff_reorderedWithin (hd : d.WellFormed) (he : e.WellFormed) :
    d == e ↔ ∃ depth, d.Rearranged (Value.ReorderedWithin depth) e := by
  constructor
  · intro h
    have hreordered : (Value.bean d).ReorderedWithin (sizeOf (Value.bean d) + 1) (.bean e) :=
      Value.reorderedWithin_of_beq (Nat.le_succ _) hd he h
    cases hreordered with
    | bean h => exact ⟨_, h⟩
  · rintro ⟨depth, h⟩
    have hreordered : (Value.bean d).ReorderedWithin (depth + 1) (.bean e) := .bean h
    exact Value.beq_of_reorderedWithin hd he hreordered

end Definition

/-- Equality of what can be built is an equivalence. Definitions are equal when they hold equal
values in whatever order their tables have, and it is only the order of tables that equal ones can
differ in, their own or those of definitions nested at some depth. -/
theorem equality_of_built :
    Equivalence (fun v w : { v : Value // v.Built } => v.1 == w.1) ∧
    Equivalence (fun d e : { d : Definition // d.Built } => d.1 == e.1) ∧
    ∀ d e : { d : Definition // d.Built },
      (d.1 == e.1 ↔ d.1.Rearranged (fun v w => v == w) e.1) ∧
      (d.1 == e.1 ↔ ∃ depth, d.1.Rearranged (Value.ReorderedWithin depth) e.1) := by
  refine ⟨⟨fun v => ?_, fun {v w} h => ?_, fun h h' => Value.beq_trans h h'⟩,
    ⟨fun d => ?_, fun {d e} h => ?_, fun {d e f} h h' => ?_⟩, fun d e => ⟨?_, ?_⟩⟩
  · exact Value.beq_self v.2.wellFormed
  · exact Value.beq_symm v.2.wellFormed w.2.wellFormed h
  · exact Value.beq_self d.2.wellFormed
  · exact Value.beq_symm d.2.wellFormed e.2.wellFormed h
  · exact Value.beq_trans (v := .bean d.1) (w := .bean e.1) (x := .bean f.1) h h'
  · exact Definition.beq_iff_rearranged d.2.wellFormed e.2.wellFormed
  · exact Definition.beq_iff_reorderedWithin d.2.wellFormed e.2.wellFormed

/-- Where a key is repeated, which nothing that is built can do, equality depends on the side. -/
example :
    let d : Definition := { properties := [("a", .null), ("a", .null)] }
    let e : Definition := { properties := [("a", .null), ("b", .null)] }
    d == e ∧ ¬ e == d := by
  decide

end BeanScript
