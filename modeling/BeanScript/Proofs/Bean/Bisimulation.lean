import BeanScript.Proofs.Bean.Nesting

/-!
# Bisimulations of values

What generation makes of a value depends on the value only up to equality: up to the order of
tables, at any depth, and regardless of the attributes that a filter rejects. Statements of this
kind compare two runs, on values that are related but not the same. They need only this much of the
relation: it relates values of one shape with related parts, and it does not tell equal values
apart.

A relation of this kind is a *bisimulation*. Equality of well-formed values is one.

## Main definitions

* `Definition.kept` — a definition without its rejected attributes
* `Value.Alike` — values of one shape, with related parts
* `Value.Bisimulation` — a relation between values that are alike, in the relation itself

## Main results

* `Value.Bisimulation.ofEquiv` — equality is a bisimulation
* `Value.Bisimulation.flip` — the other direction of a bisimulation is one
* `Value.Bisimulation.beans`, `Value.Bisimulation.exists_mem_beans` — related nested definitions
* `Value.Bisimulation.every` — a test of every value inside holds of both sides
-/

namespace BeanScript

namespace Definition

variable {keep : KeyFilter} {d : Definition}

/-- The definition without the attributes that `keep` rejects. Those of the definitions nested in it
stay. -/
def kept (keep : KeyFilter) (d : Definition) : Definition :=
  { d with attributes := d.attributes.filter fun e => keep e.1 }

theorem holds_kept {v : Value} : (d.kept keep).Holds .all v ↔ d.Holds keep v := by
  simp [holds_iff, kept, KeyFilter.all, and_assoc]

theorem Distinct.kept (hd : d.Distinct) (keep : KeyFilter) : (d.kept keep).Distinct :=
  { hd with attributes := Table.nodup_keys_filter _ hd.attributes }

/-- Equal definitions have equal values outside rejected attributes. -/
theorem Equiv.related_kept {e : Definition} (h : d.Equiv e) (keep : KeyFilter) :
    (d.kept keep).Related Value.Equiv (e.kept keep) :=
  have hd := (wellFormed_iff.mp h.left).1
  have he := (wellFormed_iff.mp h.right).1
  { h.related with attributes := h.related.attributes.filter hd.attributes he.attributes keep }

end Definition

namespace Value

/-- The values are of one shape, and their parts are related. Rejected attributes do not count. -/
inductive Alike (keep : KeyFilter) (R : Value → Value → Prop) : Value → Value → Prop
  | atom (a : Atom) : Alike keep R (.atom a) (.atom a)
  | array {c : ClassName} {vs ws : List Value} (h : List.Forall₂ R vs ws) :
    Alike keep R (.array c vs) (.array c ws)
  | list {k : Kind} {vs ws : List Value} (h : List.Forall₂ R vs ws) :
    Alike keep R (.list k vs) (.list k ws)
  | set {k : Kind} {vs ws : List Value} (h : List.Forall₂ R vs ws) :
    Alike keep R (.set k vs) (.set k ws)
  | map {k : Kind} {es fs : List (Value × Value)}
    (h : List.Forall₂ (fun e f => R e.1 f.1 ∧ R e.2 f.2) es fs) :
    Alike keep R (.map k es) (.map k fs)
  | bean {d e : Definition} (h : (d.kept keep).Related R (e.kept keep)) :
    Alike keep R (.bean d) (.bean e)

/-- The parts of well-formed values are well-formed. -/
theorem Alike.of_wellFormed {keep : KeyFilter} {R S : Value → Value → Prop} {v w : Value}
    (h : Alike keep R v w) (hv : v.WellFormed) (hw : w.WellFormed)
    (hS : ∀ {v w}, v.WellFormed → w.WellFormed → R v w → S v w) : Alike keep S v w := by
  have helements : ∀ {vs ws : List Value}, List.Forall₂ R vs ws → (∀ v ∈ vs, v.WellFormed) →
      (∀ w ∈ ws, w.WellFormed) → List.Forall₂ S vs ws :=
    fun hs hvs hws => forall₂_imp_of_mem hs fun v hv w hw hvw => hS (hvs v hv) (hws w hw) hvw
  cases h with
  | atom a => exact .atom a
  | array hs => exact .array (helements hs (wellFormed_array.mp hv) (wellFormed_array.mp hw))
  | list hs => exact .list (helements hs (wellFormed_list.mp hv) (wellFormed_list.mp hw))
  | set hs => exact .set (helements hs (wellFormed_set.mp hv).2 (wellFormed_set.mp hw).2)
  | map hs =>
    have hes := (wellFormed_map.mp hv).2
    have hfs := (wellFormed_map.mp hw).2
    exact .map (forall₂_imp_of_mem hs fun e he f hf hef =>
      ⟨hS (hes e he).1 (hfs f hf).1 hef.1, hS (hes e he).2 (hfs f hf).2 hef.2⟩)
  | bean hs =>
    exact .bean (hs.imp_of_holds fun v hv' w hw' hvw =>
      hS (Definition.WellFormed.of_holds hv (Definition.holds_kept.mp hv'))
        (Definition.WellFormed.of_holds hw (Definition.holds_kept.mp hw')) hvw)

/-- Related values are well-formed and alike, and equal values are related alike. -/
structure Bisimulation (keep : KeyFilter) (R : Value → Value → Prop) : Prop where
  wellFormed {v w : Value} : R v w → v.WellFormed ∧ w.WellFormed
  alike {v w : Value} : R v w → Alike keep R v w
  congr {v w x y : Value} : v.Equiv w → R w x → x.Equiv y → R v y

namespace Bisimulation

variable {keep : KeyFilter} {R : Value → Value → Prop} {v w : Value} {d e : Definition}

/-- Equality of well-formed values is a bisimulation. -/
theorem ofEquiv (keep : KeyFilter) : Bisimulation keep Value.Equiv where
  wellFormed h := ⟨h.left, h.right⟩
  alike {v w} h := by
    have helements : ∀ {vs ws : List Value}, (∀ v ∈ vs, v.WellFormed) → (∀ w ∈ ws, w.WellFormed) →
        List.Forall₂ (fun v w => v == w) vs ws → List.Forall₂ Value.Equiv vs ws :=
      fun hvs hws hs => forall₂_imp_of_mem hs fun v hv w hw hvw => ⟨hvs v hv, hws w hw, hvw⟩
    obtain ⟨hv, hw, hvw⟩ := h
    cases v with
    | atom a => obtain rfl := atom_beq.mp hvw; exact .atom a
    | array c vs =>
      obtain ⟨ws, rfl, hs⟩ := array_beq.mp hvw
      exact .array (helements (wellFormed_array.mp hv) (wellFormed_array.mp hw) hs)
    | list k vs =>
      obtain ⟨ws, rfl, hs⟩ := list_beq.mp hvw
      exact .list (helements (wellFormed_list.mp hv) (wellFormed_list.mp hw) hs)
    | set k vs =>
      obtain ⟨ws, rfl, hs⟩ := set_beq.mp hvw
      exact .set (helements (wellFormed_set.mp hv).2 (wellFormed_set.mp hw).2 hs)
    | map k es =>
      obtain ⟨fs, rfl, hs⟩ := map_beq.mp hvw
      have hes := (wellFormed_map.mp hv).2
      have hfs := (wellFormed_map.mp hw).2
      exact .map (forall₂_imp_of_mem hs fun e he f hf hef =>
        ⟨⟨(hes e he).1, (hfs f hf).1, hef.1⟩, (hes e he).2, (hfs f hf).2, hef.2⟩)
    | bean d =>
      obtain ⟨e, rfl, -⟩ := bean_beq.mp hvw
      exact .bean (Definition.Equiv.related_kept ⟨hv, hw, hvw⟩ keep)
  congr h h' h'' := (h.trans h').trans h''

theorem related (hR : Bisimulation keep R) (h : R (.bean d) (.bean e)) :
    (d.kept keep).Related R (e.kept keep) := by
  cases hR.alike h with
  | bean h => exact h

theorem distinct (hR : Bisimulation keep R) (h : R (.bean d) (.bean e)) :
    d.Distinct ∧ e.Distinct :=
  ⟨(Definition.wellFormed_iff.mp (hR.wellFormed h).1).1,
    (Definition.wellFormed_iff.mp (hR.wellFormed h).2).1⟩

/-- The other direction of a bisimulation. -/
theorem flip (hR : Bisimulation keep R) : Bisimulation keep fun v w => R w v where
  wellFormed h := (hR.wellFormed h).symm
  alike h := by
    cases hR.alike h with
    | atom a => exact .atom a
    | array hs => exact .array hs.flip
    | list hs => exact .list hs.flip
    | set hs => exact .set hs.flip
    | map hs => exact .map hs.flip
    | bean hs =>
      obtain ⟨hd, he⟩ := hR.distinct h
      exact .bean (hs.flip_of_holds (hd.kept keep) (he.kept keep) fun _ _ _ _ hvw => hvw)
  congr h h' h'' := hR.congr h''.symm h' h.symm

/-- Related values nest related definitions. -/
theorem beans (hR : Bisimulation keep R) (h : R v w) :
    List.Forall₂ (fun b c => R (.bean b) (.bean c)) v.beans w.beans := by
  have helements : ∀ {vs ws : List Value},
      (∀ v ∈ vs, ∀ w, R v w → List.Forall₂ (fun b c => R (.bean b) (.bean c)) v.beans w.beans) →
      List.Forall₂ R vs ws → List.Forall₂ (fun b c => R (.bean b) (.bean c))
        (vs.flatMap Value.beans) (ws.flatMap Value.beans) := fun ih hs =>
    List.rel_flatMap (forall₂_imp_of_mem hs fun v hv w _ hvw => ih v hv w hvw) fun _ _ hvw => hvw
  induction v generalizing w with
  | atom a => cases hR.alike h; exact .nil
  | array c vs ih =>
    cases hR.alike h with
    | array hs =>
      rw [beans_array, beans_array]
      exact helements (fun v hv w => ih v hv) hs
  | list k vs ih =>
    cases hR.alike h with
    | list hs =>
      rw [beans_list, beans_list]
      exact helements (fun v hv w => ih v hv) hs
  | set k vs ih =>
    cases hR.alike h with
    | set hs =>
      rw [beans_set, beans_set]
      exact helements (fun v hv w => ih v hv) hs
  | map k es ih =>
    cases hR.alike h with
    | map hs =>
      rw [beans_map, beans_map]
      refine List.rel_flatMap (forall₂_imp_of_mem hs fun e he f _ hef => ?_) fun _ _ hef => hef
      exact List.rel_append ((ih e he).1 hef.1) ((ih e he).2 hef.2)
  | bean d =>
    cases hR.alike h with
    | bean _ => exact .cons h .nil

/-- A value held by one of two related definitions is related to one held by the other. -/
theorem exists_holds (hR : Bisimulation keep R) (h : R (.bean d) (.bean e)) (hv : d.Holds keep v) :
    ∃ w, e.Holds keep w ∧ R v w := by
  obtain ⟨w, hw, hvw⟩ := (hR.related h).holds (Definition.holds_kept.mpr hv)
  exact ⟨w, Definition.holds_kept.mp hw, hvw⟩

/-- A definition nested in one of two related definitions is related to one nested in the other. -/
theorem exists_mem_beans (hR : Bisimulation keep R) (h : R (.bean d) (.bean e)) {b : Definition}
    (hb : b ∈ d.beans keep) : ∃ c ∈ e.beans keep, R (.bean b) (.bean c) := by
  obtain ⟨v, hv, hb⟩ := Definition.mem_beans_iff.mp hb
  obtain ⟨w, hw, hvw⟩ := hR.exists_holds h hv
  obtain ⟨c, hc, hbc⟩ := exists_of_forall₂ (hR.beans hvw) hb
  exact ⟨c, Definition.mem_beans_iff.mpr ⟨w, hw, hc⟩, hbc⟩

/-- A test that related values pass alike, made of every value inside, is passed alike. -/
theorem every (hR : Bisimulation keep R) {p : Value → Bool} (hp : ∀ v w, R v w → p v → p w)
    (h : R v w) (hv : v.every keep p) : w.every keep p := by
  have helements : ∀ {vs ws : List Value},
      (∀ v ∈ vs, ∀ w, R v w → v.every keep p → w.every keep p) → List.Forall₂ R vs ws →
      (∀ v ∈ vs, v.every keep p) → ∀ w ∈ ws, w.every keep p := by
    intro vs ws ih hs hvs w hw
    obtain ⟨v, hv, hvw⟩ := exists_of_forall₂ hs.flip hw
    exact ih v hv w hvw (hvs v hv)
  induction v generalizing w with
  | atom a => cases hR.alike h; exact hv
  | array c vs ih =>
    cases hR.alike h with
    | array hs =>
      rw [every_array] at hv ⊢
      exact ⟨hp _ _ h hv.1, helements (fun v hv w => ih v hv) hs hv.2⟩
  | list k vs ih =>
    cases hR.alike h with
    | list hs =>
      rw [every_list] at hv ⊢
      exact ⟨hp _ _ h hv.1, helements (fun v hv w => ih v hv) hs hv.2⟩
  | set k vs ih =>
    cases hR.alike h with
    | set hs =>
      rw [every_set] at hv ⊢
      exact ⟨hp _ _ h hv.1, helements (fun v hv w => ih v hv) hs hv.2⟩
  | map k es ih =>
    cases hR.alike h with
    | map hs =>
      rw [every_map] at hv ⊢
      refine ⟨hp _ _ h hv.1, fun f hf => ?_⟩
      obtain ⟨e, he, hef⟩ := exists_of_forall₂ hs.flip hf
      exact ⟨(ih e he).1 hef.1 (hv.2 e he).1, (ih e he).2 hef.2 (hv.2 e he).2⟩
  | bean d ih =>
    cases hR.alike h with
    | bean hs =>
      rw [every_bean, Definition.every_iff] at hv ⊢
      refine ⟨hp _ _ h hv.1, fun w hw => ?_⟩
      obtain ⟨v, hv', hvw⟩ := hR.flip.exists_holds h hw
      exact ih v hv'.all hvw (hv.2 v hv')

end Bisimulation

end Value

end BeanScript
