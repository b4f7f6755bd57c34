import BeanScript.Proofs.Bean.Bisimulation
import BeanScript.Proofs.Bean.Edits
import BeanScript.Proofs.Bean.Normal
import BeanScript.Proofs.Replay.ReadBack
import BeanScript.Proofs.Replay.Scripts

/-!
# Rebuilding a definition

The edits of a script, made on a fresh definition, lead to the normal form of the definition that
the script was written for, provided that its nested definitions are rebuilt as their normal forms.
The types are not among what a script restores: they are those of the definition it starts from.

## Main definitions

* `Definition.assembled` — the definition that given settings and parts are made into

## Main results

* `Settings.applyAll_edits` — the settings that the edits lead to
* `Value.equiv_normal_of_replay` — what comes back of a value is its normal form
* `Definition.exists_of_replayEdits` — the edits of a script lead to what has come back of the parts
* `Definition.Related.equiv_assembled` — what is assembled from equal parts is equal
* `Definition.equiv_normal_of_replayEdits` — what the edits of a script lead to
* `Definition.readsBack_replayEdits` — a script fails only where a nested definition does
-/

namespace BeanScript

/-! ### Settings -/

/-- Make an edit of settings, or none. -/
def Settings.after (x : Settings) (o : Option Edit) : Definition :=
  o.elim { settings := x } (Definition.apply { settings := x })

theorem Settings.applyAll_reduceOption_cons (x : Settings) (o : Option Edit)
    (os : List (Option Edit)) :
    ({ settings := x } : Definition).applyAll (o :: os).reduceOption
      = (x.after o).applyAll os.reduceOption := by
  cases o <;> rfl

/-- The edits for settings restore them, but for lifecycle methods and types. -/
theorem Settings.applyAll_edits (s : Settings) (t : Definition) :
    (({} : Definition).withTypesOf t).applyAll s.edits =
      { settings := { s.normal with
          initMethods := none
          destroyMethods := none
          targetType := t.settings.targetType
          beanClass := t.settings.beanClass } } := by
  -- each edit restores one setting, where it has its default value
  have hprimary : ∀ x : Settings, x.primary = false →
      x.after (if s.primary then some (.setPrimary true) else none)
        = { settings := { x with primary := s.primary } } := by
    rintro ⟨⟩ rfl
    cases s.primary <;> rfl
  have hfallback : ∀ x : Settings, x.fallback = false →
      x.after (if s.fallback then some (.setFallback true) else none)
        = { settings := { x with fallback := s.fallback } } := by
    rintro ⟨⟩ rfl
    cases s.fallback <;> rfl
  have hscope : ∀ x : Settings, x.scope = "" →
      x.after (if s.scope = "" ∨ s.scope = singletonScope then none else some (.setScope s.scope))
        = { settings := { x with scope := s.normal.scope } } := by
    rintro ⟨⟩ rfl
    rw [Settings.normal]
    by_cases hempty : s.scope = ""
    · rw [if_pos (.inl hempty), hempty, ite_self]
      rfl
    · by_cases hsingleton : s.scope = singletonScope
      · rw [if_pos (.inr hsingleton), if_pos hsingleton]
        rfl
      · rw [if_neg (not_or.mpr ⟨hempty, hsingleton⟩), if_neg hsingleton]
        rfl
  have hdependsOn : ∀ x : Settings, x.dependsOn = none →
      x.after (namesEdit? .setDependsOn s.dependsOn)
        = { settings := { x with dependsOn := s.normal.dependsOn } } := by
    rintro ⟨⟩ rfl
    rw [Settings.normal]
    rcases s.dependsOn with _ | _ | _ <;> rfl
  have hlazyInit : ∀ x : Settings, x.lazyInit = none →
      x.after (s.lazyInit.map .setLazyInit)
        = { settings := { x with lazyInit := s.lazyInit } } := by
    rintro ⟨⟩ rfl
    cases s.lazyInit <;> rfl
  have hautowire : ∀ x : Settings, x.autowireCandidate = true →
      x.after (if s.autowireCandidate then none else some (.setAutowireCandidate false))
        = { settings := { x with autowireCandidate := s.autowireCandidate } } := by
    rintro ⟨⟩ rfl
    cases s.autowireCandidate <;> rfl
  have hdefault : ∀ x : Settings, x.defaultCandidate = true →
      x.after (if s.defaultCandidate then none else some (.setDefaultCandidate false))
        = { settings := { x with defaultCandidate := s.defaultCandidate } } := by
    rintro ⟨⟩ rfl
    cases s.defaultCandidate <;> rfl
  have hsynthetic : ∀ x : Settings, x.synthetic = false →
      x.after (if s.synthetic then some (.setSynthetic true) else none)
        = { settings := { x with synthetic := s.synthetic } } := by
    rintro ⟨⟩ rfl
    cases s.synthetic <;> rfl
  have hrole : ∀ x : Settings, x.role = .application →
      x.after (if s.role = .application then none else some (.setRole s.role))
        = { settings := { x with role := s.role } } := by
    rintro ⟨⟩ rfl
    by_cases happlication : s.role = .application
    · rw [if_pos happlication, happlication]
      rfl
    · rw [if_neg happlication]
      rfl
  have hstart : ({} : Definition).withTypesOf t = { settings := { ({} : Settings) with
      targetType := t.settings.targetType, beanClass := t.settings.beanClass } } := rfl
  rw [hstart, Settings.edits, applyAll_reduceOption_cons, hprimary _ rfl,
    applyAll_reduceOption_cons, hfallback _ rfl, applyAll_reduceOption_cons, hscope _ rfl,
    applyAll_reduceOption_cons, hdependsOn _ rfl,
    applyAll_reduceOption_cons, hlazyInit _ rfl, applyAll_reduceOption_cons, hautowire _ rfl,
    applyAll_reduceOption_cons, hdefault _ rfl, applyAll_reduceOption_cons, hsynthetic _ rfl,
    applyAll_reduceOption_cons, hrole _ rfl]
  rfl

/-- The edit for lifecycle methods restores them. -/
theorem Definition.applyAll_lifecycleEdits (edit : List String → Edit)
    (set : Option (List String) → Definition → Definition) {d : Definition}
    (hedit : ∀ names, d.apply (edit names) = set (some names) d) (hnone : set none d = d)
    (names : Option (List String)) :
    d.applyAll (lifecycleEdits edit names) = set (normalNames names) d := by
  rcases names with _ | _ | ⟨name, names⟩
  · exact hnone.symm
  · exact hnone.symm
  · exact hedit _

/-! ### Values -/

variable {bean : Definition → Except Fault Value} {keep : KeyFilter}

/-- What comes back of a plain value is its normal form, when what comes back of the definitions
nested in it are theirs. -/
theorem Value.equiv_normal_of_replay {v w : Value} (hv : v.WellFormed)
    (hplain : v.every keep fun x => !x.isRoleConstant)
    (hbean : ∀ b ∈ v.beans, ∀ x, bean b = .ok x → x.Equiv (.bean (b.normal keep)))
    (h : v.replay bean = .ok w) : w.Equiv (v.normal keep) := by
  have helements : ∀ {vs ws : List Value},
      (∀ v ∈ vs, ∀ w, v.replay bean = .ok w → w.Equiv (v.normal keep)) →
      vs.mapM (replay bean) = .ok ws →
      List.Forall₂ Value.Equiv ws (vs.map (·.normal keep)) := by
    intro vs ws ih hws
    refine List.forall₂_map_right_iff.mpr (forall₂_flip_of_mem (mapM_eq_ok_iff.mp hws) ?_)
    exact fun v hv w _ hvw => ih v hv w hvw
  induction v generalizing w with
  | atom a =>
    have hback : (Value.atom a).replay bean = .ok (.atom a) := replay_of_plain hv rfl hplain
    rw [hback] at h
    cases h
    exact .refl hv
  | array c vs ih =>
    rw [wellFormed_array] at hv
    rw [beans_array] at hbean
    rw [replay_array] at h
    obtain ⟨ws, hws, rfl⟩ := map_eq_ok_iff.mp h
    rw [normal_array]
    exact .array c (helements (fun v hmem w => ih v hmem (hv v hmem)
      ((every_array.mp hplain).2 v hmem)
      fun b hb => hbean b (List.mem_flatMap.mpr ⟨v, hmem, hb⟩)) hws)
  | list k vs ih =>
    rw [wellFormed_list] at hv
    rw [beans_list] at hbean
    rw [replay_list] at h
    obtain ⟨ws, hws, rfl⟩ := map_eq_ok_iff.mp h
    rw [normal_list]
    exact .list k (helements (fun v hmem w => ih v hmem (hv v hmem)
      ((every_list.mp hplain).2 v hmem)
      fun b hb => hbean b (List.mem_flatMap.mpr ⟨v, hmem, hb⟩)) hws)
  | set k vs ih =>
    rw [wellFormed_set] at hv
    rw [beans_set] at hbean
    rw [replay_set] at h
    obtain ⟨ws, hws, rfl⟩ := map_eq_ok_iff.mp h
    rw [normal_set]
    exact .set k (helements (fun v hmem w => ih v hmem (hv.2 v hmem)
      ((every_set.mp hplain).2 v hmem)
      fun b hb => hbean b (List.mem_flatMap.mpr ⟨v, hmem, hb⟩)) hws)
  | map k es ih =>
    rw [wellFormed_map] at hv
    rw [beans_map] at hbean
    rw [replay_map] at h
    obtain ⟨fs, hfs, rfl⟩ := map_eq_ok_iff.mp h
    rw [normal_map]
    refine .map k (List.forall₂_map_right_iff.mpr
      (forall₂_flip_of_mem (mapM_eq_ok_iff.mp hfs) fun e he f _ hef => ?_))
    obtain ⟨j, hj, hef⟩ := bind_eq_ok_iff.mp hef
    obtain ⟨x, hx, rfl⟩ := map_eq_ok_iff.mp hef
    obtain ⟨hkey, hvalue⟩ := (every_map.mp hplain).2 e he
    have hentry : ∀ b ∈ e.1.beans ++ e.2.beans, _ := fun b hb =>
      hbean b (List.mem_flatMap.mpr ⟨e, he, hb⟩)
    exact ⟨(ih e he).1 (hv.2 e he).1 hkey (fun b hb => hentry b (List.mem_append_left _ hb)) hj,
      (ih e he).2 (hv.2 e he).2 hvalue (fun b hb => hentry b (List.mem_append_right _ hb)) hx⟩
  | bean d => exact hbean d (List.mem_singleton_self d) w h

/-! ### Definitions -/

/-- The edits that add parts of one kind again, from what comes back of the parts one by one. -/
theorem exists_of_mapM_replay {α β : Type} {part : α → Part} {edit : β → Edit} {P : α → β → Prop}
    {as : List α} {es : List Edit}
    (hpart : ∀ a ∈ as, ∀ e, (part a).replay bean = .ok e → ∃ b, P a b ∧ edit b = e)
    (h : (as.map part).mapM (Part.replay bean) = .ok es) :
    ∃ bs, List.Forall₂ P as bs ∧ bs.map edit = es := by
  refine exists_map_of_forall₂ ?_
  exact forall₂_imp_of_mem (List.forall₂_map_left_iff.mp (mapM_eq_ok_iff.mp h))
    fun a ha e _ hae => hpart a ha e hae

/-- The edits that add the entries of a table again. -/
theorem exists_of_mapM_entries {P : Value → Value → Prop} {part : String × Value → Part}
    {f : String × Value → Edit} {es : List (String × Value)} {fs : List Edit}
    (hpart : ∀ e, (part e).replay bean = (e.2.replay bean).map fun w => f (e.1, w))
    (hvalue : ∀ e ∈ es, ∀ w, e.2.replay bean = .ok w → P e.2 w)
    (h : (es.map part).mapM (Part.replay bean) = .ok fs) :
    ∃ gs : List (String × Value),
      List.Forall₂ (fun e g => e.1 = g.1 ∧ P e.2 g.2) es gs ∧ gs.map f = fs := by
  refine exists_of_mapM_replay (fun e he _ hef => ?_) h
  rw [hpart] at hef
  obtain ⟨w, hw, rfl⟩ := map_eq_ok_iff.mp hef
  exact ⟨(e.1, w), ⟨rfl, hvalue e he w hw⟩, rfl⟩

/-- What comes back of a qualifier has what comes back of its attributes, in the order in which they
are written. -/
theorem Qualifier.same_of_replay {P : Value → Value → Prop} {q q' : Qualifier}
    (hq : (Table.keys q.attributes).Nodup)
    (hvalue : ∀ e ∈ q.attributes, ∀ w, e.2.replay bean = .ok w → P e.2 w)
    (h : q.replay bean = .ok q') :
    q'.typeName = q.typeName ∧ (Table.keys q'.attributes).Nodup ∧
      Table.Same P q.attributes q'.attributes := by
  obtain ⟨es, hes, rfl⟩ := map_eq_ok_iff.mp h
  have hperm := Qualifier.inOrder_perm hq
  have hback : List.Forall₂ (fun e f => e.1 = f.1 ∧ P e.2 f.2) q.inOrder es := by
    refine forall₂_imp_of_mem (mapM_eq_ok_iff.mp hes) fun e he f _ hef => ?_
    obtain ⟨w, hw, rfl⟩ := map_eq_ok_iff.mp hef
    exact ⟨rfl, hvalue e (Qualifier.mem_of_mem_inOrder he) w hw⟩
  have hinOrder := Qualifier.nodup_keys_inOrder hq
  have hkeys : Table.keys es = Table.keys q.inOrder :=
    map_eq_of_forall₂ (List.forall₂_map_left_iff.mpr (hback.imp fun _ _ hef => hef.1.symm))
  have hes' : (Table.keys es).Nodup := hkeys ▸ hinOrder
  have hlist : Table.ofList es = es := Table.ofList_eq_self (Table.pairwise_of_nodup_keys hes')
  refine ⟨rfl, hlist.symm ▸ hes', ?_⟩
  rw [hlist]
  exact (Table.same_of_forall₂ hinOrder hback).of_perm_left hperm

namespace Definition

/-- The edits that add the parts of a definition. -/
def partEdits (d : Definition) : List Edit :=
  d.indexed.map (fun a => .addIndexed a.1 a.2) ++ d.generic.map .addGeneric ++
    d.properties.map (fun e => .addProperty e.1 e.2) ++
    d.attributes.map (fun e => .setAttribute e.1 e.2) ++
    d.qualifiers.map fun q => .addQualifier { typeName := q.1, attributes := q.2 }

/-- Adding parts to a definition that has none leads to these parts; only generic arguments can
merge. -/
theorem applyAll_partEdits {d : Definition}
    (hindexed : (d.indexed.map Prod.fst).Pairwise (· < ·))
    (hproperties : (Table.keys d.properties).Nodup) (hattributes : (Table.keys d.attributes).Nodup)
    (hqualifiers : (Table.keys d.qualifiers).Nodup) (s : Settings) :
    ({ settings := s } : Definition).applyAll d.partEdits
      = { d with settings := s, generic := Distinct.ofList (· == ·) d.generic } := by
  have hputs : d.indexed.foldl (fun l a => Ascending.put Prod.fst a l) [] = d.indexed :=
    Ascending.foldl_put_eq_append (List.pairwise_map.mp hindexed)
  have htable : ∀ {ν : Type} {t : Table String ν}, (Table.keys t).Nodup →
      t.foldl (fun t e => Table.put t e.1 e.2) [] = t := fun ht =>
    Table.ofList_eq_self (Table.pairwise_of_nodup_keys ht)
  rw [partEdits, applyAll_append, applyAll_append, applyAll_append, applyAll_append,
    applyAll_addIndexed, applyAll_addGeneric, applyAll_addProperty, applyAll_setAttribute,
    applyAll_addQualifier, hputs, htable hproperties, htable hattributes, htable hqualifiers]
  rfl

variable {d : Definition} {receiver : String}

/-- The keys of the tables of a definition are distinct, and its positional arguments ascend. -/
structure DistinctKeys (d : Definition) : Prop where
  indexed : (d.indexed.map Prod.fst).Pairwise (· < ·)
  properties : (Table.keys d.properties).Nodup
  attributes : (Table.keys d.attributes).Nodup
  qualifiers : (Table.keys d.qualifiers).Nodup
  qualifierAttributes : ∀ q ∈ d.qualifiers, (Table.keys q.2).Nodup

theorem Distinct.keys (hd : d.Distinct) : d.DistinctKeys :=
  { hd with }

/-- What has come back of the parts of a definition, with the edits that add it. -/
theorem exists_partEdits {P : Value → Value → Prop} (hd : d.Distinct)
    (hvalue : ∀ v, d.Holds keep v → ∀ w, v.replay bean = .ok w → P v w)
    {edits : List Edit} (h : (d.parts keep).mapM (Part.replay bean) = .ok edits) :
    ∃ r : Definition, r.partEdits = edits ∧ r.DistinctKeys ∧ (d.kept keep).Related P r := by
  have hheld : ∀ p ∈ d.parts keep, ∀ e ∈ p.values, ∀ w, e.2.replay bean = .ok w → P e.2 w :=
    fun p hp e he => hvalue e.2 (holds_of_mem_parts hp he)
  simp only [parts, List.forall_mem_append, List.forall_mem_map] at hheld
  obtain ⟨⟨⟨⟨hindexed, hgeneric⟩, hproperties⟩, hattributes⟩, hqualifiers⟩ := hheld
  rw [parts] at h
  obtain ⟨es₄, fs₅, h₄, hfs₅, rfl⟩ := mapM_append_eq_ok_iff.mp h
  obtain ⟨es₃, fs₄, h₃, hfs₄, rfl⟩ := mapM_append_eq_ok_iff.mp h₄
  obtain ⟨es₂, fs₃, h₂, hfs₃, rfl⟩ := mapM_append_eq_ok_iff.mp h₃
  obtain ⟨fs₁, fs₂, hfs₁, hfs₂, rfl⟩ := mapM_append_eq_ok_iff.mp h₂
  -- what comes back of each kind of parts
  obtain ⟨as, has, rfl⟩ : ∃ as : List (Nat × Holder), List.Forall₂ (fun a b => a.1 = b.1 ∧
      a.2.Related P b.2) d.indexed as ∧ as.map (fun a => .addIndexed a.1 a.2) = fs₁ := by
    refine exists_of_mapM_replay (fun a ha e hae => ?_) hfs₁
    obtain ⟨w, hw, rfl⟩ := map_eq_ok_iff.mp hae
    exact ⟨(a.1, { a.2 with value := w }),
      ⟨rfl, hindexed a ha _ (List.mem_singleton_self _) w hw, rfl, rfl⟩, rfl⟩
  obtain ⟨hs, hhs, rfl⟩ : ∃ hs : List Holder, List.Forall₂ (fun g h => g.1.Related P h)
      d.generic.zipIdx hs ∧ hs.map .addGeneric = fs₂ := by
    refine exists_of_mapM_replay (fun a ha e hae => ?_) hfs₂
    obtain ⟨w, hw, rfl⟩ := map_eq_ok_iff.mp hae
    exact ⟨{ a.1 with value := w },
      ⟨hgeneric a ha _ (List.mem_singleton_self _) w hw, rfl, rfl⟩, rfl⟩
  obtain ⟨ps, hps, rfl⟩ := exists_of_mapM_entries (f := fun e => .addProperty e.1 e.2)
    (fun _ => rfl) (fun e he => hproperties e he _ (List.mem_singleton_self _)) hfs₃
  obtain ⟨ts, hts, rfl⟩ := exists_of_mapM_entries (f := fun e => .setAttribute e.1 e.2)
    (fun _ => rfl) (fun e he => hattributes e he _ (List.mem_singleton_self _)) hfs₄
  obtain ⟨qs, hqs, rfl⟩ : ∃ qs : List (String × List (String × Value)),
      List.Forall₂ (fun p q => p.typeName = q.1 ∧ (Table.keys q.2).Nodup ∧
        Table.Same P p.attributes q.2) d.qualifierList qs ∧
      qs.map (fun q => .addQualifier { typeName := q.1, attributes := q.2 }) = fs₅ := by
    refine exists_of_mapM_replay (fun p hp e hae => ?_) hfs₅
    obtain ⟨q, hq, rfl⟩ := map_eq_ok_iff.mp hae
    obtain ⟨p, hp', rfl⟩ := List.mem_map.mp hp
    have hkeys := hd.qualifierAttributes p hp'
    obtain ⟨htype, hnodup, hsame⟩ := Qualifier.same_of_replay hkeys (fun e he w hw =>
      hqualifiers _ hp e ((Qualifier.inOrder_perm hkeys).symm.subset he) w hw) hq
    exact ⟨(q.typeName, q.attributes), ⟨htype.symm, hnodup, hsame⟩, rfl⟩
  have hgeneric : List.Forall₂ (Holder.Related P) (d.generic.zipIdx.map Prod.fst) hs :=
    List.forall₂_map_left_iff.mpr hhs
  rw [List.zipIdx_map_fst] at hgeneric
  have hqualifiers : List.Forall₂ (fun p q => p.1 = q.1 ∧ (Table.keys q.2).Nodup ∧
      Table.Same P p.2 q.2) d.qualifiers qs := List.forall₂_map_left_iff.mp hqs
  -- indices, names and keys have stayed as they were
  have hindices : as.map Prod.fst = d.indexed.map Prod.fst :=
    map_eq_of_forall₂ (List.forall₂_map_left_iff.mpr (has.imp fun _ _ hab => hab.1.symm))
  have hnames : Table.keys ps = Table.keys d.properties :=
    map_eq_of_forall₂ (List.forall₂_map_left_iff.mpr (hps.imp fun _ _ hef => hef.1.symm))
  have hkeys : Table.keys ts = Table.keys (d.attributes.filter fun e => keep e.1) :=
    map_eq_of_forall₂ (List.forall₂_map_left_iff.mpr (hts.imp fun _ _ hef => hef.1.symm))
  have htypes : Table.keys qs = Table.keys d.qualifiers :=
    map_eq_of_forall₂ (List.forall₂_map_left_iff.mpr (hqualifiers.imp fun _ _ hpq => hpq.1.symm))
  have hattributes := Table.nodup_keys_filter (fun e => keep e.1) hd.attributes
  let r : Definition :=
    { d with indexed := as, generic := hs, properties := ps, attributes := ts, qualifiers := qs }
  refine ⟨r, rfl, ?_, ?_⟩
  · refine ⟨hindices ▸ hd.indexed, hnames ▸ hd.properties, hkeys ▸ hattributes,
      htypes ▸ hd.qualifiers, fun q hq => ?_⟩
    obtain ⟨p, -, hpq⟩ := exists_of_forall₂ hqualifiers.flip hq
    exact hpq.2.1
  · exact ⟨rfl, has, hgeneric, Table.same_of_forall₂ hd.properties hps,
      Table.same_of_forall₂ hattributes hts,
      Table.same_of_forall₂ hd.qualifiers (hqualifiers.imp fun _ _ hpq => ⟨hpq.1, hpq.2.2⟩)⟩

/-- The definition that the settings and parts are made into, of the types of another one: what a
script cannot say is gone, and equal generic arguments have merged. -/
def assembled (r t : Definition) : Definition :=
  { r with
    settings := { r.settings.normal with
      targetType := t.settings.targetType
      beanClass := t.settings.beanClass }
    generic := Distinct.ofList (· == ·) r.generic }

theorem DistinctKeys.assembled {r : Definition} (hr : r.DistinctKeys) (t : Definition) :
    (r.assembled t).Distinct :=
  { hr with generic := Distinct.pairwise_ofList _ }

/-- The edits of a script, made on a fresh definition of any types, assemble what has come back of
the parts. -/
theorem exists_of_replayEdits {P : Value → Value → Prop} (hd : d.Distinct)
    (hvalue : ∀ v, d.Holds keep v → ∀ w, v.replay bean = .ok w → P v w)
    {edits : List Edit} (h : d.replayEdits keep receiver bean = .ok edits) :
    ∃ r : Definition, r.DistinctKeys ∧ (d.kept keep).Related P r ∧
      ∀ t, (({} : Definition).withTypesOf t).applyAll edits = r.assembled t := by
  obtain ⟨es, hes, rfl⟩ := map_eq_ok_iff.mp h
  have hreplay : (d.parts keep).mapM (Part.replay bean) = .ok es := by
    refine mapM_eq_ok_iff.mpr ((mapM_eq_ok_iff.mp hes).imp fun p e hpe => ?_)
    obtain ⟨e', he', hcaptured⟩ := bind_eq_ok_iff.mp hpe
    split at hcaptured <;> cases hcaptured
    exact he'
  obtain ⟨r, rfl, hkeys, hrelated⟩ := exists_partEdits hd hvalue hreplay
  have hsettings : d.settings = r.settings := hrelated.settings
  refine ⟨r, hkeys, hrelated, fun t => ?_⟩
  rw [applyAll_append, applyAll_append, applyAll_append, Settings.applyAll_edits,
    applyAll_partEdits hkeys.indexed hkeys.properties hkeys.attributes hkeys.qualifiers,
    applyAll_lifecycleEdits .setInitMethods
      (fun names d => { d with settings := { d.settings with initMethods := names } })
      (fun _ => rfl) rfl,
    applyAll_lifecycleEdits .setDestroyMethods
      (fun names d => { d with settings := { d.settings with destroyMethods := names } })
      (fun _ => rfl) rfl, hsettings]
  rfl

/-- What related definitions are made into, value by value, is equal, when the values are. -/
theorem Related.equiv_assembled {P R Q : Value → Value → Prop} {e r s : Definition}
    (hd : d.DistinctKeys) (hr : r.DistinctKeys) (hs : s.DistinctKeys) (h : d.Related R e)
    (hP : d.Related P r) (hQ : e.Related Q s)
    (hvalues : ∀ v x w y, P v x → R v w → Q w y → x.Equiv y) (t : Definition) :
    (r.assembled t).Equiv (s.assembled t) := by
  have hholder : ∀ g g' h h' : Holder, g.Related P g' → g.Related R h → h.Related Q h' →
      g'.Related Value.Equiv h' := fun _ _ _ _ ⟨hp, hpt, hpn⟩ ⟨hr, hrt, hrn⟩ ⟨hq, hqt, hqn⟩ =>
    ⟨hvalues _ _ _ _ hp hr hq, hpt.symm.trans (hrt.trans hqt), hpn.symm.trans (hrn.trans hqn)⟩
  have hsettings : r.settings = s.settings :=
    hP.settings.symm.trans (h.settings.trans hQ.settings)
  refine .of_related (hr.assembled t) (hs.assembled t) ⟨?_, ?_, ?_, ?_, ?_, ?_⟩
  · simp only [assembled, hsettings]
  · exact forall₂_join hP.indexed h.indexed hQ.indexed fun _ _ _ _ hp hr hq =>
      ⟨hp.1.symm.trans (hr.1.trans hq.1), hholder _ _ _ _ hp.2 hr.2 hq.2⟩
  · exact Distinct.forall₂_ofList (fun _ _ _ _ h h' => h.beq_congr h')
      (forall₂_join hP.generic h.generic hQ.generic hholder)
  · exact hP.properties.join hd.properties hr.properties h.properties hQ.properties
      fun _ _ _ _ _ _ _ _ => hvalues _ _ _ _
  · exact hP.attributes.join hd.attributes hr.attributes h.attributes hQ.attributes
      fun _ _ _ _ _ _ _ _ => hvalues _ _ _ _
  · exact hP.qualifiers.join hd.qualifiers hr.qualifiers h.qualifiers hQ.qualifiers
      fun p hp p' hp' _ _ _ _ hpp hpq hqq => hpp.join (hd.qualifierAttributes p hp)
        (hr.qualifierAttributes p' hp') hpq hqq fun _ _ _ _ _ _ _ _ => hvalues _ _ _ _

/-- The parts of a definition with their values in normal form. -/
theorem exists_related_normal (hd : d.Distinct) (keep : KeyFilter) :
    ∃ r : Definition, r.DistinctKeys ∧ (d.kept keep).Related (fun v w => w = v.normal keep) r ∧
      ∀ t, r.assembled t = (d.normal keep).withTypesOf t := by
  have hattributes := Table.nodup_keys_filter (fun e => keep e.1) hd.attributes
  have hentries : ∀ {es : Table String Value}, (Table.keys es).Nodup →
      Table.Same (fun v w => w = v.normal keep) es (es.map fun e => (e.1, e.2.normal keep)) :=
    fun hes => Table.same_of_forall₂ hes
      (List.forall₂_map_right_iff.mpr (List.forall₂_same.mpr fun _ _ => ⟨rfl, rfl⟩))
  have hholder : ∀ g : Holder, g.Related (fun v w => w = v.normal keep) (g.normal keep) := by
    intro g
    rw [Holder.normal_eq]
    exact ⟨rfl, rfl, rfl⟩
  have hnormal := hd.normal keep
  let r : Definition :=
    { settings := d.settings
      indexed := d.indexed.map fun a => (a.1, a.2.normal keep)
      generic := d.generic.map (·.normal keep)
      properties := d.properties.map fun e => (e.1, e.2.normal keep)
      attributes := (d.attributes.filter fun e => keep e.1).map fun e => (e.1, e.2.normal keep)
      qualifiers := d.qualifiers.map fun q => (q.1, q.2.map fun e => (e.1, e.2.normal keep)) }
  have hassembled : ∀ t, r.assembled t = (d.normal keep).withTypesOf t := by
    intro t
    rw [normal_eq]
    rfl
  refine ⟨r, ?_, ⟨rfl, ?_, ?_, hentries hd.properties, hentries hattributes, ?_⟩, hassembled⟩
  · rw [normal_eq] at hnormal
    exact { hnormal with }
  · exact List.forall₂_map_right_iff.mpr (List.forall₂_same.mpr fun a _ => ⟨rfl, hholder a.2⟩)
  · exact List.forall₂_map_right_iff.mpr (List.forall₂_same.mpr fun g _ => hholder g)
  · exact Table.same_of_forall₂ hd.qualifiers (List.forall₂_map_right_iff.mpr
      (List.forall₂_same.mpr fun q hq => ⟨rfl, hentries (hd.qualifierAttributes q hq)⟩))

/-- The edits of a script, made on a fresh definition of any types, lead to the normal form of the
definition that the script was written for, of these types. -/
theorem equiv_normal_of_replayEdits (hd : d.WellFormed)
    (hplain : d.every keep fun x => !x.isRoleConstant)
    (hbean : ∀ b ∈ d.beans keep, ∀ x, bean b = .ok x → x.Equiv (.bean (b.normal keep)))
    {edits : List Edit} (h : d.replayEdits keep receiver bean = .ok edits) (t : Definition) :
    ((({} : Definition).withTypesOf t).applyAll edits).Equiv ((d.normal keep).withTypesOf t) := by
  have hdistinct := (wellFormed_iff.mp hd).1
  have hkept := hdistinct.kept keep
  have hvalue : ∀ v, d.Holds keep v → ∀ w, v.replay bean = .ok w → w.Equiv (v.normal keep) :=
    fun v hv w hvw => Value.equiv_normal_of_replay (hd.of_holds hv) (every_iff.mp hplain v hv)
      (fun b hb => hbean b (mem_beans_iff.mpr ⟨v, hv, hb⟩)) hvw
  obtain ⟨r, hr, hback, hresult⟩ := exists_of_replayEdits hdistinct hvalue h
  obtain ⟨s, hs, hnormal, hassembled⟩ := exists_related_normal hdistinct keep
  have hsame : (d.kept keep).Related Eq (d.kept keep) :=
    Related.refl_of_holds hkept fun _ _ => rfl
  rw [hresult, ← hassembled]
  refine hsame.equiv_assembled hkept.keys hr hs hback hnormal ?_ t
  rintro v x _ y hvx rfl rfl
  exact hvx

/-- A script leads to a definition exactly when all definitions nested directly can be rebuilt. -/
theorem readsBack_replayEdits {E : Fault → Prop} {Q : Definition → Prop} (hd : d.Distinct)
    (hplain : d.every keep fun x => !x.isUnknownRole)
    (hreceiver : receiver ≠ Script.Context.qualifierLocal)
    (hbean : ∀ b ∈ d.beans keep, ReadsBack E (Q b) (bean b)) :
    ReadsBack E (∀ b ∈ d.beans keep, Q b) (d.replayEdits keep receiver bean) := by
  have hmem : ∀ p ∈ d.parts keep, ∀ e ∈ p.values, ∀ b ∈ e.2.beans, b ∈ d.beans keep :=
    fun p hp e he b hb => mem_beans_iff.mpr ⟨e.2, holds_of_mem_parts hp he, hb⟩
  have hparts : ∀ p ∈ d.parts keep, ReadsBack E
      (p.isReadBack keep ∧ ∀ e ∈ p.values, ∀ b ∈ e.2.beans, Q b) (p.replay bean) := by
    intro p hp
    refine Part.readsBack (.inl (List.all_eq_true.mpr fun e he => ?_)) fun e he b hb => ?_
    · exact every_iff.mp hplain e.2 (holds_of_mem_parts hp he)
    · exact ⟨every_of_mem_beans hplain (hmem p hp e he b hb), hbean b (hmem p hp e he b hb)⟩
  rw [replayEdits, mapM_outcome_of_ne hreceiver]
  refine ((ReadsBack.mapM hparts).map _).congr ⟨fun h b hb => ?_, fun h p hp => ⟨?_, ?_⟩⟩
  · have hperm : List.Perm _ (d.beans keep) := perm_beans_parts hd
    obtain ⟨p, hp, hb⟩ := List.mem_flatMap.mp (hperm.symm.subset hb)
    obtain ⟨e, he, hb⟩ := List.mem_flatMap.mp hb
    exact (h p hp).2 e he b hb
  · exact List.all_eq_true.mpr fun e he => every_iff.mp hplain e.2 (holds_of_mem_parts hp he)
  · exact fun e he b hb => h b (hmem p hp e he b hb)

end Definition

end BeanScript
