import BeanScript.Proofs.Agreement
import BeanScript.Proofs.Replay.Roundtrip
import BeanScript.Proofs.Script.Writable

/-!
# Two batches, replayed

Related definitions lead to batches that differ in their methods, in the names of these and in the
order of statements. Replayed, the two batches agree all the same: both fail, or both lead to
definitions that are equal.

The batches are compared through what their calls give. A call in one batch and a call in the other,
for related nested definitions, rebuild definitions that are related again, with the same number of
calls still allowed. The rest is comparing values and parts of one level.

## Main results

* `Value.Bisimulation.agree_replay` — what comes back of related values
* `Definition.exists_replayEdits_iff` — when a script succeeds
* `Value.Bisimulation.agree_rebuild` — what calls for related nested definitions give
* `Value.Bisimulation.agree_execute` — what replaying the batches leads to
-/

namespace BeanScript

variable {keep : KeyFilter} {R : Value → Value → Prop} {receiver : String}
  {bean bean' : Definition → Except Fault Value} {d e : Definition}

/-! ### Values -/

theorem Atom.wellFormed_of_replay {a : Atom} {w : Value} (h : a.replay = .ok w) :
    w.WellFormed := by
  cases a with
  | enumConstant owner name =>
    rw [replay] at h
    split at h
    · split at h <;> cases h
      exact Value.wellFormed_atom
    · cases h
      exact Value.wellFormed_atom
  | _ => cases h; exact Value.wellFormed_atom

/-- What comes back of related values agrees, when what comes back of the definitions nested in them
does. -/
theorem Value.Bisimulation.agree_replay (hR : Bisimulation keep R) {v w : Value} (h : R v w)
    (hbean : ∀ b ∈ v.beans, ∀ c ∈ w.beans, R (.bean b) (.bean c) →
      Agree Value.Equiv (bean b) (bean' c)) :
    Agree Value.Equiv (v.replay bean) (w.replay bean') := by
  have helements : ∀ {vs ws : List Value}, List.Forall₂ R vs ws →
      (∀ v ∈ vs, ∀ {w}, R v w →
        (∀ b ∈ v.beans, ∀ c ∈ w.beans, R (.bean b) (.bean c) →
          Agree Value.Equiv (bean b) (bean' c)) →
        Agree Value.Equiv (v.replay bean) (w.replay bean')) →
      (∀ b ∈ vs.flatMap Value.beans, ∀ c ∈ ws.flatMap Value.beans, R (.bean b) (.bean c) →
        Agree Value.Equiv (bean b) (bean' c)) →
      Agree (List.Forall₂ Value.Equiv) (vs.mapM (replay bean)) (ws.mapM (replay bean')) := by
    intro vs ws hs ih hbean
    refine Agree.mapM (forall₂_imp_of_mem hs fun v hv w hw hvw => ih v hv hvw fun b hb c hc => ?_)
    exact hbean b (List.mem_flatMap.mpr ⟨v, hv, hb⟩) c (List.mem_flatMap.mpr ⟨w, hw, hc⟩)
  induction v generalizing w with
  | atom a =>
    cases hR.alike h with
    | atom =>
      rw [replay_atom, replay_atom]
      cases hreplay : a.replay with
      | error fault => exact .error _ _
      | ok x => exact .ok (.refl (Atom.wellFormed_of_replay hreplay))
  | array c vs ih =>
    cases hR.alike h with
    | array hs =>
      rw [beans_array, beans_array] at hbean
      rw [replay_array, replay_array]
      exact (helements hs ih hbean).map fun _ _ => .array c
  | list k vs ih =>
    cases hR.alike h with
    | list hs =>
      rw [beans_list, beans_list] at hbean
      rw [replay_list, replay_list]
      exact (helements hs ih hbean).map fun _ _ => .list k
  | set k vs ih =>
    cases hR.alike h with
    | set hs =>
      rw [beans_set, beans_set] at hbean
      rw [replay_set, replay_set]
      exact (helements hs ih hbean).map fun _ _ => .set k
  | map k es ih =>
    cases hR.alike h with
    | @map _ _ fs hs =>
      rw [replay_map, replay_map]
      refine (Agree.mapM (forall₂_imp_of_mem hs fun e he f hf hef => ?_)).map
        fun _ _ => .map k
      have hentry : ∀ b ∈ e.1.beans ++ e.2.beans, ∀ c ∈ f.1.beans ++ f.2.beans, _ :=
        fun b hb c hc => hbean b (beans_map ▸ List.mem_flatMap.mpr ⟨e, he, hb⟩)
          c (beans_map ▸ List.mem_flatMap.mpr ⟨f, hf, hc⟩)
      have hkey := (ih e he).1 hef.1 fun b hb c hc =>
        hentry b (List.mem_append_left _ hb) c (List.mem_append_left _ hc)
      have hvalue := (ih e he).2 hef.2 fun b hb c hc =>
        hentry b (List.mem_append_right _ hb) c (List.mem_append_right _ hc)
      exact hkey.bind fun _ _ hjk => hvalue.map fun _ _ hxy => ⟨hjk, hxy⟩
  | bean d =>
    cases hR.alike h with
    | bean _ => exact hbean _ (List.mem_singleton_self _) _ (List.mem_singleton_self _) h

/-! ### Scripts -/

/-- A part succeeds when all its values come back and the receiver is not hidden. -/
theorem Part.exists_outcome_iff {p : Part} :
    (∃ e, p.outcome receiver bean = .ok e) ↔
      (∀ e ∈ p.values, ∃ w, e.2.replay bean = .ok w) ∧ p.isCaptured receiver = false := by
  have hreplay : (∃ e, p.replay bean = .ok e) ↔ ∀ e ∈ p.values, ∃ w, e.2.replay bean = .ok w := by
    cases p with
    | qualifier q =>
      rw [replay, Qualifier.replay, exists_map_eq_ok_iff, exists_map_eq_ok_iff,
        exists_mapM_eq_ok_iff]
      exact forall₂_congr fun e _ => exists_map_eq_ok_iff
    | _ => rw [replay, exists_map_eq_ok_iff, values, List.forall_mem_singleton]
  rw [← hreplay, outcome]
  cases p.replay bean with
  | error fault => simp
  | ok e => cases p.isCaptured receiver <;> simp

/-- A script succeeds when all values come back and no qualifier opens a scope in which the receiver
is hidden. -/
theorem Definition.exists_replayEdits_iff (hd : d.Distinct) :
    (∃ edits, d.replayEdits keep receiver bean = .ok edits) ↔
      (∀ v, d.Holds keep v → ∃ w, v.replay bean = .ok w) ∧
        (receiver = Script.Context.qualifierLocal →
          ∀ q ∈ d.qualifiers, ∀ e ∈ q.2, e.1 = Qualifier.valueKey) := by
  have hvalues : (∀ p ∈ d.parts keep, ∀ e ∈ p.values, ∃ w, e.2.replay bean = .ok w) ↔
      ∀ v, d.Holds keep v → ∃ w, v.replay bean = .ok w := by
    have hperm : List.Perm _ (d.held keep) := perm_values_parts hd
    rw [← List.forall_mem_flatMap]
    simp only [Holds, hperm.mem_iff, List.forall_mem_map]
  have hcaptured : ∀ q : Qualifier, (Part.qualifier q).isCaptured receiver = false ↔
      (receiver = Script.Context.qualifierLocal →
        ∀ e ∈ q.attributes, e.1 = Qualifier.valueKey) := by
    intro q
    rw [Part.isCaptured, Part.opensScope, Qualifier.further]
    by_cases hreceiver : receiver = Script.Context.qualifierLocal <;> simp [hreceiver]
  have hscopes : (∀ p ∈ d.parts keep, p.isCaptured receiver = false) ↔
      (receiver = Script.Context.qualifierLocal →
        ∀ q ∈ d.qualifiers, ∀ e ∈ q.2, e.1 = Qualifier.valueKey) := by
    simp only [parts, List.forall_mem_append, List.forall_mem_map, hcaptured, qualifierList]
    refine ⟨fun h hreceiver q hq => h.2 q hq hreceiver, fun h => ⟨?_, fun q hq hreceiver =>
      h hreceiver q hq⟩⟩
    exact ⟨⟨⟨fun _ _ => rfl, fun _ _ => rfl⟩, fun _ _ => rfl⟩, fun _ _ => rfl⟩
  rw [replayEdits, exists_map_eq_ok_iff, exists_mapM_eq_ok_iff, ← hvalues, ← hscopes,
    ← forall₂_and]
  exact forall₂_congr fun p _ => Part.exists_outcome_iff

/-- Qualifiers of related definitions have the same keys. -/
theorem Definition.Related.forall_qualifier_key {P : String → Prop} (h : d.Related R e)
    (hkeys : ∀ q ∈ e.qualifiers, ∀ f ∈ q.2, P f.1) : ∀ q ∈ d.qualifiers, ∀ f ∈ q.2, P f.1 := by
  intro q hq f hf
  obtain ⟨es, hes, hsame⟩ := h.qualifiers.2 q hq
  obtain ⟨w, hw, -⟩ := hsame.2 f hf
  exact hkeys (q.1, es) (Table.mem_of_get? hes) (f.1, w) (Table.mem_of_get? hw)

/-- The scripts of related definitions lead to definitions that are equal, or both fail, when what
comes back of the definitions nested in them agrees. -/
theorem Value.Bisimulation.agree_replayEdits (hR : Bisimulation keep R)
    (h : R (.bean d) (.bean e))
    (hbean : ∀ b ∈ d.beans keep, ∀ c ∈ e.beans keep, R (.bean b) (.bean c) →
      Agree Value.Equiv (bean b) (bean' c)) (receiver : String) (t : Definition) :
    Agree Definition.Equiv
      ((d.replayEdits keep receiver bean).map (({} : Definition).withTypesOf t).applyAll)
      ((e.replayEdits keep receiver bean').map (({} : Definition).withTypesOf t).applyAll) := by
  obtain ⟨hd, he⟩ := hR.distinct h
  have hrelated := hR.related h
  have hvalue : ∀ v, d.Holds keep v → ∀ w, e.Holds keep w → R v w →
      Agree Value.Equiv (v.replay bean) (w.replay bean') := fun v hv w hw hvw =>
    hR.agree_replay hvw fun b hb c hc => hbean b (Definition.mem_beans_iff.mpr ⟨v, hv, hb⟩)
      c (Definition.mem_beans_iff.mpr ⟨w, hw, hc⟩)
  rw [agree_iff, exists_map_eq_ok_iff, exists_map_eq_ok_iff,
    Definition.exists_replayEdits_iff hd, Definition.exists_replayEdits_iff he]
  refine ⟨and_congr ⟨?_, ?_⟩ (forall_congr' fun _ => ⟨?_, ?_⟩), ?_⟩
  · intro hback w hw
    obtain ⟨v, hv, hvw⟩ := hR.flip.exists_holds h hw
    exact (agree_iff.mp (hvalue v hv w hw hvw)).1.mp (hback v hv)
  · intro hback v hv
    obtain ⟨w, hw, hvw⟩ := hR.exists_holds h hv
    exact (agree_iff.mp (hvalue v hv w hw hvw)).1.mpr (hback w hw)
  · exact (hR.flip.related h).forall_qualifier_key (P := (· = Qualifier.valueKey))
  · exact hrelated.forall_qualifier_key (P := (· = Qualifier.valueKey))
  · intro x y hx hy
    obtain ⟨edits, hedits, rfl⟩ := map_eq_ok_iff.mp hx
    obtain ⟨edits', hedits', rfl⟩ := map_eq_ok_iff.mp hy
    obtain ⟨r, hr, hP, hresult⟩ := Definition.exists_of_replayEdits
      (P := fun v x => d.Holds keep v ∧ v.replay bean = .ok x) hd
      (fun v hv x hx => ⟨hv, hx⟩) hedits
    obtain ⟨s, hs, hQ, hresult'⟩ := Definition.exists_of_replayEdits
      (P := fun w y => e.Holds keep w ∧ w.replay bean' = .ok y) he
      (fun w hw y hy => ⟨hw, hy⟩) hedits'
    rw [hresult, hresult']
    refine hrelated.equiv_assembled (hd.kept keep).keys hr hs hP hQ ?_ t
    rintro v x w y ⟨hv, hx⟩ hvw ⟨hw, hy⟩
    exact (agree_iff.mp (hvalue v hv w hw hvw)).2 x y hx hy

/-! ### Batches -/

/-- What replaying a batch leads to: the edits of its script, made on a fresh definition. -/
theorem Generator.execute_batch_eq {g : Generator} (hd : d.WellFormed)
    (hresolve : g.resolve = .empty) {batch : Batch} (h : (g.batch d).1 = .ok batch)
    {methods : Methods}
    (hmethods : ∀ m ∈ batch.methods, Table.get? methods (m.owner, m.name) = some m.body) :
    execute methods batch.statements g.style.receiver
      = (d.replayEdits g.keep g.style.receiver (g.rebuild d maxCalls)).map
          ({} : Definition).applyAll := by
  have hevery := (exists_batch_iff hd hresolve).mp ⟨batch, h⟩
  have hwritten : d.every g.keep fun v => !v.isOpaque :=
    Definition.every_mono Value.not_isOpaque_of_isWritable (Value.every_bean.mp hevery).2
  obtain ⟨made, hmade⟩ := exists_made hd h
  obtain ⟨c, hc, hs⟩ := hmade.root
  exact execute_eq ((hmade.callsRebuild hd hwritten hmethods maxCalls).performs hd hc hwritten
    (fun b hb => NestedMethods.knows_ofDefinition hd hb) hs)

section Batches

variable {g : Generator} {a b : Definition} (hR : Value.Bisimulation g.keep R)
  (ha : a.WellFormed) (hb : b.WellFormed)

include hR ha hb

/-- The calls for related nested definitions in two batches rebuild definitions that are equal, or
both fail, with the same number of calls still allowed. -/
theorem Value.Bisimulation.agree_rebuild (n : Nat) {c c' : Definition} (h : R (.bean c) (.bean c'))
    (hc : (g.nested a).Knows c) (hc' : (g.nested b).Knows c') :
    Agree Value.Equiv (g.rebuild a n c) (g.rebuild b n c') := by
  induction n generalizing c c' with
  | zero => exact .error _ _
  | succ n ih =>
    obtain ⟨m, hm, hmc, -, hmadeFor⟩ := NestedMethods.exists_of_knows hc
    obtain ⟨m', hm', hmc', -, hmadeFor'⟩ := NestedMethods.exists_of_knows hc'
    obtain ⟨hwf, hwf'⟩ := hR.wellFormed h
    have hequiv : m.definition.Equiv c :=
      ⟨NestedMethods.wellFormed_of_mem_list ha hm, hwf, Value.bean_beq.mpr ⟨c, rfl, hmc⟩⟩
    have hequiv' : m'.definition.Equiv c' :=
      ⟨NestedMethods.wellFormed_of_mem_list hb hm', hwf', Value.bean_beq.mpr ⟨c', rfl, hmc'⟩⟩
    -- the methods were made for definitions that are related, too
    have hmade : R (.bean m.definition) (.bean m'.definition) := hR.congr hequiv h hequiv'.symm
    have hsettings : m.definition.settings = m'.definition.settings := (hR.related hmade).settings
    have hinside := hR.agree_replayEdits hmade (fun x hx y hy hxy => ih hxy
      (NestedMethods.knows_of_mem_list ha hm hx) (NestedMethods.knows_of_mem_list hb hm' hy))
      g.style.receiver m.definition
    have htypes : ({} : Definition).withTypesOf m'.definition
        = ({} : Definition).withTypesOf m.definition := by
      rw [Definition.withTypesOf, Definition.withTypesOf, hsettings]
    rw [Generator.rebuild, Generator.rebuild, hmadeFor, hmadeFor', htypes]
    have hbean := hinside.map (f := Value.bean) (g := Value.bean) fun _ _ h => h
    rwa [map_map_eq, map_map_eq] at hbean

/-- Replayed, the batches for related definitions lead to definitions that are equal, or both
fail. -/
theorem Value.Bisimulation.agree_execute (h : R (.bean a) (.bean b))
    (hresolve : g.resolve = .empty) {batch batch' : Batch} (hbatch : (g.batch a).1 = .ok batch)
    (hbatch' : (g.batch b).1 = .ok batch') {methods methods' : Methods}
    (hmethods : ∀ m ∈ batch.methods, Table.get? methods (m.owner, m.name) = some m.body)
    (hmethods' : ∀ m ∈ batch'.methods, Table.get? methods' (m.owner, m.name) = some m.body) :
    Agree Definition.Equiv (execute methods batch.statements g.style.receiver)
      (execute methods' batch'.statements g.style.receiver) := by
  have hreplay := hR.agree_replayEdits h (fun x hx y hy hxy => hR.agree_rebuild ha hb maxCalls hxy
    (NestedMethods.knows_ofDefinition ha hx) (NestedMethods.knows_ofDefinition hb hy))
    g.style.receiver {}
  rw [Generator.execute_batch_eq ha hresolve hbatch hmethods,
    Generator.execute_batch_eq hb hresolve hbatch' hmethods']
  exact hreplay

end Batches

end BeanScript
