import BeanScript.Proofs.Replay.TwoRuns
import BeanScript.Proofs.Script.Setters

/-!
# Equal definitions are interchangeable

One method serves all nested definitions that are equal, whichever of them it was made for. That is
sound because generation does not tell equal definitions apart: for both of them there is a batch,
or for neither; the batches need the same hints; and replayed they lead to equal definitions, or
both fail. The batches themselves may differ, in the order of statements and in the names and the
order of methods.

Every definition that one batch writes is related to one that the other batch writes, so what the
definitions need one by one, they need together.

## Main results

* `Value.Bisimulation.mem_neededHints` — the hints that related definitions need
* `Value.Bisimulation.exists_writes` — the definitions that two batches write
* `Generator.batch_interchangeable` — the batches of equal definitions
-/

namespace BeanScript

variable {d e : Definition} {R : Value → Value → Prop}

/-- Related definitions need the same hints: these depend on the settings and on the names of the
properties. -/
theorem Definition.Related.mem_neededHints (h : d.Related R e) {source : TypeSource} {y : Hint}
    (hy : y ∈ d.neededHints source) : y ∈ e.neededHints source := by
  have htype : e.backingType? source = d.backingType? source := by
    rw [backingType?, backingType?, instanceType?, instanceType?, h.settings]
  have hkeys : Table.keys d.properties ⊆ Table.keys e.properties := h.properties.2.keys_subset
  rw [neededHints, (mem_hints_iff _ _ _).2] at hy ⊢
  obtain ⟨m, hm, rfl⟩ := hy
  refine ⟨m, ?_, rfl⟩
  simp only [reflectedMethods, htype, ← h.settings, List.mem_append] at hm ⊢
  refine hm.imp_left (Or.imp_left fun hsetter => ?_)
  obtain ⟨p, hp, hpm⟩ := List.mem_filterMap.mp hsetter
  obtain ⟨q, hq, hqp⟩ := List.mem_map.mp (hkeys (List.mem_map_of_mem hp))
  exact List.mem_filterMap.mpr ⟨q, hq, hqp ▸ hpm⟩

namespace Value.Bisimulation

variable {g : Generator} {a b u : Definition}

/-- Related definitions need the same hints. Attributes, which a filter may reject, need none. -/
theorem mem_neededHints {keep : KeyFilter} (hR : Bisimulation keep R) (h : R (.bean d) (.bean e))
    {source : TypeSource} {y : Hint} (hy : y ∈ d.neededHints source) : y ∈ e.neededHints source :=
  (hR.related h).mem_neededHints (d := d.kept keep) (e := e.kept keep) hy

variable (hR : Bisimulation g.keep R) (ha : a.WellFormed) (hb : b.WellFormed)
  (h : R (.bean a) (.bean b))

include hR ha hb h

/-- A definition that one of two batches writes is related to one that the other writes. -/
theorem exists_writes (hu : g.Writes a u) : ∃ w, g.Writes b w ∧ R (.bean u) (.bean w) := by
  refine hu.inherits ha (P := fun u => ∃ w, g.Writes b w ∧ R (.bean u) (.bean w))
    ⟨b, .inl rfl, h⟩ ?_
  rintro u ⟨w, hw, huw⟩ c hc
  obtain ⟨x, hx, hcx⟩ := hR.exists_mem_beans huw hc
  obtain ⟨y, hy, hyx⟩ := hw.exists_equiv hb hx
  exact ⟨y, hy, hR.congr (.refl (hR.wellFormed hcx).1) hcx hyx.symm⟩

theorem exists_batch (hresolve : g.resolve = .empty) (hbatch : ∃ batch, (g.batch a).1 = .ok batch) :
    ∃ batch, (g.batch b).1 = .ok batch := by
  rw [Generator.exists_batch_iff ha hresolve] at hbatch
  rw [Generator.exists_batch_iff hb hresolve]
  exact hR.every hR.isWritable h hbatch

end Value.Bisimulation

namespace Generator

variable {g g' : Generator} {a b : Definition}

/-- The batches of related definitions need the same hints. -/
theorem Coherent.hints_eq_of_bisimulation (hg : g.Coherent) {R : Value → Value → Prop}
    (hR : Value.Bisimulation g.keep R) (h : R (.bean a) (.bean b)) {batch batch' : Batch}
    (hbatch : (g.batch a).1 = .ok batch) (hbatch' : (g.batch b).1 = .ok batch') :
    batch.hints = batch'.hints := by
  have hsubset : ∀ {R : Value → Value → Prop} {a b : Definition}, Value.Bisimulation g.keep R →
      R (.bean a) (.bean b) → ∀ y, (∃ u, g.Writes a u ∧ y ∈ u.neededHints g.types) →
        ∃ u, g.Writes b u ∧ y ∈ u.neededHints g.types := by
    rintro R a b hR h y ⟨u, hu, hy⟩
    obtain ⟨w, hw, huw⟩ := hR.exists_writes (hR.wellFormed h).1 (hR.wellFormed h).2 h hu
    exact ⟨w, hw, hR.mem_neededHints huw hy⟩
  obtain ⟨hinvocations, hmem⟩ := hg.mem_hints_of_batch hbatch
  obtain ⟨hinvocations', hmem'⟩ := hg.mem_hints_of_batch hbatch'
  refine hinvocations.eq_of_mem_iff hinvocations' fun y => ?_
  rw [hmem, hmem']
  exact ⟨hsubset hR h y, hsubset hR.flip h y⟩

/-- The batches of equal definitions need the same hints. -/
theorem Coherent.hints_eq (hg : g.Coherent) (h : a.Equiv b) {batch batch' : Batch}
    (hbatch : (g.batch a).1 = .ok batch) (hbatch' : (g.batch b).1 = .ok batch') :
    batch.hints = batch'.hints :=
  hg.hints_eq_of_bisimulation (.ofEquiv g.keep) h hbatch hbatch'

/-- Equal definitions are interchangeable. There is a batch for both or for neither, whatever else
the generators have written before. The batches of both need the same hints, and replayed with their
methods they lead to equal definitions, or both fail. -/
theorem batch_interchangeable (hg : g.Coherent) (hg' : g'.Coherent) (hsame : SameChoices g g')
    (hresolve : g.resolve = .empty) (ha : a.WellFormed) (hb : b.WellFormed) (hab : a == b) :
    ((∃ batch, (g.batch a).1 = .ok batch) ↔ ∃ batch, (g'.batch b).1 = .ok batch) ∧
      ∀ batch batch', (g.batch a).1 = .ok batch → (g'.batch b).1 = .ok batch' →
        batch.hints = batch'.hints ∧
        ∀ methods methods' : Methods,
          (∀ m ∈ batch.methods, Table.get? methods (m.owner, m.name) = some m.body) →
          (∀ m ∈ batch'.methods, Table.get? methods' (m.owner, m.name) = some m.body) →
          Agree (fun d e : Definition => d == e)
            (execute methods batch.statements g.style.receiver)
            (execute methods' batch'.statements g'.style.receiver) := by
  have h : a.Equiv b := ⟨ha, hb, Value.bean_beq.mpr ⟨b, rfl, hab⟩⟩
  have hR := Value.Bisimulation.ofEquiv g.keep
  rw [Coherent.batch_congr hg hg' hsame, hsame.style]
  refine ⟨⟨hR.exists_batch ha hb h hresolve, hR.exists_batch hb ha h.symm hresolve⟩, ?_⟩
  intro batch batch' hbatch hbatch'
  refine ⟨hg.hints_eq h hbatch hbatch', fun methods methods' hmethods hmethods' => ?_⟩
  have hagree := hR.agree_execute ha hb h hresolve hbatch hbatch' hmethods hmethods'
  exact hagree.imp fun d e hde => hde.beq

/-- Two definitions that differ in the order of their properties and of those of a nested
definition. One generator writes a batch for either, one after the other, and the method has another
name in the second. -/
theorem batch_interchangeable_swapped :
    let wheel : TypeDecl := { type := ⟨"part.Wheel"⟩, methods := [.setter "size" ⟨"int"⟩] }
    let g : Generator := { types := (Registry.ofList [wheel]).source }
    let tyre (properties : List (String × Value)) : Value :=
      .bean { settings := { beanClass := some wheel.type }, properties }
    let size : String × Value := ("size", .literal (.int 7))
    let grade : String × Value := ("grade", .literal (.string "A"))
    let a : Definition :=
      { properties := [("left", tyre [size, grade]), ("right", tyre [grade, size])] }
    let b : Definition :=
      { properties := [("right", tyre [size, grade]), ("left", tyre [grade, size])] }
    a == b ∧ ∃ batch batch', (g.batch a).1 = .ok batch ∧ ((g.batch a).2.batch b).1 = .ok batch' ∧
      batch.methods.map Method.name = ["getLeftBeanDefinition"] ∧
      batch'.methods.map Method.name = ["getRightBeanDefinition"] ∧
      batch.hints.length = 1 ∧ batch.hints = batch'.hints ∧
      Agree (fun d e : Definition => d == e)
        (execute batch.table batch.statements g.style.receiver)
        (execute batch'.table batch'.statements g.style.receiver) := by
  intro wheel g tyre size grade a b
  have hab : a == b := by decide
  have ha : a.WellFormed := by decide
  have hb : b.WellFormed := by decide
  have hg : g.Coherent := .of_setters_eq_nil rfl
  obtain ⟨hsame, hg'⟩ := hg.batch a
  obtain ⟨batch, hbatch, hname, hlength⟩ : ∃ batch, (g.batch a).1 = .ok batch ∧
      batch.methods.map Method.name = ["getLeftBeanDefinition"] ∧ batch.hints.length = 1 :=
    ⟨_, rfl, by decide, by decide⟩
  obtain ⟨batch', hbatch', hname'⟩ : ∃ batch, ((g.batch a).2.batch b).1 = .ok batch ∧
      batch.methods.map Method.name = ["getRightBeanDefinition"] := ⟨_, rfl, by decide⟩
  obtain ⟨made, hmade⟩ := exists_made ha hbatch
  obtain ⟨made', hmade'⟩ := exists_made hb hbatch'
  obtain ⟨-, hall⟩ := batch_interchangeable hg hg' hsame rfl ha hb hab
  obtain ⟨hhints, hagree⟩ := hall batch batch' hbatch hbatch'
  exact ⟨hab, batch, batch', hbatch, hbatch', hname, hname', hlength, hhints,
    hagree batch.table batch'.table (hmade.get?_table ha) (hmade'.get?_table hb)⟩

end Generator

end BeanScript
