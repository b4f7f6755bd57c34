import BeanScript.Proofs.Replay.Interchange
import BeanScript.Proofs.Script.Faults

/-!
# Rejected attributes have no influence

Take two definitions that are the same but for attributes that the filter rejects, their own or those
of definitions nested in them at any depth. Their batches may be different: rejected attributes take
part in the equality of definitions, so they decide which nested definitions share a method, how many
methods there are and what their names are. None of it can be told from the outside. Both batches
fail with the same fault, or both can be written; they need the same hints; and replayed they lead
to equal definitions, or both fail.

## Main results

* `Definition.listing_pruned` — pruning and listing commute
* `Generator.Coherent.faultOf?_batch_pruned` — the fault of a batch
* `Generator.batch_rejected_irrelevant` — two batches, and their replays
-/

namespace BeanScript

namespace Definition

variable {keep : KeyFilter}

theorem occurrences_pruned {d : Definition} : (d.pruned keep).occurrences keep
    = (d.occurrences keep).map fun o => (o.1, o.2.pruned keep) := by
  rw [occurrences, occurrences, held_pruned, List.flatMap_map, List.map_flatMap]
  refine List.flatMap_congr fun e _ => ?_
  rw [Value.beans_pruned, List.map_map, List.map_map]
  rfl

/-- Rejected attributes have no place in the listing. -/
theorem listing_pruned {d : Definition} : (d.pruned keep).listing keep
    = (d.listing keep).map fun o => (o.1, o.2.pruned keep) := by
  rw [listing_eq, listing_eq, occurrences_pruned, List.flatMap_map, List.map_flatMap]
  refine List.flatMap_congr fun o ho => ?_
  have hsize := sizeOf_lt_of_mem_beans (mem_beans_of_mem_occurrences ho)
  rw [List.map_cons, ← listing_pruned]
termination_by sizeOf d

end Definition

namespace Generator

variable {g g' : Generator} {a b d : Definition}

/-- Rejected attributes decide nothing about the fault of a batch. -/
theorem Coherent.faultOf?_batch_pruned (hg : g.Coherent) (hresolve : g.resolve = .empty)
    (hd : d.WellFormed) : faultOf? (g.batch d).1
      = (d.pruned g.keep :: ((d.pruned g.keep).listing g.keep).map Prod.snd).findSome?
        (Definition.fault? g.keep) := by
  have hlist : d.pruned g.keep :: ((d.pruned g.keep).listing g.keep).map Prod.snd
      = (d :: (d.listing g.keep).map Prod.snd).map (Definition.pruned g.keep) := by
    rw [Definition.listing_pruned, List.map_map, List.map_cons, List.map_map]
    rfl
  rw [hg.faultOf?_batch hresolve hd, hlist, List.findSome?_map]
  exact findSome?_congr_of_mem fun u _ => Definition.fault?_pruned.symm

/-- Rejected attributes, wherever they are, have no influence. Two definitions that differ in
nothing else have no batch, for the same fault, or they have batches that need the same hints and
that lead to equal definitions when they are replayed, or fail both. -/
theorem batch_rejected_irrelevant (hg : g.Coherent) (hg' : g'.Coherent) (hsame : SameChoices g g')
    (hresolve : g.resolve = .empty) (ha : a.WellFormed) (hb : b.WellFormed)
    (hab : a.pruned g.keep = b.pruned g.keep) :
    (∃ e, (g.batch a).1 = .error e ∧ (g'.batch b).1 = .error e) ∨
      ∃ batch batch', (g.batch a).1 = .ok batch ∧ (g'.batch b).1 = .ok batch' ∧
        batch.hints = batch'.hints ∧
        ∀ methods methods' : Methods,
          (∀ m ∈ batch.methods, Table.get? methods (m.owner, m.name) = some m.body) →
          (∀ m ∈ batch'.methods, Table.get? methods' (m.owner, m.name) = some m.body) →
          Agree (fun d e : Definition => d == e)
            (execute methods batch.statements g.style.receiver)
            (execute methods' batch'.statements g'.style.receiver) := by
  rw [Coherent.batch_congr hg hg' hsame, hsame.style]
  have hfault : faultOf? (g.batch b).1 = faultOf? (g.batch a).1 := by
    rw [hg.faultOf?_batch_pruned hresolve ha, hg.faultOf?_batch_pruned hresolve hb, hab]
  cases hbatch : (g.batch a).1 with
  | error e =>
    rw [hbatch] at hfault
    exact .inl ⟨e, rfl, faultOf?_eq_some_iff.mp hfault⟩
  | ok batch =>
    rw [hbatch] at hfault
    obtain ⟨batch', hbatch'⟩ := faultOf?_eq_none_iff.mp hfault
    have hR := Value.Bisimulation.ofPruned g.keep
    have h : Value.PrunedAlike g.keep (.bean a) (.bean b) := .of_eq ha hb (congrArg Value.bean hab)
    refine .inr ⟨batch, batch', rfl, hbatch', hg.hints_eq_of_bisimulation hR h hbatch hbatch', ?_⟩
    intro methods methods' hmethods hmethods'
    exact (hR.agree_execute ha hb h hresolve hbatch hbatch' hmethods hmethods').imp
      fun d e hde => hde.beq

/-- Two tyres that are equal, and two that differ in a rejected attribute: they share a method or
get two, and nothing else tells the batches apart. -/
theorem batch_rejected_irrelevant_note :
    let wheel : TypeDecl := { type := ⟨"part.Wheel"⟩, methods := [.setter "size" ⟨"int"⟩] }
    let g : Generator := { types := (Registry.ofList [wheel]).source, keep := (· != "note") }
    let tyre (note : String) : Value :=
      .bean { settings := { beanClass := some wheel.type }
              properties := [("size", .literal (.int 7))]
              attributes := [("grade", .literal (.string "A")), ("note", .literal (.string note))] }
    let car (note : String) : Definition :=
      { properties := [("left", tyre "new"), ("right", tyre note)] }
    (car "new").pruned g.keep = (car "old").pruned g.keep ∧
      ∃ batch batch', (g.batch (car "new")).1 = .ok batch ∧
        (g.batch (car "old")).1 = .ok batch' ∧
        batch.methods.length = 1 ∧ batch'.methods.length = 2 ∧
        batch.hints.length = 1 ∧ batch.hints = batch'.hints ∧
        Agree (fun d e : Definition => d == e)
          (execute batch.table batch.statements g.style.receiver)
          (execute batch'.table batch'.statements g.style.receiver) := by
  intro wheel g tyre car
  have hpruned : (car "new").pruned g.keep = (car "old").pruned g.keep := rfl
  have ha : (car "new").WellFormed := by decide
  have hb : (car "old").WellFormed := by decide
  have hg : g.Coherent := .of_setters_eq_nil rfl
  obtain ⟨batch, hbatch, hone, hlength⟩ : ∃ batch, (g.batch (car "new")).1 = .ok batch ∧
      batch.methods.length = 1 ∧ batch.hints.length = 1 := ⟨_, rfl, by decide, by decide⟩
  obtain ⟨batch', hbatch', htwo⟩ : ∃ batch, (g.batch (car "old")).1 = .ok batch ∧
      batch.methods.length = 2 := ⟨_, rfl, by decide⟩
  obtain ⟨made, hmade⟩ := exists_made ha hbatch
  obtain ⟨made', hmade'⟩ := exists_made hb hbatch'
  refine ⟨hpruned, batch, batch', hbatch, hbatch', hone, htwo, hlength, ?_⟩
  obtain ⟨e, he, -⟩ | ⟨c, c', hc, hc', hhints, hagree⟩ :=
    batch_rejected_irrelevant hg hg (.refl g) rfl ha hb hpruned
  · rw [hbatch] at he
    cases he
  · cases hbatch.symm.trans hc
    cases hbatch'.symm.trans hc'
    exact ⟨hhints, hagree batch.table batch'.table (hmade.get?_table ha) (hmade'.get?_table hb)⟩

end Generator

end BeanScript
