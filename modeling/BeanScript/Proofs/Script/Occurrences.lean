import BeanScript.Proofs.Replay.Interchange
import BeanScript.Proofs.Script.Listing

/-!
# The hints of all occurrences

A batch writes one method for nested definitions that are equal, and only what it writes adds hints.
An occurrence without a method of its own would need the same hints as the equal definition that has
one, so none is lost: the hints of a batch are those that the scripts of all occurrences need, the
definition itself included. Whatever is inside an occurrence that was passed over is equal to
something inside the definition that was not.

## Main results

* `Definition.Contains.exists_writes` — every one of them is equal to one that a batch writes
* `Generator.batch_hints_eq_merged` — the hints of a batch are those of all occurrences
-/

namespace BeanScript

namespace Definition

variable {keep : KeyFilter} {d u : Definition}

theorem Contains.every_isWritable (h : d.Contains keep u)
    (hd : (Value.bean d).every keep Value.isWritable) :
    (Value.bean u).every keep Value.isWritable := by
  induction h with
  | refl => exact hd
  | tail _ hmem ih => exact every_bean_of_mem_beans ih hmem

end Definition

namespace Generator

variable {g : Generator} {d u : Definition}

/-- What a batch writes is nested in the definition. -/
theorem Writes.contains (hd : d.WellFormed) (hu : g.Writes d u) : d.Contains g.keep u :=
  hu.inherits hd .refl fun _ hc _ hb => hc.tail hb

end Generator

namespace Definition.Contains

variable {g : Generator} {d u : Definition} (h : d.Contains g.keep u) (hd : d.WellFormed)

include h hd

/-- Every occurrence is equal to a definition that is written. -/
theorem exists_writes : ∃ w, g.Writes d w ∧ w.Equiv u := by
  induction h with
  | refl => exact ⟨d, .inl rfl, .refl hd⟩
  | tail _ hmem ih =>
    obtain ⟨w, hw, hequiv⟩ := ih
    obtain ⟨c, hc, hcb⟩ := hequiv.symm.exists_mem_beans hmem
    obtain ⟨v, hv, hvc⟩ := hw.exists_equiv hd hc
    exact ⟨v, hv, hvc.trans hcb.symm⟩

/-- What is nested in an occurrence has its method. -/
theorem knows {b : Definition} (hb : b ∈ u.beans g.keep) : (g.nested d).Knows b := by
  obtain ⟨w, hw, hequiv⟩ := h.exists_writes hd
  obtain ⟨c, hc, hbc⟩ := hequiv.symm.exists_mem_beans hb
  exact (hw.knows hd hc).of_equiv
    (fun n hn => NestedMethods.wellFormed_of_mem_list hd hn) hbc.symm

/-- Every occurrence has a script when there is a batch. -/
theorem exists_script (hresolve : g.resolve = .empty)
    (hbatch : ∃ batch, (g.batch d).1 = .ok batch) :
    ∃ s, (g.scriptWith (g.batchResolver d) u).1 = .ok s := by
  have hevery := h.every_isWritable ((Generator.exists_batch_iff hd hresolve).mp hbatch)
  obtain ⟨block, hblock⟩ := (Generator.exists_statements_iff hresolve hd (h.wellFormed hd)
    (fun _ => h.knows hd) ((Generator.SameChoices.refl g).fits u)
    fun _ => Definition.every_bean_of_mem_beans hevery).mpr hevery
  obtain ⟨hints, g', -, heq⟩ := g.scriptWith_eq (g.batchResolver d) u
  rw [heq, hblock]
  exact ⟨_, rfl⟩

end Definition.Contains

/-- Equal definitions need the same hints. -/
theorem Definition.Equiv.mem_neededHints_iff {a b : Definition} (h : a.Equiv b)
    {source : TypeSource} {x : Hint} : x ∈ a.neededHints source ↔ x ∈ b.neededHints source := by
  have hR := Value.Bisimulation.ofEquiv fun _ => true
  exact ⟨hR.mem_neededHints h, hR.mem_neededHints h.symm⟩

namespace Generator

variable {g : Generator} {d : Definition}

/-- The hints of a batch are those that the scripts of all occurrences need, the definition itself
included: of those that have a method of their own, and of those that share one. -/
theorem batch_hints_eq_merged (hg : g.Coherent) (hresolve : g.resolve = .empty)
    (hd : d.WellFormed) {batch : Batch} (h : (g.batch d).1 = .ok batch) :
    ∃ scripts : List Script,
      List.Forall₂ (fun u s => (g.scriptWith (g.batchResolver d) u).1 = .ok s)
        (d :: (d.listing g.keep).map Prod.snd) scripts ∧
      batch.hints = scripts.foldl (fun (hints : Hints) s => hints.merge s.hints) [] ∧
      ∀ x, x ∈ batch.hints ↔ ∃ s ∈ scripts, x ∈ s.hints := by
  obtain ⟨scripts, hscripts⟩ := exists_mapM_eq_ok fun u hu =>
    (Definition.mem_listing_iff.mp hu).exists_script hd hresolve ⟨batch, h⟩
  rw [mapM_eq_ok_iff] at hscripts
  obtain ⟨hinvocations, hwritten⟩ := hg.mem_hints_of_batch h
  have hmem : ∀ x, x ∈ batch.hints ↔ ∃ s ∈ scripts, x ∈ s.hints := by
    intro x
    rw [hwritten]
    constructor
    · rintro ⟨u, hu, hx⟩
      obtain ⟨s, hs, hscript⟩ :=
        exists_of_forall₂ hscripts (Definition.mem_listing_iff.mpr (hu.contains hd))
      exact ⟨s, hs, hg.hints_of_scriptWith hscript ▸ hx⟩
    · rintro ⟨s, hs, hx⟩
      obtain ⟨u, hu, hscript⟩ := exists_of_forall₂ hscripts.flip hs
      -- the occurrence may have no method, but an equal definition is written
      obtain ⟨w, hw, hequiv⟩ := (Definition.mem_listing_iff.mp hu).exists_writes hd
      rw [hg.hints_of_scriptWith hscript] at hx
      exact ⟨w, hw, hequiv.mem_neededHints_iff.mpr hx⟩
  have hinvoke : ∀ s ∈ scripts, ∀ x ∈ s.hints, x.mode = .invoke := by
    intro s hs x hx
    exact hinvocations.invoke x ((hmem x).mpr ⟨s, hs, hx⟩)
  obtain ⟨hmerged, hmem'⟩ := Hints.Invocations.nil.foldl_merge scripts hinvoke
  refine ⟨scripts, hscripts, hinvocations.eq_of_mem_iff hmerged fun x => ?_, hmem⟩
  rw [hmem, hmem']
  simp

/-- Two equal wheels share a method, and the spare one is rejected. -/
theorem batch_hints_eq_merged_wheels :
    let wheel : TypeDecl := { type := ⟨"part.Wheel"⟩, methods := [.setter "size" ⟨"int"⟩] }
    let spare : TypeDecl := { type := ⟨"part.Spare"⟩, methods := [.setter "size" ⟨"int"⟩] }
    let g : Generator :=
      { types := (Registry.ofList [wheel, spare]).source, keep := (· != "spare") }
    let part (type : ClassName) (properties : List (String × Value)) : Value :=
      .bean { settings := { beanClass := some type }, properties }
    let size : String × Value := ("size", .literal (.int 7))
    let grade : String × Value := ("grade", .literal (.string "A"))
    let d : Definition :=
      { properties :=
          [("left", part wheel.type [size, grade]),
            ("others", .list .plain [part wheel.type [grade, size]])]
        attributes := [("spare", part spare.type [size])] }
    d.WellFormed ∧ ∃ batch scripts, (g.batch d).1 = .ok batch ∧ batch.methods.length = 1 ∧
      batch.hints.map (fun x => x.key.owner) = [wheel.type] ∧
      List.Forall₂ (fun u s => (g.scriptWith (g.batchResolver d) u).1 = .ok s)
        (d :: (d.listing g.keep).map Prod.snd) scripts ∧
      batch.hints = scripts.foldl (fun (hints : Hints) s => hints.merge s.hints) [] ∧
      ∀ x, x ∈ batch.hints ↔ ∃ s ∈ scripts, x ∈ s.hints := by
  intro wheel spare g part size grade d
  have hd : d.WellFormed := by decide
  obtain ⟨batch, hbatch, hmethods, hhints⟩ : ∃ batch, (g.batch d).1 = .ok batch ∧
      batch.methods.length = 1 ∧ batch.hints.map (fun x => x.key.owner) = [wheel.type] :=
    ⟨_, rfl, by decide, by decide⟩
  obtain ⟨scripts, hscripts⟩ := batch_hints_eq_merged (.of_setters_eq_nil rfl) rfl hd hbatch
  exact ⟨hd, batch, scripts, hbatch, hmethods, hhints, hscripts⟩

end Generator

end BeanScript
