import BeanScript.Proofs.Script.Parts
import BeanScript.Script.Generator

/-!
# Scripts, generated

A generator writes a definition in a context that it makes of its own choices and of the setters it
looks up. Whether the definition can be written depends on the resolver and on the values, but not
on the style.

## Main definitions

* `Generator.context` — the context in which a definition is written
* `Generator.withReceiver` — the same generator with another receiver

## Main results

* `Generator.scriptWith_eq` — the script of a definition, from its context
* `Script.Context.exists_statements` — the style does not matter for whether there is a script
-/

namespace BeanScript

namespace Generator

/-- The context in which a definition is written. -/
def context (g : Generator) (resolve : Resolver) (d : Definition) : Script.Context :=
  let type := d.backingType? g.types
  let looked := match type with
    | some type => g.lookUpSetters type
    | none => g
  { style := g.style, resolve, keep := g.keep, setter? := looked.setter? type }

/-- Use another variable for the statements. -/
def withReceiver (g : Generator) (receiver : String) : Generator :=
  { g with style := { g.style with receiver } }

/-- The choices of a generator: everything but the setters that it has looked up. -/
structure SameChoices (g g' : Generator) : Prop where
  style : g'.style = g.style
  types : g'.types = g.types
  resolve : g'.resolve = g.resolve
  keep : g'.keep = g.keep

theorem SameChoices.refl (g : Generator) : SameChoices g g :=
  ⟨rfl, rfl, rfl, rfl⟩

theorem SameChoices.trans {g g' g'' : Generator} (h : SameChoices g g')
    (h' : SameChoices g' g'') : SameChoices g g'' :=
  ⟨h'.style.trans h.style, h'.types.trans h.types, h'.resolve.trans h.resolve,
    h'.keep.trans h.keep⟩

theorem SameChoices.lookUpSetters (g : Generator) (type : ClassName) :
    SameChoices g (g.lookUpSetters type) := by
  rw [Generator.lookUpSetters]
  split <;> exact ⟨rfl, rfl, rfl, rfl⟩

/-- The script of a definition consists of the statements that its context gives, and hints.
Writing it changes no choice. -/
theorem scriptWith_eq (g : Generator) (resolve : Resolver) (d : Definition) :
    ∃ hints g', SameChoices g g' ∧ g.scriptWith resolve d
      = (((g.context resolve d).statements d).map fun statements => { statements, hints }, g') := by
  rw [scriptWith, context]
  cases d.backingType? g.types with
  | none => exact ⟨_, g, .refl g, rfl⟩
  | some type =>
    have hsame := SameChoices.lookUpSetters g type
    let g' := g.lookUpSetters type
    refine ⟨d.hints g'.types (g'.setter? (some type)), g', hsame, ?_⟩
    simp only [g', hsame.style, hsame.keep]

theorem statements_of_scriptWith {g : Generator} {resolve : Resolver} {d : Definition} {s : Script}
    (h : (g.scriptWith resolve d).1 = .ok s) :
    (g.context resolve d).statements d = .ok s.statements := by
  obtain ⟨hints, g', -, heq⟩ := g.scriptWith_eq resolve d
  rw [heq] at h
  obtain ⟨statements, hstatements, rfl⟩ := map_eq_ok_iff.mp h
  exact hstatements

theorem context_withReceiver (g : Generator) (receiver : String) (resolve : Resolver)
    (d : Definition) : (g.withReceiver receiver).context resolve d
      = { g.context resolve d with style := { g.style with receiver } } := by
  rw [context, context, withReceiver]
  cases d.backingType? g.types with
  | none => rfl
  | some type =>
    simp only [Generator.lookUpSetters]
    split <;> rfl

end Generator

/-- The style does not matter for whether there is a script. -/
theorem Script.Context.exists_statements {c : Script.Context} {d : Definition} {block : Block}
    (h : c.statements d = .ok block) (style : Style) :
    ∃ block', { c with style }.statements d = .ok block' := by
  rw [statements_eq] at h ⊢
  obtain ⟨parts, hparts, -⟩ := map_eq_ok_iff.mp h
  have hwrite : ∀ p ∈ d.parts c.keep, ∃ s, { c with style }.write p = .ok s := by
    intro p hp
    obtain ⟨s, -, hs⟩ := exists_of_forall₂ (mapM_eq_ok_iff.mp hparts) hp
    obtain ⟨hfault, es, hes, -⟩ := write_eq_ok_iff.mp hs
    exact ⟨_, write_eq_ok_iff.mpr ⟨hfault, es, hes, rfl⟩⟩
  obtain ⟨parts', hparts'⟩ := exists_mapM_eq_ok hwrite
  exact ⟨_, map_eq_ok_iff.mpr ⟨parts', hparts', rfl⟩⟩

end BeanScript
