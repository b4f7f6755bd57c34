import BeanScript.Proofs.Script.Writable
import BeanScript.Proofs.Types.Hints

/-!
# Looked-up setters and the hints of a batch

A generator keeps the setters that it has looked up, so what it writes could depend on what it has
written before. It does not: what is kept are the setters that the type source gives. A generator
that has looked up nothing keeps nothing else, and no request changes that.

Hence the hints of a definition depend on the type source alone. The hints of a batch are those of
all definitions that it writes, together.

## Main definitions

* `TypeSource.setter?` — the setter of a property, looked up afresh
* `Definition.neededHints` — the hints of a definition, with setters looked up afresh
* `Generator.Coherent` — all setters that were looked up are those of the type source

## Main results

* `Generator.Coherent.script`, `Generator.Coherent.batch` — requests keep a generator coherent
* `Generator.Coherent.batch_eq` — what a coherent generator writes
* `Generator.Coherent.script_congr`, `Generator.Coherent.batch_congr` — what was written before does
  not matter
* `Generator.Coherent.mem_hints_of_batch` — the hints of a batch
-/

namespace BeanScript

/-- The setter of a property of a bean backed by the given type. -/
def TypeSource.setter? (source : TypeSource) (type : Option ClassName) (property : String) :
    Option Member := do
  let setters ← (source.setters (← type)).toOption
  setters.find? property

/-- The hints that a definition needs. -/
def Definition.neededHints (source : TypeSource) (d : Definition) : Hints :=
  d.hints source (source.setter? (d.backingType? source))

theorem Definition.invocations_neededHints (source : TypeSource) (d : Definition) :
    (d.neededHints source).Invocations :=
  (d.mem_hints_iff source _).1

namespace Generator

variable {g g' : Generator} {d : Definition}

/-- All setters that the generator has looked up are those that its type source gives. -/
def Coherent (g : Generator) : Prop :=
  ∀ type setters, Table.get? g.setters type = some setters →
    setters = (g.types.setters type).toOption

namespace Coherent

/-- A generator that has looked up nothing is coherent. -/
theorem of_setters_eq_nil (h : g.setters = []) : g.Coherent := by
  intro type setters hsetters
  rw [h] at hsetters
  cases hsetters

theorem withTypes (g : Generator) (types : TypeSource) : (g.withTypes types).Coherent :=
  of_setters_eq_nil rfl

theorem withResolver (hg : g.Coherent) (resolve : Resolver) : (g.withResolver resolve).Coherent :=
  hg

theorem withFilter (hg : g.Coherent) (keep : KeyFilter) : (g.withFilter keep).Coherent :=
  hg

theorem lookUpSetters (hg : g.Coherent) (type : ClassName) : (g.lookUpSetters type).Coherent := by
  rw [Generator.lookUpSetters]
  split
  · exact hg
  · intro other setters h
    rw [Table.get?_put] at h
    split at h
    · next heq =>
      obtain rfl := eq_of_beq heq
      exact (Option.some.inj h).symm
    · exact hg other setters h

/-- Looking up the setters of a type makes known the setters that the type source gives. -/
theorem setter?_lookUpSetters (hg : g.Coherent) (type : ClassName) :
    (g.lookUpSetters type).setter? (some type) = g.types.setter? (some type) := by
  have hlooked : Table.get? (g.lookUpSetters type).setters type
      = some (g.types.setters type).toOption := by
    rw [Generator.lookUpSetters]
    split
    · next hhas =>
      obtain ⟨setters, hsetters⟩ := Option.isSome_iff_exists.mp hhas
      rw [hsetters, hg type setters hsetters]
    · rw [Table.get?_put, if_pos (beq_self_eq_true type)]
  funext property
  simp only [Generator.setter?, TypeSource.setter?, hlooked, Option.bind_eq_bind, Option.bind_some]

/-- A coherent generator writes a definition with the setters that the type source gives. -/
theorem context_eq (hg : g.Coherent) (resolve : Resolver) (d : Definition) :
    g.context resolve d = { style := g.style, resolve, keep := g.keep,
                            setter? := g.types.setter? (d.backingType? g.types) } := by
  rw [context]
  cases d.backingType? g.types with
  | none => rfl
  | some type => simp only [hg.setter?_lookUpSetters type]

/-- What a coherent generator gives for a definition: the statements, the hints that the definition
needs, and a coherent generator with the same choices. -/
theorem scriptWith_eq (hg : g.Coherent) (resolve : Resolver) (d : Definition) :
    ∃ g', SameChoices g g' ∧ g'.Coherent ∧ g.scriptWith resolve d
      = (((g.context resolve d).statements d).map fun statements =>
          { statements, hints := d.neededHints g.types }, g') := by
  rw [Generator.scriptWith, context, Definition.neededHints]
  cases d.backingType? g.types with
  | none => exact ⟨g, .refl g, hg, rfl⟩
  | some type =>
    have hsame := SameChoices.lookUpSetters g type
    refine ⟨g.lookUpSetters type, hsame, hg.lookUpSetters type, ?_⟩
    simp only [hsame.style, hsame.keep, hsame.types, hg.setter?_lookUpSetters type]

/-- The hints of a script are those that the definition needs. -/
theorem hints_of_scriptWith (hg : g.Coherent) {resolve : Resolver} {s : Script}
    (h : (g.scriptWith resolve d).1 = .ok s) : s.hints = d.neededHints g.types := by
  obtain ⟨g', -, -, heq⟩ := hg.scriptWith_eq resolve d
  rw [heq] at h
  obtain ⟨statements, -, rfl⟩ := map_eq_ok_iff.mp h
  rfl

/-- A script for one definition keeps the choices, and keeps a generator coherent. -/
theorem script (hg : g.Coherent) (d : Definition) :
    SameChoices g (g.script d).2 ∧ (g.script d).2.Coherent := by
  obtain ⟨g', hsame, hg', heq⟩ := hg.scriptWith_eq g.resolve d
  rw [Generator.script, heq]
  exact ⟨hsame, hg'⟩

theorem methods (hg : g.Coherent) (resolve : Resolver) (owner : ClassName) (hints : Hints)
    (ns : List NestedMethod) : SameChoices g (g.methods resolve owner hints ns).2 ∧
      (g.methods resolve owner hints ns).2.Coherent := by
  induction ns generalizing g hints with
  | nil => exact ⟨.refl g, hg⟩
  | cons n ns ih =>
    obtain ⟨g', hsame, hg', heq⟩ := hg.scriptWith_eq resolve n.definition
    rw [Generator.methods, heq]
    cases (g.context resolve n.definition).statements n.definition with
    | error e => exact ⟨hsame, hg'⟩
    | ok s => exact (ih hg' _).imp_left hsame.trans

/-- A batch keeps the choices, and keeps a generator coherent. -/
theorem batch (hg : g.Coherent) (d : Definition) :
    SameChoices g (g.batch d).2 ∧ (g.batch d).2.Coherent := by
  obtain ⟨g', hsame, hg', heq⟩ := hg.scriptWith_eq (g.batchResolver d) d
  rw [Generator.batch, ← nested, ← batchResolver, heq]
  cases (g.context (g.batchResolver d) d).statements d with
  | error e => exact ⟨hsame, hg'⟩
  | ok s => exact (hg'.methods _ _ _ _).imp_left hsame.trans

/-! ### What was written before does not matter -/

theorem context_congr (hg : g.Coherent) (hg' : g'.Coherent) (h : SameChoices g g')
    (resolve : Resolver) (d : Definition) : g'.context resolve d = g.context resolve d := by
  rw [hg.context_eq, hg'.context_eq, h.style, h.keep, h.types]

/-- A coherent generator writes nested definitions one by one, and merges the hints that they
need. -/
theorem methods_eq (hg : g.Coherent) (resolve : Resolver) (owner : ClassName) (hints : Hints)
    (ns : List NestedMethod) :
    (g.methods resolve owner hints ns).1
      = (ns.mapM fun n => ((g.context resolve n.definition).statements n.definition).map fun s =>
          ({ owner, name := n.name, body := methodBody g.style n.definition s } : Method)).map
        fun methods => (methods,
          ns.foldl (fun hints n => hints.merge (n.definition.neededHints g.types)) hints) := by
  induction ns generalizing g hints with
  | nil => rfl
  | cons n ns ih =>
    obtain ⟨g', hsame, hg', heq⟩ := hg.scriptWith_eq resolve n.definition
    rw [Generator.methods, heq, mapM_cons_eq, List.foldl_cons]
    cases (g.context resolve n.definition).statements n.definition with
    | error e => rfl
    | ok s =>
      -- the rest is written by a generator that makes the same choices, so in the same contexts
      have hrest := ih hg' (hints.merge (n.definition.neededHints g.types))
      simp only [context_congr hg hg' hsame, hsame.style, hsame.types] at hrest
      simp only [map_ok, ok_bind, map_map_eq, hsame.style, hrest]

/-- A coherent generator writes a definition and those that a scan finds in it, and merges the hints
that they need. -/
theorem batch_eq (hg : g.Coherent) (d : Definition) :
    (g.batch d).1 = (g.context (g.batchResolver d) d).statements d >>= fun statements =>
      ((g.nested d).list.mapM fun n =>
        ((g.context (g.batchResolver d) n.definition).statements n.definition).map fun s =>
          ({ owner := (g.nested d).owner, name := n.name,
             body := methodBody g.style n.definition s } : Method)).map fun methods =>
        { statements, methods,
          hints := (g.nested d).list.foldl
            (fun hints n => hints.merge (n.definition.neededHints g.types))
            (d.neededHints g.types) } := by
  obtain ⟨g', hsame, hg', heq⟩ := hg.scriptWith_eq (g.batchResolver d) d
  rw [Generator.batch, ← nested, ← batchResolver, heq]
  cases (g.context (g.batchResolver d) d).statements d with
  | error e => rfl
  | ok s =>
    have hrest := hg'.methods_eq (g.batchResolver d) (g.nested d).owner (d.neededHints g.types)
      (g.nested d).list
    simp only [context_congr hg hg' hsame, hsame.style, hsame.types] at hrest
    simp only [map_ok, ok_bind, hrest, map_map_eq]

/-- The script of a definition does not depend on what a coherent generator has written before. -/
theorem script_congr (hg : g.Coherent) (hg' : g'.Coherent) (h : SameChoices g g')
    (d : Definition) : (g'.script d).1 = (g.script d).1 := by
  obtain ⟨_, -, -, heq⟩ := hg.scriptWith_eq g.resolve d
  obtain ⟨_, -, -, heq'⟩ := hg'.scriptWith_eq g'.resolve d
  rw [Generator.script, Generator.script, heq, heq', h.resolve, context_congr hg hg' h, h.types]

/-- The batch of a definition does not depend on what a coherent generator has written before. -/
theorem batch_congr (hg : g.Coherent) (hg' : g'.Coherent) (h : SameChoices g g') (d : Definition) :
    (g'.batch d).1 = (g.batch d).1 := by
  have hnested : g'.nested d = g.nested d := by rw [nested, nested, h.style, h.keep]
  have hresolver : g'.batchResolver d = g.batchResolver d := by
    rw [batchResolver, batchResolver, hnested, h.resolve]
  simp only [hg.batch_eq, hg'.batch_eq, hnested, hresolver, context_congr hg hg' h, h.style,
    h.types]

/-- The hints of a batch are those that the definitions need that it writes. -/
theorem mem_hints_of_batch (hg : g.Coherent) {batch : Batch} (h : (g.batch d).1 = .ok batch) :
    batch.hints.Invocations ∧ ∀ y, y ∈ batch.hints ↔
      ∃ u, g.Writes d u ∧ y ∈ u.neededHints g.types := by
  rw [hg.batch_eq] at h
  obtain ⟨statements, -, h⟩ := bind_eq_ok_iff.mp h
  obtain ⟨methods, -, rfl⟩ := map_eq_ok_iff.mp h
  obtain ⟨hall, hmem⟩ := (d.invocations_neededHints g.types).foldl_merge (g.nested d).list
    fun n _ => (n.definition.invocations_neededHints g.types).invoke
  refine ⟨hall, fun y => ?_⟩
  rw [hmem]
  simp [Writes, or_and_right, exists_or]

end Coherent

end Generator

end BeanScript
