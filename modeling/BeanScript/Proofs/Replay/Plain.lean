import BeanScript.Proofs.Replay.Rebuild
import BeanScript.Proofs.Script.Generation

/-!
# Scripts of plain definitions

Every value of a *plain* definition comes back as it is: no definition is nested in it, and it has
nothing without a written form and no constant that stands for a role. So the edits that its script
makes are known without running anything, one for each statement, and so is the definition that they
lead to, with the order of all its tables.

That definition is the original one but for its types, for what settings cannot say, and for
rejected attributes. Its qualifiers have their primary value first, where the script has it.

## Main definitions

* `Definition.Plain` — plain, outside rejected attributes
* `Qualifier.ordered` — a qualifier as it comes back
* `Part.edit`, `Definition.scriptEdits` — the edits of a script
* `Definition.scripted` — what the script leads to

## Main results

* `Script.Context.forall₂_performs` — each statement makes its edit
* `Definition.applyAll_scriptEdits` — the edits lead to the scripted definition
* `Generator.execute_script` — and so does the script
-/

namespace BeanScript

/-- Nothing is repeated in the definition, and outside rejected attributes there are neither nested
definitions nor values that cannot be written or come back as another value. -/
structure Definition.Plain (keep : KeyFilter) (d : Definition) : Prop where
  wellFormed : d.WellFormed
  beans : d.beans keep = []
  values : d.every keep Value.isPlain

/-- The qualifier with its attributes in the order in which they are written. -/
def Qualifier.ordered (q : Qualifier) : Qualifier :=
  { q with attributes := q.inOrder }

/-- The edit that adds a part again, with the values that it has. -/
def Part.edit : Part → Edit
  | .indexed index h => .addIndexed index h
  | .generic _ h => .addGeneric h
  | .property name v => .addProperty name v
  | .metadata key v => .setAttribute key v
  | .qualifier q => .addQualifier q.ordered

namespace Definition

/-- The edits that the script of a plain definition makes. -/
def scriptEdits (keep : KeyFilter) (d : Definition) : List Edit :=
  d.settings.edits ++ (d.parts keep).map Part.edit ++
    lifecycleEdits .setInitMethods d.settings.initMethods ++
    lifecycleEdits .setDestroyMethods d.settings.destroyMethods

/-- The definition that the script of a plain one leads to. -/
def scripted (keep : KeyFilter) (d : Definition) : Definition :=
  { d with
    settings := { d.settings.normal with targetType := none, beanClass := none }
    attributes := d.attributes.filter fun e => keep e.1
    qualifiers := d.qualifierList.map fun q => (q.typeName, q.inOrder) }

variable {keep : KeyFilter} {d : Definition}

/-! ### The edits and what they lead to -/

theorem partEdits_scripted : (d.scripted keep).partEdits = (d.parts keep).map Part.edit := by
  have hgeneric : d.generic.zipIdx.map (fun a => Edit.addGeneric a.1)
      = d.generic.map .addGeneric := by
    conv_rhs => rw [← List.zipIdx_map_fst 0 d.generic, List.map_map]
    rfl
  simp only [partEdits, scripted, parts, List.map_append, List.map_map, Function.comp_def,
    Part.edit, Qualifier.ordered, hgeneric]

/-- Keys are as distinct as before. -/
theorem Distinct.scripted (hd : d.Distinct) : (d.scripted keep).Distinct where
  indexed := hd.indexed
  generic := hd.generic
  properties := hd.properties
  attributes := Table.nodup_keys_filter (fun e => keep e.1) hd.attributes
  qualifiers := by
    have hkeys : Table.keys (d.scripted keep).qualifiers = Table.keys d.qualifiers := by
      simp [Definition.scripted, Table.keys, qualifierList]
    exact hkeys ▸ hd.qualifiers
  qualifierAttributes := by
    intro q hq
    obtain ⟨r, hr, rfl⟩ := List.mem_map.mp hq
    obtain ⟨e, he, rfl⟩ := List.mem_map.mp hr
    exact Qualifier.nodup_keys_inOrder (hd.qualifierAttributes e he)

/-- The edits, made on a fresh definition, lead to the scripted one. -/
theorem applyAll_scriptEdits (hd : d.Distinct) :
    ({} : Definition).applyAll (d.scriptEdits keep) = d.scripted keep := by
  have hscripted : (d.scripted keep).Distinct := hd.scripted
  have hgeneric : BeanScript.Distinct.ofList (· == ·) d.generic = d.generic :=
    Distinct.ofList_eq_self hd.generic
  have hfresh : ({} : Definition).withTypesOf {} = {} := rfl
  rw [scriptEdits, applyAll_append, applyAll_append, applyAll_append, ← hfresh,
    Settings.applyAll_edits, ← partEdits_scripted,
    applyAll_partEdits hscripted.indexed hscripted.properties hscripted.attributes
      hscripted.qualifiers,
    applyAll_lifecycleEdits .setInitMethods
      (fun names d => { d with settings := { d.settings with initMethods := names } })
      (fun _ => rfl) rfl,
    applyAll_lifecycleEdits .setDestroyMethods
      (fun names d => { d with settings := { d.settings with destroyMethods := names } })
      (fun _ => rfl) rfl]
  simp only [scripted, hgeneric, Settings.normal]

/-! ### The script -/

/-- What comes back of a value in a plain definition is the value. -/
theorem Plain.replay_value {bean : Definition → Except Fault Value} (hd : d.Plain keep) {p : Part}
    (hp : p ∈ d.parts keep) {e : String × Value} (he : e ∈ p.values) :
    e.2.replay bean = .ok e.2 := by
  have hheld := holds_of_mem_parts hp he
  refine Value.replay_of_plain (hd.wellFormed.of_holds hheld) ?_
    (every_iff.mp (every_mono Value.not_isRoleConstant_of_isPlain hd.values) e.2 hheld)
  refine List.eq_nil_iff_forall_not_mem.mpr fun b hb => ?_
  have hmem := mem_beans_iff.mpr ⟨e.2, hheld, hb⟩
  rw [hd.beans] at hmem
  cases hmem

/-- What comes back of a part of a plain definition is the part. -/
theorem Plain.replay_part {bean : Definition → Except Fault Value} (hd : d.Plain keep) {p : Part}
    (hp : p ∈ d.parts keep) : p.replay bean = .ok p.edit := by
  have hdistinct := (wellFormed_iff.mp hd.wellFormed).1
  have hvalue : ∀ e ∈ p.values, e.2.replay bean = .ok e.2 := fun _ he => hd.replay_value hp he
  cases p with
  | qualifier q =>
    obtain ⟨e, he, rfl⟩ : ∃ e ∈ d.qualifiers, { typeName := e.1, attributes := e.2 } = q := by
      simpa [parts, qualifierList] using hp
    have hback : (Qualifier.inOrder ⟨e.1, e.2⟩).mapM (replayAt bean)
        = .ok (Qualifier.inOrder ⟨e.1, e.2⟩) := by
      refine mapM_eq_ok_iff.mpr (List.forall₂_same.mpr fun f hf => ?_)
      rw [replayAt, hvalue f hf, map_ok]
    have hkeys : (Table.keys (Qualifier.inOrder ⟨e.1, e.2⟩)).Nodup :=
      Qualifier.nodup_keys_inOrder (hdistinct.qualifierAttributes e he)
    rw [Part.replay, Qualifier.replay, hback, map_ok, map_ok,
      Table.ofList_eq_self (Table.pairwise_of_nodup_keys hkeys), Part.edit, Qualifier.ordered]
  | indexed index h =>
    cases h
    rw [Part.replay, hvalue _ (List.mem_singleton_self _), map_ok, Part.edit]
  | generic number h =>
    cases h
    rw [Part.replay, hvalue _ (List.mem_singleton_self _), map_ok, Part.edit]
  | property name v => rw [Part.replay, hvalue _ (List.mem_singleton_self _), map_ok, Part.edit]
  | metadata key v => rw [Part.replay, hvalue _ (List.mem_singleton_self _), map_ok, Part.edit]

end Definition

/-- Each statement of the script of a plain definition makes the edit that belongs to it. -/
theorem Script.Context.forall₂_performs {call : StaticCalls} {c : Script.Context} {d : Definition}
    {block : Block} (hcall : BuildsCollections call) (hd : d.Plain c.keep)
    (hreceiver : c.style.receiver ≠ Script.Context.qualifierLocal)
    (h : c.statements d = .ok block) :
    List.Forall₂ (fun (s : Stmt) e => s.Performs call c.style.receiver (.ok [e])) block
      (d.scriptEdits c.keep) := by
  rw [statements_eq] at h
  obtain ⟨parts, hparts, rfl⟩ := map_eq_ok_iff.mp h
  have hstatements : List.Forall₂ (fun (s : Stmt) e => s.Performs call c.style.receiver (.ok [e]))
      parts ((d.parts c.keep).map Part.edit) := by
    refine List.forall₂_map_right_iff.mpr
      (forall₂_flip_of_mem (mapM_eq_ok_iff.mp hparts) fun p hp s _ hs => ?_)
    obtain ⟨hfault, es, hes, rfl⟩ := write_eq_ok_iff.mp hs
    let bean : Definition → Except Fault Value := fun d => .ok (.bean d)
    have hnone : ∀ b ∈ d.beans c.keep, ∀ name e, c.resolve name (.bean b) = some e →
        e.Yields Machine.Grows call ((bean b).map .value) := by
      intro b hb
      rw [hd.beans] at hb
      cases hb
    have hyields := Part.yields_values hcall
      (Definition.every_mono Value.not_isOpaque_of_isPlain hd.values) hnone hp hes
    have houtcome : p.outcome c.style.receiver bean = .ok p.edit := by
      rw [Part.outcome_of_not_captured (by simp [Part.isCaptured, hreceiver]), hd.replay_part hp]
    have hperforms := Part.performs (c := c) hfault hyields
    rwa [houtcome] at hperforms
  exact List.rel_append (List.rel_append (List.rel_append (d.settings.forall₂_performs c.style)
    hstatements) (c.style.forall₂_init_performs d.settings.initMethods))
    (c.style.forall₂_destroy_performs d.settings.destroyMethods)

/-- Statements that make one edit each lead to what these edits make of a fresh definition. -/
theorem execute_of_forall₂ {methods : Methods} {block : Block} {receiver : String}
    {edits : List Edit}
    (h : List.Forall₂ (fun (s : Stmt) e =>
      s.Performs (staticCallsAt methods 0) receiver (.ok [e])) block edits) :
    execute methods block receiver = .ok (({} : Definition).applyAll edits) :=
  execute_eq (.of_edits h)

namespace Generator

variable {g : Generator} {d : Definition} {s : Script}

/-- Each statement of a script of a plain definition makes the edit that belongs to it. -/
theorem forall₂_performs (hd : d.Plain g.keep)
    (hreceiver : g.style.receiver ≠ Script.Context.qualifierLocal) (h : (g.script d).1 = .ok s)
    (methods : Methods) :
    List.Forall₂ (fun (stmt : Stmt) e =>
        stmt.Performs (staticCallsAt methods 0) g.style.receiver (.ok [e]))
      s.statements (d.scriptEdits g.keep) :=
  Script.Context.forall₂_performs (c := g.context g.resolve d) (buildsCollections_staticCall _ _) hd
    hreceiver (statements_of_scriptWith h)

/-- The script of a plain definition leads to the scripted definition. -/
theorem execute_script (hd : d.Plain g.keep)
    (hreceiver : g.style.receiver ≠ Script.Context.qualifierLocal) (h : (g.script d).1 = .ok s)
    (methods : Methods) :
    execute methods s.statements g.style.receiver = .ok (d.scripted g.keep) := by
  rw [execute_of_forall₂ (forall₂_performs hd hreceiver h methods),
    Definition.applyAll_scriptEdits (Definition.wellFormed_iff.mp hd.wellFormed).1]

end Generator

end BeanScript
