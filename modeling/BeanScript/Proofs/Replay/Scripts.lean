import BeanScript.Proofs.Replay.Parts
import BeanScript.Proofs.Replay.Settings
import BeanScript.Script.Generator

/-!
# Scripts, replayed

A script makes the edits of its settings, of its parts and of its lifecycle methods, in this order.
So a run of a script on a fresh definition, or a run of the method made of it, is determined by what
comes back of the values; it does not depend on the machine.

## Main definitions

* `Definition.replayEdits` — the edits that a script makes

## Main results

* `Script.Context.performs` — a script makes its edits
* `execute_eq` — the definition that a script leads to
-/

namespace BeanScript

/-- The edits that the script of a definition makes, or the fault that it ends with. -/
def Definition.replayEdits (keep : KeyFilter) (receiver : String)
    (bean : Definition → Except Fault Value) (d : Definition) : Except Fault (List Edit) :=
  ((d.parts keep).mapM (Part.outcome receiver bean)).map fun edits =>
    d.settings.edits ++ edits ++ lifecycleEdits .setInitMethods d.settings.initMethods ++
      lifecycleEdits .setDestroyMethods d.settings.destroyMethods

variable {call : StaticCalls} {bean : Definition → Except Fault Value}

/-- With a receiver of another name, nothing is captured. -/
theorem mapM_outcome_of_ne {receiver : String} (h : receiver ≠ Script.Context.qualifierLocal)
    (ps : List Part) : ps.mapM (Part.outcome receiver bean) = ps.mapM (Part.replay bean) := by
  refine mapM_congr_of_mem fun p _ => Part.outcome_of_not_captured ?_
  simp [Part.isCaptured, h]

/-- The expressions of the values of a part evaluate to what comes back of them. -/
theorem Part.yields_values {keep : KeyFilter} {resolve : Resolver} {d : Definition} {p : Part}
    (hcall : BuildsCollections call) (hwritten : d.every keep fun v => !v.isOpaque)
    (hbean : ∀ b ∈ d.beans keep, ∀ name e, resolve name (.bean b) = some e →
      e.Yields Machine.Grows call ((bean b).map .value))
    (hp : p ∈ d.parts keep) {es : List Expr}
    (h : p.values.mapM (encodeEntryAt resolve) = .ok es) :
    List.Forall₂ (fun e x => x.Yields Machine.Grows call ((e.2.replay bean).map .value))
      p.values es := by
  refine forall₂_imp_of_mem (mapM_eq_ok_iff.mp h) fun e he x _ hx => ?_
  have hheld := Definition.holds_of_mem_parts hp he
  refine Value.yields_of_encode hcall (Definition.every_iff.mp hwritten e.2 hheld) ?_ hx
  exact fun b hb x hx => hbean b (Definition.mem_beans_iff.mpr ⟨e.2, hheld, hb⟩) e.1 x hx

/-- A script makes its edits, when the expressions that supply nested definitions evaluate to what
comes back of these. -/
theorem Script.Context.performs {c : Script.Context} {d : Definition} {block : Block}
    (hcall : BuildsCollections call) (hwritten : d.every c.keep fun v => !v.isOpaque)
    (hbean : ∀ b ∈ d.beans c.keep, ∀ name e, c.resolve name (.bean b) = some e →
      e.Yields Machine.Grows call ((bean b).map .value))
    (h : c.statements d = .ok block) :
    Block.Performs call c.style.receiver block (d.replayEdits c.keep c.style.receiver bean) := by
  rw [statements_eq] at h
  obtain ⟨parts, hparts, rfl⟩ := map_eq_ok_iff.mp h
  have hperforms : Block.Performs call c.style.receiver parts
      ((d.parts c.keep).mapM (Part.outcome c.style.receiver bean)) := by
    refine .of_forall₂ (forall₂_imp_of_mem (mapM_eq_ok_iff.mp hparts) fun p hp s _ hs => ?_)
    obtain ⟨hfault, es, hes, rfl⟩ := write_eq_ok_iff.mp hs
    exact Part.performs hfault (Part.yields_values hcall hwritten hbean hp hes)
  have hall := (((d.settings.performs c.style).append hperforms).append
    (.of_edits (c.style.forall₂_init_performs d.settings.initMethods))).append
    (.of_edits (c.style.forall₂_destroy_performs d.settings.destroyMethods))
  rw [Definition.replayEdits]
  cases houtcome : (d.parts c.keep).mapM (Part.outcome c.style.receiver bean) <;>
    rw [houtcome] at hall <;> exact hall

/-- The definition that a script leads to: its edits, made on a fresh definition. -/
theorem execute_eq {methods : Methods} {block : Block} {receiver : String}
    {r : Except Fault (List Edit)}
    (h : Block.Performs (staticCallsAt methods 0) receiver block r) :
    execute methods block receiver = r.map ({} : Definition).applyAll := by
  let id : DefinitionRef := ⟨0⟩
  let m : Machine := { definitions := [{}] }
  have hvar : (m.define receiver (.definition id)).scopes.lookUp? receiver
      = some (.definition id) := by
    rw [Machine.define, Scopes.lookUp?_define, if_pos rfl]
  obtain ⟨m', hexec, hgrows⟩ := h (m.define receiver (.definition id)) id hvar Nat.zero_lt_one
  have hrun : Replay.exec methods block (m.define receiver (.definition id))
      = (r.map fun _ => none, m') := by
    rw [Replay.exec, Replay.bind_run, Replay.get_run]
    exact hexec
  simp only [execute, Machine.addDefinition, List.nil_append, List.length_nil]
  rw [hrun]
  cases r with
  | error fault => rfl
  | ok edits =>
    have hedit : m'.definition id = _ :=
      (hgrows edits rfl).definition (by simp [Machine.edit, Machine.define, m, id])
    rw [Machine.definition_edit Nat.zero_lt_one] at hedit
    exact congrArg Except.ok hedit

end BeanScript
