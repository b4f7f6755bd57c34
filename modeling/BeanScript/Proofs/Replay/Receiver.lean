import BeanScript.Proofs.Replay.ReadBack
import BeanScript.Proofs.Replay.Scripts
import BeanScript.Proofs.Script.Generation

/-!
# The name of the receiver

A script is written for a receiver variable, and the name of the variable should not matter. It
matters in one case. The local in which qualifiers are built has a fixed name, and a receiver of the
same name is hidden by it: the call that should add the qualifier to the definition is made on the
qualifier. The run then ends with a fault, if it gets there.

## Main definitions

* `Definition.reachesScope` — a run gets to the scope of a qualifier

## Main results

* `mapM_outcome_qualifierLocal` — a hidden receiver lets a run fail at the end of a scope
* `Generator.replayEdits_qualifierLocal` — such a run beside that for any other receiver
-/

namespace BeanScript

/-! ### Getting to the scope of a qualifier -/

variable {bean : Definition → Except Fault Value}

/-- Running the statements of the parts gets to the scope of a qualifier, and to its end. -/
def reachesScope (keep : KeyFilter) : List Part → Bool
  | [] => false
  | p :: ps => p.isReadBack keep && (p.opensScope || reachesScope keep ps)

/-- Running the script of a definition gets to the scope of a qualifier, and to its end. -/
def Definition.reachesScope (keep : KeyFilter) (d : Definition) : Bool :=
  BeanScript.reachesScope keep (d.parts keep)

/-- An unknown role constant. -/
def Fault.isUnknownField (f : Fault) : Prop :=
  ∃ owner name, f = .unknownStaticField owner name

/-- Parts without nested definitions are read back, unless they name unknown roles. -/
theorem Part.readsBack_of_beans_eq_nil (keep : KeyFilter) {p : Part}
    (hbeans : ∀ e ∈ p.values, e.2.beans = []) :
    ReadsBack Fault.isUnknownField (p.isReadBack keep) (p.replay bean) := by
  have hnone : ∀ e ∈ p.values, ∀ b ∈ e.2.beans, False := by
    intro e he b hb
    rw [hbeans e he] at hb
    cases hb
  have hback : ReadsBack Fault.isUnknownField
      (p.isReadBack keep ∧ ∀ e ∈ p.values, ∀ b ∈ e.2.beans, False) (p.replay bean) :=
    Part.readsBack (.inr fun _ _ => ⟨_, _, rfl⟩) fun e he b hb => (hnone e he b hb).elim
  exact hback.congr (and_iff_left hnone)

/-- With a receiver of the same name, a run that gets to the end of the scope of a qualifier ends
there with a fault. -/
theorem mapM_outcome_qualifierLocal (keep : KeyFilter) {ps : List Part}
    (hbeans : ∀ p ∈ ps, ∀ e ∈ p.values, e.2.beans = []) :
    ps.mapM (Part.outcome Script.Context.qualifierLocal bean) =
      if reachesScope keep ps then .error Part.captureFault else ps.mapM (Part.replay bean) := by
  induction ps with
  | nil => rfl
  | cons p ps ih =>
    rw [List.forall_mem_cons] at hbeans
    rw [mapM_cons_eq, mapM_cons_eq, ih hbeans.2, reachesScope, Part.outcome, Part.isCaptured,
      beq_self_eq_true, Bool.and_true]
    rcases Part.readsBack_of_beans_eq_nil keep hbeans.1 with
      ⟨hback, edit, hedit⟩ | ⟨hback, fault, -, hfault⟩
    · rw [hedit, hback, Bool.true_and, ok_bind, ok_bind]
      cases p.opensScope
      · simp only [Bool.false_eq_true, if_false, ok_bind, Bool.false_or]
        split <;> rfl
      · rfl
    · rw [hfault, Bool.eq_false_iff.mpr hback]
      rfl

namespace Generator

variable {g : Generator} {d : Definition}

/-- A definition that can be written for one receiver can be written for another one. -/
theorem exists_script_withReceiver {receiver : String} {s : Script}
    (h : ((g.withReceiver receiver).script d).1 = .ok s) (receiver' : String) :
    ∃ s', ((g.withReceiver receiver').script d).1 = .ok s' := by
  have hstatements := statements_of_scriptWith h
  rw [context_withReceiver] at hstatements
  obtain ⟨block, hblock⟩ :=
    Script.Context.exists_statements hstatements { g.style with receiver := receiver' }
  obtain ⟨hints, g', -, heq⟩ := (g.withReceiver receiver').scriptWith_eq g.resolve d
  refine ⟨{ statements := block, hints }, ?_⟩
  rw [script, show (g.withReceiver receiver').resolve = g.resolve from rfl, heq,
    context_withReceiver]
  exact map_eq_ok_iff.mpr ⟨block, hblock, rfl⟩

/-- The outcome for a receiver, of a definition without nested definitions. -/
theorem execute_withReceiver (hbeans : d.beans g.keep = [])
    (hwritten : d.every g.keep fun v => !v.isOpaque) (methods : Methods)
    (bean : Definition → Except Fault Value) {receiver : String} {s : Script}
    (h : ((g.withReceiver receiver).script d).1 = .ok s) :
    execute methods s.statements receiver
      = (d.replayEdits g.keep receiver bean).map ({} : Definition).applyAll := by
  have hperforms : Block.Performs (staticCallsAt methods 0) receiver s.statements
      (d.replayEdits g.keep receiver bean) := by
    refine Script.Context.performs (buildsCollections_staticCall _ _) hwritten (fun b hb => ?_)
      (statements_of_scriptWith h)
    have hmem : b ∈ d.beans g.keep := hb
    rw [hbeans] at hmem
    cases hmem
  exact execute_eq hperforms

/-- The outcome for a receiver with the name of the local for qualifiers, beside that for any other
receiver. -/
theorem replayEdits_qualifierLocal (hbeans : d.beans g.keep = [])
    (bean : Definition → Except Fault Value) {receiver : String}
    (hreceiver : receiver ≠ Script.Context.qualifierLocal) :
    d.replayEdits g.keep receiver bean ≠ .error Part.captureFault ∧
      d.replayEdits g.keep Script.Context.qualifierLocal bean =
        if d.reachesScope g.keep then .error Part.captureFault
        else d.replayEdits g.keep receiver bean := by
  have hnone : ∀ p ∈ d.parts g.keep, ∀ e ∈ p.values, e.2.beans = [] := by
    intro p hp e he
    refine List.eq_nil_iff_forall_not_mem.mpr fun b hb => ?_
    have hmem := Definition.mem_beans_iff.mpr ⟨e.2, Definition.holds_of_mem_parts hp he, hb⟩
    rw [hbeans] at hmem
    cases hmem
  have hreplay : (d.parts g.keep).mapM (Part.replay bean) ≠ .error Part.captureFault :=
    (ReadsBack.mapM fun p hp => Part.readsBack_of_beans_eq_nil g.keep (hnone p hp)).ne_error
      fun ⟨owner, name, h⟩ => by cases h
  rw [Definition.replayEdits, Definition.replayEdits, mapM_outcome_of_ne hreceiver,
    mapM_outcome_qualifierLocal g.keep hnone, Definition.reachesScope]
  constructor
  · intro h
    cases hparts : (d.parts g.keep).mapM (Part.replay bean) with
    | error fault =>
      rw [hparts] at h hreplay
      exact hreplay h
    | ok edits =>
      rw [hparts] at h
      cases h
  · split <;> rfl

/-- Two receivers lead to the same outcome, unless exactly one of them has the name of the local for
qualifiers and a run gets to the scope of that local. -/
theorem execute_eq_iff (hbeans : d.beans g.keep = [])
    (hwritten : d.every g.keep fun v => !v.isOpaque) (methods : Methods)
    {receiver : String} {s : Script} (h : ((g.withReceiver receiver).script d).1 = .ok s)
    (receiver' : String) :
    ∃ s', ((g.withReceiver receiver').script d).1 = .ok s' ∧
      (execute methods s.statements receiver = execute methods s'.statements receiver' ↔
        ((receiver = Script.Context.qualifierLocal ↔
            receiver' = Script.Context.qualifierLocal) ∨ ¬ d.reachesScope g.keep)) := by
  let bean : Definition → Except Fault Value := fun d => .ok (.bean d)
  obtain ⟨s', h'⟩ := exists_script_withReceiver h receiver'
  refine ⟨s', h', ?_⟩
  rw [execute_withReceiver hbeans hwritten methods bean h,
    execute_withReceiver hbeans hwritten methods bean h']
  -- a captured run fails as no other run does
  have hcaptured : ∀ {receiver : String}, receiver ≠ Script.Context.qualifierLocal →
      ((d.replayEdits g.keep Script.Context.qualifierLocal bean).map ({} : Definition).applyAll
        = (d.replayEdits g.keep receiver bean).map ({} : Definition).applyAll ↔
        ¬ d.reachesScope g.keep) := by
    intro receiver hreceiver
    obtain ⟨hne, hlocal⟩ := replayEdits_qualifierLocal hbeans bean hreceiver
    rw [hlocal]
    split
    · next hreaches =>
      refine ⟨fun heq => absurd ?_ hne, fun hnot => absurd hreaches hnot⟩
      cases hedits : d.replayEdits g.keep receiver bean <;> rw [hedits] at heq <;> cases heq
      rfl
    · next hreaches => exact ⟨fun _ => hreaches, fun _ => rfl⟩
  by_cases hreceiver : receiver = Script.Context.qualifierLocal <;>
    by_cases hreceiver' : receiver' = Script.Context.qualifierLocal
  · rw [hreceiver, hreceiver']
    exact ⟨fun _ => .inl Iff.rfl, fun _ => rfl⟩
  · rw [hreceiver, hcaptured hreceiver']
    simp [hreceiver']
  · rw [hreceiver', eq_comm, hcaptured hreceiver]
    simp [hreceiver]
  · -- neither receiver is hidden
    have hedits : d.replayEdits g.keep receiver bean = d.replayEdits g.keep receiver' bean := by
      rw [Definition.replayEdits, Definition.replayEdits, mapM_outcome_of_ne hreceiver,
        mapM_outcome_of_ne hreceiver']
    rw [hedits]
    exact ⟨fun _ => .inl (iff_of_false hreceiver hreceiver'), fun _ => rfl⟩

/-- A size, added by a script for each of two receivers. -/
theorem execute_size_iff :
    let d : Definition := { qualifiers := [("Size", [("value", .null), ("unit", .string "mm")])] }
    let g : Generator := {}
    ∃ s s', ((g.withReceiver "bean").script d).1 = .ok s ∧
      ((g.withReceiver "qualifier").script d).1 = .ok s' ∧
      (execute [] s.statements "bean" = execute [] s'.statements "qualifier" ↔
        (("bean" = Script.Context.qualifierLocal ↔ "qualifier" = Script.Context.qualifierLocal) ∨
          ¬ d.reachesScope g.keep)) := by
  intro d g
  obtain ⟨s, hs⟩ : ∃ s, ((g.withReceiver "bean").script d).1 = .ok s := ⟨_, rfl⟩
  obtain ⟨s', hs', hiff⟩ :=
    execute_eq_iff (g := g) (d := d) rfl rfl [] hs "qualifier"
  exact ⟨s, s', hs, hs', hiff⟩

/-- The receiver is hidden by the local for qualifiers, where it has the same name. -/
theorem execute_size_captured :
    ∃ (g : Generator) (d : Definition) (s s' : Script), d.beans g.keep = [] ∧
      (d.every g.keep fun v => !v.isOpaque) ∧
      ((g.withReceiver "bean").script d).1 = .ok s ∧
      ((g.withReceiver "qualifier").script d).1 = .ok s' ∧
      execute [] s.statements "bean" = .ok d ∧
      execute [] s'.statements "qualifier"
        = .error (.undefinedMethod "addQualifier" "qualifier") :=
  ⟨{}, { qualifiers := [("Size", [("value", .null), ("unit", .string "mm")])] }, _, _, rfl, rfl,
    rfl, rfl, rfl, rfl⟩

end Generator

end BeanScript
