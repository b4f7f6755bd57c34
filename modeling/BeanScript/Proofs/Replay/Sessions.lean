import BeanScript.Proofs.Replay.Adequacy

/-!
# Sessions

A machine can be used for more than one run: definitions are created and variables defined from
outside, and scripts and expressions are run on what earlier ones have left, also where they have
ended with a fault. The data that come out of it may be given to variables again. Whatever is done,
no reference is ever dangling, neither between the runs nor in the middle of one, so there is no run
that cannot go on because an object is not there.

## Main definitions

* `Session` — what can be done with a machine
* `State.Safe` — what is said about a run

## Main results

* `Session.sound` — between runs, all references are in bounds
* `Session.all_inBounds` — also in the middle of a run
-/

namespace BeanScript

variable {methods : Methods} {m : Machine} {handed : List Datum}

/-- The datum that a run hands out, unless it ends with a fault or without one. -/
def handedOut : Except Fault (Option Datum) → List Datum
  | .ok (some datum) => [datum]
  | .ok none => []
  | .error _ => []

/-- What can be done with a machine, with the data that it has handed out by then. A variable may be
given any datum, as long as the object that it refers to is an object of a datum handed out. -/
inductive Session (methods : Methods) : Machine → List Datum → Prop
  | start : Session methods {} []
  | create {m : Machine} {handed : List Datum} (d : Definition) (h : Session methods m handed) :
    Session methods (m.addDefinition d).2 (.definition (m.addDefinition d).1 :: handed)
  | define {m : Machine} {handed : List Datum} (name : String) (datum : Datum)
    (hdatum : ∀ object ∈ datum.object?, ∃ d ∈ handed, object ∈ d.object?)
    (h : Session methods m handed) : Session methods (m.define name datum) handed
  | exec {m : Machine} {handed : List Datum} (block : Block) (h : Session methods m handed) :
    Session methods (Replay.exec methods block m).2
      (handedOut (Replay.exec methods block m).1 ++ handed)
  | eval {m : Machine} {handed : List Datum} (e : Expr) (h : Session methods m handed) :
    Session methods (Replay.eval methods e m).2
      (handedOut ((Replay.eval methods e m).1.map some) ++ handed)

/-- Everywhere in a run, all references are in bounds, also those that were handed out before, and
the run goes on unless it has come to its end. It comes to the given end. -/
structure State.Safe (methods : Methods) (handed : List Datum) (start final : State) : Prop where
  inBounds : ∀ s, start.Reaches methods s → ∀ datum ∈ handed ++ s.data, datum.InBounds s.machine
  goesOn : ∀ s, start.Reaches methods s → s.IsFinal ∨ ∃ t, s.next? methods = some t
  ends : start.Reaches methods final

theorem State.Sound.safe {start final : State} (hs : start.Sound)
    (hhanded : ∀ datum ∈ handed, datum.InBounds start.machine)
    (hends : start.Reaches methods final) : State.Safe methods handed start final where
  inBounds s h datum hdatum := by
    have hafter := hs.reaches h
    rcases List.mem_append.mp hdatum with hdatum | hdatum
    · exact (hhanded datum hdatum).retains hafter.retains
    · exact hafter.sound.inBounds datum hdatum
  goesOn s h := (hs.reaches h).sound.progress methods
  ends := hends

/-- A run on a machine without calls in progress leaves one that is in bounds, also for the data
handed out before. -/
theorem Machine.Sound.after {t : State} (h : m.Sound [] handed) (ht : t.SoundAfter m)
    (hcallers : t.callers = []) : t.machine.Sound [] (t.held ++ handed) where
  callers := ht.sound.callers.trans hcallers
  calls := Nat.zero_le _
  held datum hdatum := (List.mem_append.mp hdatum).elim (ht.sound.held datum)
    fun hdatum => (h.held datum hdatum).retains ht.retains
  inScope := ht.sound.inScope

namespace Session

/-- Between runs, no call is in progress, and all references are in bounds. -/
theorem sound (h : Session methods m handed) : m.Sound [] handed := by
  induction h with
  | start => exact ⟨rfl, Nat.zero_le _, nofun, nofun⟩
  | @create m handed d h ih =>
    have hm : (m.addDefinition d).2.Sound [] handed :=
      ih.retains rfl rfl (m.retains_addDefinition d)
    exact hm.cons (.of_some rfl (m.has_addDefinition d))
  | define name datum hdatum h ih =>
    refine ih.define (fun object hobject => ?_) name
    obtain ⟨d, hd, hsame⟩ := hdatum object hobject
    exact ih.held d hd object hsame
  | @exec m handed block h ih =>
    have hs : (State.block block .executed m).Sound := ih.mono (List.nil_subset _)
    have hend := hs.reaches (hs.exec_reaches methods)
    rcases hrun : Replay.exec methods block m with ⟨f | _ | datum, m'⟩ <;> rw [hrun] at hend <;>
      exact ih.after hend rfl
  | @eval m handed e h ih =>
    have hs : (State.expr e .evaluated m).Sound := ih.mono (List.nil_subset _)
    have hend := hs.reaches (hs.eval_reaches methods)
    rcases hrun : Replay.eval methods e m with ⟨f | datum, m'⟩ <;> rw [hrun] at hend <;>
      exact ih.after hend rfl

/-- Whatever was done with a machine, all references are in bounds, and they stay so in everything
that is run on it. -/
theorem all_inBounds (h : Session methods m handed) :
    (∀ datum ∈ handed ++ m.data, datum.InBounds m) ∧
      (∀ block, State.Safe methods handed (.block block .executed m)
        (.ofEnding .executed (Replay.exec methods block m))) ∧
      ∀ e, State.Safe methods handed (.expr e .evaluated m)
        (.ofResult .evaluated (Replay.eval methods e m)) := by
  refine ⟨fun datum hdatum => ?_, fun block => ?_, fun e => ?_⟩
  · exact (List.mem_append.mp hdatum).elim (h.sound.held datum) (h.sound.inScope datum)
  · have hs : (State.block block .executed m).Sound := h.sound.mono (List.nil_subset _)
    exact hs.safe h.sound.held (hs.exec_reaches methods)
  · have hs : (State.expr e .evaluated m).Sound := h.sound.mono (List.nil_subset _)
    exact hs.safe h.sound.held (hs.eval_reaches methods)

/-- A script that stops at an unknown variable has created an object by then, and leaves variables
that refer to objects which are there. -/
theorem all_inBounds_afterFault :
    let m := (({} : Machine).addDefinition {}).2.define "values" (.properties ⟨0⟩)
    let script : Block :=
      [.declare Api.Constructor.qualifier.type "qualifier"
          (.construct Api.Constructor.qualifier.type [.string "fast"]),
        .expr (.var "missing")]
    (Replay.exec [] script m).1 = .error (.undefinedVariable "missing") ∧
      (Replay.exec [] script m).2.scopes.lookUp? "qualifier" = some (.qualifier ⟨0⟩) ∧
      ∀ datum ∈ [.definition ⟨0⟩] ++ (Replay.exec [] script m).2.data,
        datum.InBounds (Replay.exec [] script m).2 := by
  intro m script
  have hstart : Session [] (({} : Machine).addDefinition {}).2 [.definition ⟨0⟩] :=
    .create {} .start
  have hdefine : Session [] m [.definition ⟨0⟩] :=
    .define "values" (.properties ⟨0⟩) (fun _ h => ⟨_, List.mem_singleton_self _, h⟩) hstart
  exact ⟨rfl, rfl, (hdefine.exec script).all_inBounds.1⟩

end Session

end BeanScript
