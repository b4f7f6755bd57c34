import BeanScript.Proofs.Replay.Endings
import BeanScript.Proofs.Replay.Growth
import BeanScript.Proofs.Replay.Mirrors

/-!
# Generated methods are isolated

A generated method works on an empty machine within that of its caller. Hence it changes no object
of the caller, however it ends, and an object that it returns is new. What it returns is the same
wherever it is called, and the same as when it is run by itself, unless the calls in progress are so
many that the limit is met.

## Main definitions

* `Machine.afterCall`, `Machine.endCall` — what a call leaves to its caller
* `Replay.Isolated` — changing no object of the machine and giving only new ones
* `CallAgrees` — what a call gives is what is built

## Main results

* `runMethod_eq_endCall` — a call ends as the body of the method does on an empty machine
* `Replay.staticCall_isolated` — a call leaves the objects of its caller alone
* `Methods.build_agrees_call` — a call and running the method by itself agree
-/

namespace BeanScript

open Replay

variable {methods : Methods} {owner : ClassName} {name : String} {body : Block}
  {m : Machine}

/-! ### What a call leaves to its caller -/

namespace Machine

/-- The machine of a caller after a call: it has the objects that were created in the call. -/
def afterCall (m host : Machine) : Machine where
  scopes := host.scopes
  callers := host.callers
  definitions := host.definitions ++ m.definitions
  qualifiers := host.qualifiers ++ m.qualifiers

theorem grows_afterCall (m host : Machine) : host.Grows (m.afterCall host) :=
  ⟨rfl, rfl, List.prefix_append _ _, List.prefix_append _ _⟩

theorem definition_afterCall (m host : Machine) (id : DefinitionRef) :
    (m.afterCall host).definition (id.within host) = m.definition id :=
  definition_within m id

theorem has_afterCall {m : Machine} {object : Object} (h : m.Has object) (host : Machine) :
    (m.afterCall host).Has (object.within host) := by
  cases object with
  | definition id => exact has_within h host
  | qualifier id => exact has_within h host

/-- How a call ends for the caller, where the body of the method ends so on an empty machine. -/
def endCall (host : Machine) (owner : ClassName) (name : String) :
    Except Fault (Option Datum) × Machine → Except Fault Datum × Machine
  | (.ok (some datum), m) => (.ok (datum.within host), m.afterCall host)
  | (.ok none, m) => (.error (.missingReturn (qualifiedName owner name)), m.afterCall host)
  | (.error f, m) => (.error f, m.afterCall host)

theorem grows_endCall (host : Machine) (owner : ClassName) (name : String)
    (result : Except Fault (Option Datum) × Machine) :
    host.Grows (host.endCall owner name result).2 := by
  rcases result with ⟨f | _ | datum, m⟩ <;> exact m.grows_afterCall host

end Machine

/-- A call ends as the body of the method does on an empty machine, where as many calls are allowed
in it, or more if meeting the limit is excused. -/
theorem runMethod_eq_endCall (excused : Fault → Prop) {n n' : Nat} (h : n ≤ n')
    (hexcused : n < n' → excused (.recursionLimit maxCalls)) :
    (∃ f, (runMethod methods (n + 1) owner name body m).1 = .error f ∧ excused f) ∨
      runMethod methods (n + 1) owner name body m
        = m.endCall owner name (Block.exec (staticCall methods (runMethod methods n')) body {}) := by
  have hmethods : ∀ owner name body, Mirrors m excused (Datum.within m)
      (runMethod methods n owner name body) (runMethod methods n' owner name body) :=
    runMethod_mirrors methods h hexcused
  have hcalls := staticCall_mirrors methods hmethods
  rw [runMethod, bind_run]
  rcases (Block.exec_mirrors hcalls body).inCall_run with ⟨f, hf, hf'⟩ | hrun
  · rcases hcall : inCall (Block.exec (staticCall methods (runMethod methods n)) body) m
      with ⟨r, m'⟩
    rw [hcall] at hf
    cases hf
    exact .inl ⟨f, rfl, hf'⟩
  · rw [hrun]
    rcases Block.exec (staticCall methods (runMethod methods n')) body {} with ⟨f | _ | datum, m'⟩
    · exact .inr rfl
    · exact .inr rfl
    · exact .inr rfl

/-- With as many calls allowed, the limit is met at the same call. -/
theorem runMethod_succ_eq_endCall (n : Nat) :
    runMethod methods (n + 1) owner name body m
      = m.endCall owner name (Block.exec (staticCall methods (runMethod methods n)) body {}) := by
  refine (runMethod_eq_endCall (fun _ => False) (Nat.le_refl n) (Nat.lt_irrefl n)).resolve_left ?_
  rintro ⟨f, -, hf⟩
  exact hf

/-- With calls in progress, a caller gets what running the method by itself gives, unless the limit
is met. -/
theorem runMethod_eq_endCall_exec {allowed : Nat} (h : allowed ≤ maxCalls) :
    (runMethod methods allowed owner name body m).1 = .error (.recursionLimit maxCalls) ∨
      runMethod methods allowed owner name body m
        = m.endCall owner name (Replay.exec methods body {}) := by
  cases allowed with
  | zero => exact .inl rfl
  | succ n =>
    refine (runMethod_eq_endCall (· = .recursionLimit maxCalls) (Nat.le_of_succ_le h)
      fun _ => rfl).imp ?_ id
    rintro ⟨f, hf, rfl⟩
    exact hf

/-- What a method returns that is run by itself is there. -/
theorem inBounds_of_exec {datum : Datum} {m' : Machine}
    (h : Replay.exec methods body {} = (.ok (some datum), m')) : datum.InBounds m' := by
  have hs := State.sound_ofBody body
  have hend : (State.ofEnding .executed (Replay.exec methods body {})).Sound :=
    (hs.reaches (hs.exec_reaches methods)).sound
  rw [h] at hend
  exact hend.held datum List.mem_cons_self

/-! ### Isolation -/

/-- A computation leaves all objects and variables of the machine as they are, and an object that
its result refers to is there and is a new one. -/
structure Replay.Isolated (c : Replay Datum) (m : Machine) : Prop where
  grows : m.Grows (c m).2
  isNew : ∀ datum, (c m).1 = .ok datum →
    ∀ object ∈ datum.object?, (c m).2.Has object ∧ ¬ m.Has object

theorem Replay.Isolated.ofExcept {r : Except Fault Datum}
    (h : ∀ datum, r = .ok datum → datum.object? = none) (m : Machine) :
    Isolated (Replay.ofExcept r) m := by
  refine ⟨refl m, fun datum hdatum object hobject => ?_⟩
  rw [h datum hdatum] at hobject
  cases hobject

theorem Replay.Isolated.throw (f : Fault) (m : Machine) :
    Isolated (MonadExcept.throw f) m :=
  ⟨refl m, fun _ h => by cases h⟩

theorem runMethod_isolated {allowed : Nat} (h : allowed ≤ maxCalls) :
    Isolated (runMethod methods allowed owner name body) m := by
  constructor
  · cases allowed with
    | zero => exact refl m
    | succ n =>
      rw [runMethod_succ_eq_endCall]
      exact m.grows_endCall owner name _
  · -- a method that returns has not met the limit, so it has returned what it does by itself
    intro datum hdatum object hobject
    rcases runMethod_eq_endCall_exec h with hlimit | hrun
    · rw [hlimit] at hdatum
      cases hdatum
    · rw [hrun] at hdatum ⊢
      rcases hexec : Replay.exec methods body {} with ⟨f | _ | own, m'⟩ <;> rw [hexec] at hdatum
      · cases hdatum
      · cases hdatum
      · cases hdatum
        rw [Datum.object?_within] at hobject
        obtain ⟨object, hown, rfl⟩ := Option.map_eq_some_iff.mp hobject
        have hthere : m'.Has object := inBounds_of_exec hexec object hown
        exact ⟨Machine.has_afterCall hthere m, Machine.not_has_within object⟩

/-- With any number of calls in progress, a static call makes no difference to the caller but for
the new objects. -/
theorem staticCallsAt_isolated (methods : Methods) (waiting : Nat) (owner : ClassName)
    (name : String) (data : List Datum) (m : Machine) :
    Isolated (staticCallsAt methods waiting owner name data) m := by
  unfold staticCallsAt staticCall
  cases Api.Factory.of? owner name with
  | some factory => exact .ofExcept (fun _ => Api.Factory.object?_build) m
  | none =>
    cases Table.get? methods (owner, name) with
    | none => exact .throw _ m
    | some body =>
      dsimp only
      cases Arguments.expect { method := name, data } 0 with
      | error f => exact .throw f m
      | ok _ => exact runMethod_isolated (Nat.sub_le _ _)

/-- Calling a method leaves alone every object that was there when its arguments had been
evaluated, however the call ends, and an object that it returns was created in the call. There are
no arguments where the method gets to run, so that these objects are those of `m` then. -/
theorem Replay.staticCall_isolated (methods : Methods) (owner : ClassName) (name : String)
    (args : List Expr) (m : Machine) :
    let before := (evalArgs (staticCallsAt methods m.callers.length) args m).2
    let after := Replay.eval methods (.staticCall owner name args) m
    before.Grows after.2 ∧
      ∀ datum, after.1 = .ok datum → ∀ object ∈ datum.object?,
        after.2.Has object ∧ ¬ before.Has object := by
  intro before after
  have hafter : after = (evalArgs (staticCallsAt methods m.callers.length) args >>= fun data =>
      staticCallsAt methods m.callers.length owner name data) m := rfl
  rw [bind_run] at hafter
  rcases hargs : evalArgs (staticCallsAt methods m.callers.length) args m with ⟨f | data, m'⟩
  · rw [hargs] at hafter
    have hbefore : before = m' := congrArg Prod.snd hargs
    rw [hafter, hbefore]
    exact ⟨refl m', fun _ h => by cases h⟩
  · rw [hargs] at hafter
    have hbefore : before = m' := congrArg Prod.snd hargs
    rw [hafter, hbefore]
    have hcall := staticCallsAt_isolated methods m.callers.length owner name data m'
    exact ⟨hcall.grows, hcall.isNew⟩

/-! ### A call and running the method by itself -/

/-- A call of a method and running it by itself agree, unless the call meets the limit: a definition
that the call returns is the one that is built, another answer is none for building, and a fault is
the same. -/
structure CallAgrees (owner : ClassName) (name : String) (result : Except Fault Datum × Machine)
    (built : Except Fault Definition) : Prop where
  definition : ∀ id, result.1 = .ok (.definition id) →
    ∃ d, result.2.definitions[id.index]? = some d ∧ built = .ok d
  other : ∀ datum, result.1 = .ok datum → (∀ id, datum ≠ .definition id) →
    built = .error (.missingReturn (qualifiedName owner name))
  fault : ∀ f, result.1 = .error f → f ≠ .recursionLimit maxCalls → built = .error f

namespace CallAgrees

theorem of_fault (f : Fault) (m : Machine) : CallAgrees owner name (.error f, m) (.error f) :=
  { definition := fun _ h => by cases h
    other := fun _ h _ => by cases h
    fault := fun _ h _ => by cases h; rfl }

theorem of_limit {result : Except Fault Datum × Machine} {built : Except Fault Definition}
    (h : result.1 = .error (.recursionLimit maxCalls)) : CallAgrees owner name result built := by
  rcases result with ⟨r, m⟩
  cases h
  exact
    { definition := fun _ h => by cases h
      other := fun _ h _ => by cases h
      fault := fun _ h hother => by cases h; exact absurd rfl hother }

/-- Building reads off the run of the body what a call takes from it. -/
theorem endCall (hbody : Table.get? methods (owner, name) = some body) (m : Machine) :
    CallAgrees owner name (m.endCall owner name (Replay.exec methods body {}))
      (methods.build owner name) := by
  simp only [Methods.build, hbody]
  rcases hexec : Replay.exec methods body {} with ⟨f | _ | datum, m'⟩
  · exact of_fault f _
  · exact of_fault _ _
  · refine ⟨fun id hid => ?_, fun d hd hother => ?_, fun f hf _ => ?_⟩
    · cases datum with
      | definition own =>
        cases hid
        have hown : m'.Has (.definition own) := inBounds_of_exec hexec _ rfl
        refine ⟨m'.definition own, ?_, rfl⟩
        rw [← Machine.definition_afterCall m' m own]
        exact Machine.getElem?_definition (Machine.has_afterCall hown m)
      | _ => cases hid
    · cases hd
      cases datum with
      | definition own => exact absurd rfl (hother _)
      | _ => rfl
    · cases hf

end CallAgrees

/-- Wherever a method is called, the call agrees with running the method by itself. -/
theorem Methods.build_agrees_call (methods : Methods) {owner : ClassName} {name : String}
    (hfactory : Api.Factory.of? owner name = none) (m : Machine) :
    CallAgrees owner name (Replay.eval methods (.staticCall owner name []) m)
      (methods.build owner name) := by
  have hcall : Replay.eval methods (.staticCall owner name []) m
      = staticCallsAt methods m.callers.length owner name [] m := rfl
  rw [hcall, staticCallsAt, staticCall, hfactory]
  cases hbody : Table.get? methods (owner, name) with
  | none =>
    rw [Methods.build, hbody]
    exact .of_fault _ m
  | some body =>
    show CallAgrees owner name (runMethod methods _ owner name body m) _
    rcases runMethod_eq_endCall_exec (Nat.sub_le maxCalls m.callers.length) with hlimit | hrun
    · exact .of_limit hlimit
    · rw [hrun]
      exact .endCall hbody m

/-- A caller with a definition of its own, under the name of a variable that the method has, too. -/
theorem Methods.build_agrees_call_sample :
    let owner : ClassName := ⟨"part.Sample"⟩
    let methods : Methods := [((owner, "bean"),
      [.declare Api.rootBeanDefinition "bean" (.construct Api.rootBeanDefinition []),
        .expr (.call (.var "bean") "setPrimary" [.literal (.bool true)]), .ret (.var "bean")])]
    let m : Machine := ({ definitions := [{}] } : Machine).define "bean" (.definition ⟨0⟩)
    let result := Replay.eval methods (.staticCall owner "bean" []) m
    Api.Factory.of? owner "bean" = none ∧ result.1 = .ok (.definition ⟨1⟩) ∧
      ∃ d, result.2.definitions[1]? = some d ∧ methods.build owner "bean" = .ok d := by
  intro owner methods m result
  have hfactory : Api.Factory.of? owner "bean" = none := by decide
  have hresult : result.1 = .ok (.definition ⟨1⟩) := rfl
  exact ⟨hfactory, hresult, (methods.build_agrees_call hfactory m).definition _ hresult⟩

end BeanScript
