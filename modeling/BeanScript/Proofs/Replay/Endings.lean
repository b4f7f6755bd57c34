import BeanScript.Proofs.Replay.Adequacy

/-!
# Replay always ends

Generated methods may call each other, or themselves, in cycles. A run ends nevertheless: its steps
lead to a state without a next one, in which the answer can be read off. On the way there are never
more than 64 calls of generated methods in progress; a further call is a fault, and since nothing
takes a fault back, it is the answer of the whole run.

## Main definitions

* `State.ofScript`, `State.ofBody` — where replay begins
* `State.CallsMethod` — a generated method is called next
* `Ends` — what is said about a run

## Main results

* `State.reaches_final` — a run cannot miss its end
* `State.Sound.exec_eq_of_calls` — a call too many is the answer
* `replay_ends` — running scripts and generated methods
-/

namespace BeanScript

variable {methods : Methods} {s t u : State} {m : Machine}

/-- A machine on which there is a fresh definition, denoted by a variable. -/
def Machine.ofReceiver (receiver : String) : Machine :=
  ({ definitions := [{}] } : Machine).define receiver (.definition ⟨0⟩)

namespace State

/-- Where a script begins. -/
def ofScript (block : Block) (receiver : String) : State :=
  .block block .executed (.ofReceiver receiver)

/-- Where the body of a method that is run by itself begins. -/
def ofBody (body : Block) : State :=
  .block body .executed {}

/-- What a script has made of its definition, in the end. -/
def executed? : State → Option (Except Fault Definition)
  | ended _ .executed m => m.definitions[0]?.map .ok
  | fault f .executed _ => some (.error f)
  | _ => none

/-- The definition that a method has returned, in the end. -/
def built? (owner : ClassName) (name : String) : State → Option (Except Fault Definition)
  | ended (some (.definition id)) .executed m => m.definitions[id.index]?.map .ok
  | ended _ .executed _ => some (.error (.missingReturn (qualifiedName owner name)))
  | fault f .executed _ => some (.error f)
  | _ => none

/-- A generated method is called next: no factory has its name, and it gets no arguments, as it has
to be. -/
inductive CallsMethod (methods : Methods) : State → Prop
  | intro {owner : ClassName} {name : String} {body : Block} (next : Wait .datum) (m : Machine)
    (hfactory : Api.Factory.of? owner name = none)
    (hbody : Table.get? methods (owner, name) = some body) :
    CallsMethod methods (.args [] [] (.staticCall owner name next) m)

/-! ### The end of a run -/

/-- A run goes only one way, so it cannot miss its end. -/
theorem reaches_final (ht : s.Reaches methods t) (hu : s.Reaches methods u)
    (hfinal : u.next? methods = none) : t.Reaches methods u := by
  have hunique : Relator.RightUnique fun s t : State => s.next? methods = some t :=
    fun s t t' h h' => Option.some.inj (h.symm.trans h')
  rcases Relation.ReflTransGen.total_of_right_unique hunique ht hu with h | h
  · exact h
  · rcases Relation.ReflTransGen.cases_head h with rfl | ⟨v, hv, -⟩
    · exact .refl
    · rw [hfinal] at hv
      cases hv

/-- There is no step from the end of a run. -/
theorem next?_ofEnding (methods : Methods) (result : Except Fault (Option Datum) × Machine) :
    (ofEnding .executed result).next? methods = none := by
  rcases result with ⟨f | returned, m⟩ <;> rfl

/-- Nothing takes a fault back. -/
theorem exists_fault_of_reaches {f : Fault} {wanted : Wanted} {wait : Wait wanted}
    (h : (fault f wait m).Reaches methods t) :
    ∃ (wanted' : Wanted) (wait' : Wait wanted') (m' : Machine), t = fault f wait' m' := by
  induction h with
  | refl => exact ⟨wanted, wait, m, rfl⟩
  | tail _ hstep ih =>
    obtain ⟨wanted', wait', m', rfl⟩ := ih
    rw [next?] at hstep
    cases wait' <;> cases hstep <;> exact ⟨_, _, _, rfl⟩

end State

namespace State.Sound

/-- A call too many is a fault. -/
theorem next?_at_limit (hs : s.Sound) (hcall : s.CallsMethod methods)
    (hcalls : s.calls = maxCalls) :
    ∃ (next : Wait .datum) (m : Machine),
      s.next? methods = some (.fault (.recursionLimit maxCalls) next m) := by
  obtain ⟨next, m, hfactory, hbody⟩ := hcall
  have hcallers : m.callers = next.callers := hs.callers
  have hfull : maxCalls ≤ m.callers.length := hcallers ▸ Nat.le_of_eq hcalls.symm
  refine ⟨next, m, congrArg some ?_⟩
  rw [ofStaticCall, hfactory, hbody]
  exact if_pos hfull

/-- A call too many is the answer of the whole run. -/
theorem exec_eq_of_calls {body : Block} (hs : (State.block body .executed m).Sound)
    (ht : (State.block body .executed m).Reaches methods t) (hcall : t.CallsMethod methods)
    (hcalls : t.calls = maxCalls) :
    (Replay.exec methods body m).1 = .error (.recursionLimit maxCalls) := by
  obtain ⟨next, m', hnext⟩ := (hs.reaches ht).sound.next?_at_limit hcall hcalls
  have hfinal := State.next?_ofEnding methods (Replay.exec methods body m)
  -- the fault is still on its way to the end of the run, and it arrives there unchanged
  have hrest := State.reaches_final (ht.tail hnext) (hs.exec_reaches methods) hfinal
  obtain ⟨_, _, _, hend⟩ := State.exists_fault_of_reaches hrest
  rcases hrun : Replay.exec methods body m with ⟨f | returned, m''⟩ <;> rw [hrun] at hend
  · cases hend
    rfl
  · cases hend

end State.Sound

/-! ### Scripts and generated methods -/

/-- A run comes to an end, and there the answer can be read off. Until then there are never more
than 64 calls of generated methods in progress. A call is a fault where there are 64 already, and
then the fault is the answer. -/
structure Ends (methods : Methods) (start : State)
    (read : State → Option (Except Fault Definition)) (answer : Except Fault Definition) :
    Prop where
  ends : ∃ t, (∀ s, start.Reaches methods s → s.Reaches methods t) ∧
    t.next? methods = none ∧ read t = some answer
  calls : ∀ s, start.Reaches methods s → s.calls ≤ 64
  limit : ∀ s, start.Reaches methods s → s.CallsMethod methods → s.calls = 64 →
    (∃ (next : Wait .datum) (m : Machine),
      s.next? methods = some (.fault (.recursionLimit 64) next m)) ∧
    answer = .error (.recursionLimit 64)

/-- What is common to scripts and methods: the answer depends on how the run of the statements
ends, and a fault is an answer in either case. -/
theorem State.Sound.ends {body : Block} (hs : (State.block body .executed m).Sound)
    {result : Except Fault (Option Datum) × Machine} (hrun : Replay.exec methods body m = result)
    {read : State → Option (Except Fault Definition)} {answer : Except Fault Definition}
    (hread : read (.ofEnding .executed result) = some answer)
    (hfault : ∀ f, result.1 = .error f → answer = .error f) :
    Ends methods (.block body .executed m) read answer := by
  subst hrun
  have hfinal := State.next?_ofEnding methods (Replay.exec methods body m)
  exact {
    ends := ⟨_, fun _ h => State.reaches_final h (hs.exec_reaches methods) hfinal, hfinal, hread⟩
    calls := fun _ h => (hs.reaches h).sound.calls
    limit := fun _ h hcall hcalls =>
      ⟨(hs.reaches h).sound.next?_at_limit hcall hcalls,
        hfault _ (hs.exec_eq_of_calls h hcall hcalls)⟩ }

theorem State.sound_ofScript (block : Block) (receiver : String) :
    (ofScript block receiver).Sound := by
  have hempty : ({ definitions := [{}] } : Machine).Sound [] [] :=
    ⟨rfl, Nat.zero_le _, nofun, nofun⟩
  have hreceiver : ({ definitions := [{}] } : Machine).Has (.definition ⟨0⟩) := Nat.zero_lt_one
  exact hempty.define (.of_some rfl hreceiver) receiver

theorem ends_ofScript (methods : Methods) (block : Block) (receiver : String) :
    Ends methods (.ofScript block receiver) State.executed?
      (execute methods block receiver) := by
  have hs := State.sound_ofScript block receiver
  have hend := (hs.reaches (hs.exec_reaches methods)).retains (.definition ⟨0⟩) Nat.zero_lt_one
  rcases hrun : Replay.exec methods block (.ofReceiver receiver) with ⟨f | returned, m⟩
  · have hexecute : execute methods block receiver = .error f := by
      rw [Machine.ofReceiver] at hrun
      simp only [execute, Machine.addDefinition, List.nil_append, List.length_nil, hrun]
    rw [hexecute]
    exact hs.ends hrun rfl fun _ h => by cases h; rfl
  · have hexecute : execute methods block receiver = .ok (m.definition ⟨0⟩) := by
      rw [Machine.ofReceiver] at hrun
      simp only [execute, Machine.addDefinition, List.nil_append, List.length_nil, hrun]
    rw [hrun] at hend
    rw [hexecute]
    exact hs.ends hrun (congrArg (Option.map Except.ok) (Machine.getElem?_definition hend))
      fun _ h => by cases h

theorem State.sound_ofBody (body : Block) : (ofBody body).Sound :=
  ⟨rfl, Nat.zero_le _, nofun, nofun⟩

theorem ends_ofBody {owner : ClassName} {name : String} {body : Block}
    (hbody : Table.get? methods (owner, name) = some body) :
    Ends methods (.ofBody body) (State.built? owner name) (methods.build owner name) := by
  have hs := State.sound_ofBody body
  have hend : (State.ofEnding .executed (Replay.exec methods body {})).Sound :=
    (hs.reaches (hs.exec_reaches methods)).sound
  simp only [Methods.build, hbody]
  rcases hrun : Replay.exec methods body {} with ⟨f | _ | datum, m⟩
  · exact hs.ends hrun rfl fun _ h => by cases h; rfl
  · exact hs.ends hrun rfl fun _ h => by cases h
  · cases datum with
    | definition id =>
      rw [hrun] at hend
      have hid : m.Has (.definition id) := hend.held (.definition id) List.mem_cons_self _ rfl
      exact hs.ends hrun (congrArg (Option.map Except.ok) (Machine.getElem?_definition hid))
        fun _ h => by cases h
    | _ => exact hs.ends hrun rfl fun _ h => by cases h

/-- Replay always ends. -/
theorem replay_ends (methods : Methods) :
    (∀ block receiver, Ends methods (.ofScript block receiver) State.executed?
        (execute methods block receiver)) ∧
      ∀ owner name,
        (Table.get? methods (owner, name) = none →
          methods.build owner name = .error (.unknownStaticCall owner.text name)) ∧
        ∀ body, Table.get? methods (owner, name) = some body →
          Ends methods (.ofBody body) (State.built? owner name) (methods.build owner name) := by
  refine ⟨ends_ofScript methods, fun owner name => ⟨fun hnone => ?_, fun body => ends_ofBody⟩⟩
  rw [Methods.build, hnone]

/-- A method that does nothing but call itself gets to call itself with any number of calls in
progress that is allowed. -/
theorem State.exists_reaches_of_selfCall {owner : ClassName} {name : String}
    (hfactory : Api.Factory.of? owner name = none)
    (hbody : Table.get? methods (owner, name) = some [.ret (.staticCall owner name [])])
    {calls : Nat} (h : calls ≤ maxCalls) :
    ∃ s, (ofBody [.ret (.staticCall owner name [])]).Reaches methods s ∧ s.CallsMethod methods ∧
      s.calls = calls := by
  have henter : ∀ (next : Wait .ending) m, (block [.ret (.staticCall owner name [])] next m).Reaches
      methods (.args [] [] (.staticCall owner name (.ret next)) m) :=
    fun next m => .tail (.single rfl) rfl
  suffices hnest : ∃ next m, (ofBody [.ret (.staticCall owner name [])]).Reaches methods
      (.args [] [] (.staticCall owner name next) m) ∧ next.callers.length = calls by
    obtain ⟨next, m, hreaches, hcalls⟩ := hnest
    exact ⟨_, hreaches, .intro next m hfactory hbody, hcalls⟩
  induction calls with
  | zero => exact ⟨.ret .executed, {}, henter .executed {}, rfl⟩
  | succ calls ih =>
    obtain ⟨next, m, hreaches, hcalls⟩ := ih (Nat.le_of_succ_le h)
    have hcallers : m.callers = next.callers :=
      ((sound_ofBody _).reaches hreaches).sound.callers
    have hfree : ¬ maxCalls ≤ m.callers.length := by
      rw [hcallers]
      omega
    have hcall : (State.args [] [] (.staticCall owner name next) m).next? methods
        = some (.block [.ret (.staticCall owner name [])] (.method owner name m.scopes next)
          m.enterCall) := by
      refine congrArg some ?_
      rw [ofStaticCall, hfactory, hbody]
      exact if_neg hfree
    exact ⟨_, _, (hreaches.tail hcall).trans (henter _ _), congrArg (· + 1) hcalls⟩

/-- A method that calls itself comes to the limit. -/
theorem replay_ends_selfCall :
    let call : Expr := .staticCall ⟨"part.Loop"⟩ "again" []
    let methods : Methods := [((⟨"part.Loop"⟩, "again"), [.ret call])]
    Table.get? methods (⟨"part.Loop"⟩, "again") = some [.ret call] ∧
      (∃ s, (State.ofBody [.ret call]).Reaches methods s ∧ s.CallsMethod methods ∧
        s.calls = 64) ∧
      methods.build ⟨"part.Loop"⟩ "again" = .error (.recursionLimit 64) := by
  intro call methods
  have hbody : Table.get? methods (⟨"part.Loop"⟩, "again") = some [.ret call] := rfl
  have hfactory : Api.Factory.of? ⟨"part.Loop"⟩ "again" = none := by decide
  obtain ⟨s, hreaches, hcall, hcalls⟩ :=
    State.exists_reaches_of_selfCall hfactory hbody (Nat.le_refl maxCalls)
  have hends := ((replay_ends methods).2 ⟨"part.Loop"⟩ "again").2 [.ret call] hbody
  exact ⟨hbody, ⟨s, hreaches, hcall, hcalls⟩, (hends.limit s hreaches hcall hcalls).2⟩

end BeanScript
