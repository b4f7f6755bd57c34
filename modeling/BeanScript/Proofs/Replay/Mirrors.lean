import BeanScript.Proofs.Replay.Hosts

/-!
# Running within a host

As everything is done alike within a host, a generated method that is called does what it does by
itself: it starts without variables, so on an empty machine within that of its caller.

There is one difference. Where calls are in progress, fewer calls are still allowed, so that the
limit may be met earlier. That fault is therefore excused. With nothing to excuse, running within a
host says that two runs with equally many allowed calls are the same.

The induction is on the number of calls that are still allowed, and for each such number on the
expression, the arguments or the statements.

## Main definitions

* `Replay.Mirrors` — doing within a host what is done by itself

## Main results

* `construct_mirrors`, `callOn_mirrors` — creating and calling objects
* `Expr.eval_mirrors`, `Block.exec_mirrors` — running with calls that do the same
* `runMethod_mirrors` — generated methods do the same
* `Replay.Mirrors.inCall_run` — a call seen from its caller
-/

namespace BeanScript

variable {α β γ δ : Type}

/-! ### Doing the same within a host -/

/-- Within the host, the one computation does what the other does, with references counted from the
objects of the host by `move`, or it fails with a fault that is excused. -/
def Replay.Mirrors (host : Machine) (excused : Fault → Prop) (move : α → β) (c : Replay β)
    (c' : Replay α) : Prop :=
  ∀ m, (∃ f, (c (m.within host)).1 = .error f ∧ excused f) ∨
    c (m.within host) = ((c' m).1.map move, (c' m).2.within host)

namespace Replay.Mirrors

variable {host : Machine} {excused : Fault → Prop} {move : α → β} {move' : γ → δ}

theorem pure (a : α) : Mirrors host excused move (Pure.pure (move a)) (Pure.pure a) :=
  fun _ => .inr rfl

theorem throw (f : Fault) :
    Mirrors host excused move (MonadExcept.throw f) (MonadExcept.throw f) :=
  fun _ => .inr rfl

theorem ofExcept {r : Except Fault β} {r' : Except Fault α} (h : r = r'.map move) :
    Mirrors host excused move (Replay.ofExcept r) (Replay.ofExcept r') :=
  fun _ => .inr (congrArg (·, _) h)

/-- What does not depend on references is the same within a host. -/
theorem ofExcept_self (r : Except Fault α) :
    Mirrors host excused id (Replay.ofExcept r) (Replay.ofExcept r) :=
  .ofExcept (by cases r <;> rfl)

theorem bind {c : Replay β} {c' : Replay α} {next : β → Replay δ} {next' : α → Replay γ}
    (h : Mirrors host excused move c c')
    (hnext : ∀ a, Mirrors host excused move' (next (move a)) (next' a)) :
    Mirrors host excused move' (c >>= next) (c' >>= next') := by
  intro m
  rw [bind_run, bind_run]
  rcases h m with ⟨f, hf, hexcused⟩ | hrun
  · left
    refine ⟨f, ?_, hexcused⟩
    rcases hc : c (m.within host) with ⟨r, m'⟩
    rw [hc] at hf
    cases hf
    rfl
  · rw [hrun]
    rcases c' m with ⟨f | a, m'⟩
    · exact .inr rfl
    · exact hnext a m'

/-- What is read off the machine is read off the machine within the host. -/
theorem read {next : Machine → Replay β} {next' : Machine → Replay α}
    (h : ∀ m, Mirrors host excused move (next (m.within host)) (next' m)) :
    Mirrors host excused move (get >>= next) (get >>= next') :=
  fun m => h m m

theorem update {f f' : Machine → Machine} (h : ∀ m, f (m.within host) = (f' m).within host) :
    Mirrors host excused id (modify f : Replay PUnit) (modify f') :=
  fun m => .inr (congrArg (Except.ok PUnit.unit, ·) (h m))

theorem newDefinition (d : Definition) :
    Mirrors host excused (DefinitionRef.within host) (Replay.newDefinition d)
      (Replay.newDefinition d) :=
  fun m => .inr (congrArg (Prod.map Except.ok id) (Machine.addDefinition_within m d))

theorem newQualifier (q : Qualifier) :
    Mirrors host excused (QualifierRef.within host) (Replay.newQualifier q)
      (Replay.newQualifier q) :=
  fun m => .inr (congrArg (Prod.map Except.ok id) (Machine.addQualifier_within m q))

theorem inScope {body : Replay β} {body' : Replay α} (h : Mirrors host excused move body body') :
    Mirrors host excused move (Replay.inScope body) (Replay.inScope body') := by
  intro m
  have henter : (m.within host).enterScope = m.enterScope.within host := rfl
  refine (h m.enterScope).imp id fun hrun => ?_
  show ((body (m.within host).enterScope).1, (body (m.within host).enterScope).2.leaveScope) = _
  rw [henter, hrun, Machine.leaveScope_within]
  rfl

theorem inCall {body : Replay β} {body' : Replay α} (h : Mirrors host excused move body body') :
    Mirrors host excused move (Replay.inCall body) (Replay.inCall body') := by
  intro m
  have henter : (m.within host).enterCall = m.enterCall.within host := rfl
  refine (h m.enterCall).imp id fun hrun => ?_
  show ((body (m.within host).enterCall).1,
    { (body (m.within host).enterCall).2 with
      scopes := (m.within host).scopes, callers := (m.within host).callers }) = _
  rw [henter, hrun]
  rfl

/-- A call runs on an empty machine within that of its caller. -/
theorem inCall_run {m : Machine} {body : Replay β} {body' : Replay α}
    (h : Mirrors m excused move body body') :
    (∃ f, (Replay.inCall body m).1 = .error f ∧ excused f) ∨
      Replay.inCall body m = ((body' {}).1.map move,
        { (body' {}).2.within m with scopes := m.scopes, callers := m.callers }) := by
  refine (h {}).imp (fun hfault => ?_) fun hrun => ?_
  · rwa [← Machine.enterCall_eq_within] at hfault
  · rw [← Machine.enterCall_eq_within] at hrun
    show ((body m.enterCall).1,
      { (body m.enterCall).2 with scopes := m.scopes, callers := m.callers }) = _
    rw [hrun]

end Replay.Mirrors

open Replay

variable {host : Machine} {excused : Fault → Prop}

/-! ### Objects -/

theorem construct_mirrors (type : ClassName) (data : List Datum) :
    Mirrors host excused (Datum.within host) (construct type (data.map (Datum.within host)))
      (construct type data) := by
  let args : Arguments := { method := type.text, data }
  have hargs : Arguments.mk type.text (data.map (Datum.within host)) = args.within host := rfl
  unfold construct
  rw [hargs]
  cases Api.Constructor.ofType? type with
  | none => exact .throw _
  | some constructor =>
    cases constructor with
    | beanNameReference =>
      dsimp only
      rw [Arguments.expect_within, Arguments.string_within]
      exact .bind (.ofExcept_self _) fun _ => .bind (.ofExcept_self _) fun _ => .pure _
    | beanReference =>
      dsimp only
      rw [beanReference_within]
      exact .bind (.ofExcept_self _) fun _ => .pure _
    | qualifier =>
      dsimp only
      rw [newQualifier_within]
      exact .bind (.ofExcept_self _) fun q => .bind (.newQualifier q) fun _ => .pure _
    | holder =>
      dsimp only
      rw [newHolder_within]
      exact .bind (.ofExcept_self _) fun _ => .pure _
    | definition =>
      dsimp only
      rw [newDefinition_within]
      exact .bind (.ofExcept_self _) fun d => .bind (.newDefinition d) fun _ => .pure _

theorem callOn_mirrors (receiver : Datum) (name : String) (data : List Datum) :
    Mirrors host excused (Datum.within host)
      (callOn (receiver.within host) name (data.map (Datum.within host)))
      (callOn receiver name data) := by
  refine .read fun m =>
    .bind (.ofExcept (instanceCall_within m receiver name data)) fun outcome => ?_
  rcases outcome with ⟨answer, _ | change⟩
  · exact .pure answer
  · exact .bind (.update fun m => Machine.change_within m change) fun _ => .pure answer

/-! ### Expressions and statements -/

mutual

/-- An expression evaluates to the same within a host. -/
theorem Expr.eval_mirrors {call call' : StaticCalls}
    (hcall : ∀ owner name data, Mirrors host excused (Datum.within host)
      (call owner name (data.map (Datum.within host))) (call' owner name data)) (e : Expr) :
    Mirrors host excused (Datum.within host) (e.eval call) (e.eval call') := by
  cases e with
  | literal l => exact .pure _
  | typeLiteral type => exact .pure _
  | staticField owner name =>
    refine .ofExcept ?_
    cases hfield : staticField owner name with
    | error f => rfl
    | ok datum => exact congrArg Except.ok (Datum.within_of_none (object?_staticField hfield)).symm
  | var name =>
    refine .read fun m => ?_
    have hlookUp : (m.within host).scopes.lookUp? name
        = (m.scopes.lookUp? name).map (Datum.within host) := m.scopes.lookUp?_within name
    rw [hlookUp]
    cases m.scopes.lookUp? name with
    | none => exact .throw _
    | some datum => exact .pure _
  | construct type args =>
    exact (evalArgs_mirrors hcall args).bind fun data => construct_mirrors type data
  | newArray component elements =>
    refine (evalArgs_mirrors hcall elements).bind fun data => ?_
    let args : Arguments := { method := "new[]", data }
    show Mirrors host excused _ (Replay.ofExcept ((args.within host).all Arguments.value) >>= _) _
    rw [args.values_within]
    exact .bind (.ofExcept_self _) fun _ => .pure _
  | staticCall owner name args =>
    exact (evalArgs_mirrors hcall args).bind fun data => hcall owner name data
  | call receiver name args =>
    exact (receiver.eval_mirrors hcall).bind fun object =>
      (evalArgs_mirrors hcall args).bind fun data => callOn_mirrors object name data
termination_by structural e

theorem evalArgs_mirrors {call call' : StaticCalls}
    (hcall : ∀ owner name data, Mirrors host excused (Datum.within host)
      (call owner name (data.map (Datum.within host))) (call' owner name data)) (es : List Expr) :
    Mirrors host excused (List.map (Datum.within host)) (evalArgs call es) (evalArgs call' es) := by
  cases es with
  | nil => exact .pure []
  | cons e es =>
    refine (e.eval_mirrors hcall).bind fun datum => .read fun m => ?_
    rw [Machine.toArgument_within]
    exact (evalArgs_mirrors hcall es).bind fun data => .pure _
termination_by structural es

end

mutual

/-- A statement runs alike within a host. -/
theorem Stmt.exec_mirrors {call call' : StaticCalls}
    (hcall : ∀ owner name data, Mirrors host excused (Datum.within host)
      (call owner name (data.map (Datum.within host))) (call' owner name data)) (s : Stmt) :
    Mirrors host excused (Option.map (Datum.within host)) (s.exec call) (s.exec call') := by
  cases s with
  | expr e => exact (e.eval_mirrors hcall).bind fun _ => .pure none
  | declare type name init =>
    exact (init.eval_mirrors hcall).bind fun datum =>
      .bind (.update fun m => Machine.define_within m name datum) fun _ => .pure none
  | ret e => exact (e.eval_mirrors hcall).bind fun _ => .pure _
  | nested body => exact (Block.exec_mirrors hcall body).inScope
termination_by structural s

/-- Statements run alike within a host. -/
theorem Block.exec_mirrors {call call' : StaticCalls}
    (hcall : ∀ owner name data, Mirrors host excused (Datum.within host)
      (call owner name (data.map (Datum.within host))) (call' owner name data))
    (body : List Stmt) :
    Mirrors host excused (Option.map (Datum.within host)) (Block.exec call body)
      (Block.exec call' body) := by
  cases body with
  | nil => exact .pure none
  | cons s rest =>
    refine (s.exec_mirrors hcall).bind fun returned => ?_
    cases returned with
    | none => exact Block.exec_mirrors hcall rest
    | some datum => exact .pure _
termination_by structural body

end

/-! ### Generated methods -/

theorem staticCall_mirrors (methods : Methods)
    {run run' : ClassName → String → Block → Replay Datum}
    (hrun : ∀ owner name body,
      Mirrors host excused (Datum.within host) (run owner name body) (run' owner name body))
    (owner : ClassName) (name : String) (data : List Datum) :
    Mirrors host excused (Datum.within host)
      (staticCall methods run owner name (data.map (Datum.within host)))
      (staticCall methods run' owner name data) := by
  let args : Arguments := { method := name, data }
  unfold staticCall
  cases Api.Factory.of? owner name with
  | some factory => exact .ofExcept (factory.build_within args)
  | none =>
    cases Table.get? methods (owner, name) with
    | none => exact .throw _
    | some body =>
      show Mirrors host excused _ (Replay.ofExcept ((args.within host).expect 0) >>= _) _
      rw [args.expect_within]
      exact .bind (.ofExcept_self _) fun _ => hrun owner name body

/-- A generated method does within a host what it does by itself. Where the host has calls in
progress the limit may be met, and only then do the two differ. -/
theorem runMethod_mirrors (methods : Methods) {allowed allowed' : Nat} (h : allowed ≤ allowed')
    (hexcused : allowed < allowed' → excused (.recursionLimit maxCalls)) (owner : ClassName)
    (name : String) (body : Block) :
    Mirrors host excused (Datum.within host) (runMethod methods allowed owner name body)
      (runMethod methods allowed' owner name body) := by
  induction allowed generalizing allowed' owner name body with
  | zero =>
    cases allowed' with
    | zero => exact .throw _
    | succ n => exact fun m => .inl ⟨_, rfl, hexcused (Nat.zero_lt_succ n)⟩
  | succ n ih =>
    obtain ⟨n', rfl⟩ : ∃ n', allowed' = n' + 1 := ⟨allowed' - 1, by omega⟩
    have hrun := ih (Nat.le_of_succ_le_succ h) fun hlt => hexcused (Nat.succ_lt_succ hlt)
    have hbody := Block.exec_mirrors (staticCall_mirrors methods hrun) body
    refine hbody.inCall.bind fun returned => ?_
    cases returned with
    | none => exact .throw _
    | some datum => exact .pure _

end BeanScript
