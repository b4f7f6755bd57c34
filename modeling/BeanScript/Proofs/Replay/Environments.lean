import BeanScript.Proofs.Replay.Bounds

/-!
# Environments are restored

A nested block opens a scope and closes it again; a call sets the variables of its caller aside and
takes them back. What runs in between may end anyhow, with a `return` from any depth or with a
fault. Nothing leaks: an expression leaves all variables as they were, also those that wait for a
call, and statements may only define variables of the innermost scope.

The two go together. A block restores what it has opened because the statements in it leave alone
everything but the innermost scope, and they do because every expression and every nested block
among them restores the environment. With calls, the induction is on the number of calls that are
still allowed.

## Main definitions

* `Machine.environment`, `Machine.surroundings` — all variables, and those outside the innermost
  scope
* `Replay.Preserves` — what is observed of a machine is the same afterwards, however a run ends

## Main results

* `Expr.preserves_environment`, `Block.preserves_surroundings` — expressions and statements
* `Replay.Preserves.inCall_run` — going back to the caller takes the variables set aside last
* `Replay.environment_restored` — also with generated methods
-/

namespace BeanScript

variable {α β : Type}

/-! ### What is observed of a machine -/

/-- The variables, and those that are set aside for calls in progress. -/
def Machine.environment (m : Machine) : Scopes × List Scopes :=
  (m.scopes, m.callers)

/-- The environment outside the innermost scope. -/
def Machine.surroundings (m : Machine) : List Scope × List Scopes :=
  (m.scopes.outer, m.callers)

namespace Replay

/-- What `observe` sees of a machine is the same afterwards, also where the computation fails. -/
def Preserves {γ : Type} (observe : Machine → γ) (c : Replay α) : Prop :=
  ∀ m, observe (c m).2 = observe m

namespace Preserves

variable {γ : Type} {observe : Machine → γ}

theorem pure (a : α) : Preserves observe (Pure.pure a : Replay α) := fun _ => rfl

theorem throw (f : Fault) : Preserves observe (MonadExcept.throw f : Replay α) := fun _ => rfl

theorem ofExcept (r : Except Fault α) : Preserves observe (Replay.ofExcept r) := fun _ => rfl

theorem get : Preserves observe (MonadState.get : Replay Machine) := fun _ => rfl

theorem update {f : Machine → Machine} (hf : ∀ m, observe (f m) = observe m) :
    Preserves observe (modify f : Replay PUnit) := hf

theorem bind {c : Replay α} {next : α → Replay β} (h : Preserves observe c)
    (hnext : ∀ a, Preserves observe (next a)) : Preserves observe (c >>= next) := by
  intro m
  have hc := h m
  rw [bind_run]
  rcases hrun : c m with ⟨f | a, m'⟩ <;> rw [hrun] at hc
  · exact hc
  · exact (hnext a m').trans hc

/-- What leaves the environment alone leaves alone what is outside the innermost scope. -/
theorem surroundings {c : Replay α} (h : Preserves Machine.environment c) :
    Preserves Machine.surroundings c := by
  intro m
  obtain ⟨hscopes, hcallers⟩ := Prod.mk.inj (h m)
  rw [Machine.surroundings, hscopes, hcallers]
  rfl

/-- Closing a scope restores the environment, as the scopes below it are untouched. -/
theorem inScope {body : Replay α} (h : Preserves Machine.surroundings body) :
    Preserves Machine.environment (Replay.inScope body) := by
  intro m
  obtain ⟨houter, hcallers⟩ := Prod.mk.inj (h m.enterScope)
  refine Prod.ext ?_ hcallers
  show (body m.enterScope).2.scopes.leave = m.scopes
  rw [Scopes.leave, houter]
  rfl

/-- Going back to the caller is taking the variables that were set aside last: the calls on the way
have taken theirs. -/
theorem inCall_run {body : Replay α} (h : Preserves Machine.surroundings body) (m : Machine) :
    Replay.inCall body m
      = ((body m.enterCall).1, (body m.enterCall).2.leaveCall m.scopes) := by
  obtain ⟨-, hcallers⟩ := Prod.mk.inj (h m.enterCall)
  rw [Machine.leaveCall, hcallers]
  rfl

theorem inCall {body : Replay α} (h : Preserves Machine.surroundings body) :
    Preserves Machine.environment (Replay.inCall body) := by
  intro m
  obtain ⟨-, hcallers⟩ := Prod.mk.inj (h m.enterCall)
  rw [h.inCall_run, Machine.environment, Machine.leaveCall, hcallers]
  rfl

end Preserves

end Replay

open Replay

/-! ### Objects -/

theorem construct_preserves (type : ClassName) (data : List Datum) :
    Preserves Machine.environment (construct type data) := fun m =>
  Prod.ext (construct_supplies type data m).scopes (construct_supplies type data m).callers

/-- A call on an object changes at most this object, whatever it refers to. -/
theorem callOn_preserves (receiver : Datum) (name : String) (data : List Datum) :
    Preserves Machine.environment (callOn receiver name data) := by
  refine .bind .get fun m => .bind (.ofExcept _) fun outcome => ?_
  cases outcome.change with
  | none => exact .pure _
  | some change => exact .bind (.update fun m => by cases change <;> rfl) fun _ => .pure _

/-! ### Expressions and statements -/

mutual

/-- An expression leaves all variables as they were. -/
theorem Expr.preserves_environment {call : StaticCalls}
    (hcall : ∀ owner name data, Preserves Machine.environment (call owner name data)) (e : Expr) :
    Preserves Machine.environment (e.eval call) := by
  cases e with
  | literal l => exact .pure _
  | typeLiteral type => exact .pure _
  | staticField owner name => exact .ofExcept _
  | var name =>
    refine .bind .get fun m => ?_
    cases m.scopes.lookUp? name with
    | none => exact .throw _
    | some datum => exact .pure _
  | construct type args =>
    exact (evalArgs_preserves hcall args).bind fun data => construct_preserves type data
  | newArray component elements =>
    exact (evalArgs_preserves hcall elements).bind fun _ => .bind (.ofExcept _) fun _ => .pure _
  | staticCall owner name args =>
    exact (evalArgs_preserves hcall args).bind fun data => hcall owner name data
  | call receiver name args =>
    exact (receiver.preserves_environment hcall).bind fun object =>
      (evalArgs_preserves hcall args).bind fun data => callOn_preserves object name data
termination_by structural e

theorem evalArgs_preserves {call : StaticCalls}
    (hcall : ∀ owner name data, Preserves Machine.environment (call owner name data))
    (es : List Expr) : Preserves Machine.environment (evalArgs call es) := by
  cases es with
  | nil => exact .pure _
  | cons e es =>
    exact (e.preserves_environment hcall).bind fun _ => .bind .get fun _ =>
      (evalArgs_preserves hcall es).bind fun _ => .pure _
termination_by structural es

end

mutual

/-- A statement defines variables of the innermost scope only. -/
theorem Stmt.preserves_surroundings {call : StaticCalls}
    (hcall : ∀ owner name data, Preserves Machine.environment (call owner name data)) (s : Stmt) :
    Preserves Machine.surroundings (s.exec call) := by
  cases s with
  | expr e => exact (e.preserves_environment hcall).surroundings.bind fun _ => .pure _
  | declare type name init =>
    exact (init.preserves_environment hcall).surroundings.bind fun _ =>
      .bind (.update fun _ => rfl) fun _ => .pure _
  | ret e => exact (e.preserves_environment hcall).surroundings.bind fun _ => .pure _
  | nested body => exact (Block.preserves_surroundings hcall body).inScope.surroundings
termination_by structural s

/-- Statements, up to a `return` or a fault, define variables of the innermost scope only. -/
theorem Block.preserves_surroundings {call : StaticCalls}
    (hcall : ∀ owner name data, Preserves Machine.environment (call owner name data))
    (body : List Stmt) : Preserves Machine.surroundings (Block.exec call body) := by
  cases body with
  | nil => exact .pure _
  | cons s rest =>
    refine (s.preserves_surroundings hcall).bind fun returned => ?_
    cases returned with
    | none => exact Block.preserves_surroundings hcall rest
    | some datum => exact .pure _
termination_by structural body

end

/-! ### Generated methods -/

theorem staticCall_preserves (methods : Methods)
    {run : ClassName → String → Block → Replay Datum}
    (hrun : ∀ owner name body, Preserves Machine.environment (run owner name body))
    (owner : ClassName) (name : String) (data : List Datum) :
    Preserves Machine.environment (staticCall methods run owner name data) := by
  unfold staticCall
  split
  · exact .ofExcept _
  · split
    · exact .throw _
    · exact .bind (.ofExcept _) fun _ => hrun owner name _

theorem runMethod_preserves (methods : Methods) (n : Nat) (owner : ClassName) (name : String)
    (body : Block) : Preserves Machine.environment (runMethod methods n owner name body) := by
  induction n generalizing owner name body with
  | zero => exact .throw _
  | succ n ih =>
    have hbody := Block.preserves_surroundings (staticCall_preserves methods ih) body
    refine hbody.inCall.bind fun returned => ?_
    cases returned with
    | none => exact .throw _
    | some datum => exact .pure _

theorem staticCallsAt_preserves (methods : Methods) (waiting : Nat) (owner : ClassName)
    (name : String) (data : List Datum) :
    Preserves Machine.environment (staticCallsAt methods waiting owner name data) :=
  staticCall_preserves methods (runMethod_preserves methods _) owner name data

namespace Replay

theorem eval_preserves (methods : Methods) (e : Expr) :
    Preserves Machine.environment (eval methods e) :=
  .bind .get fun m => e.preserves_environment (staticCallsAt_preserves methods m.callers.length)

theorem exec_preserves (methods : Methods) (block : Block) :
    Preserves Machine.surroundings (exec methods block) :=
  .bind .get fun m =>
    Block.preserves_surroundings (staticCallsAt_preserves methods m.callers.length) block

/-- A nested block restores what it opens, also where generated methods are called in it. -/
theorem exec_nested_preserves (methods : Methods) (block : Block) :
    Preserves Machine.environment (exec methods [.nested block]) := by
  refine .bind .get fun m => ?_
  have hcalls := staticCallsAt_preserves methods m.callers.length
  refine (Block.preserves_surroundings hcalls block).inScope.bind fun returned => ?_
  cases returned with
  | none => exact .pure _
  | some datum => exact .pure _

/-- However a run ends, statements leave the number of scopes, the scopes below the innermost one
and the calls in progress as they were; a nested block and an expression leave the whole environment
as it was. -/
theorem environment_restored (methods : Methods) (m : Machine) :
    (∀ block, (exec methods block m).2.scopes.depth = m.scopes.depth ∧
      (exec methods block m).2.scopes.outer = m.scopes.outer ∧
      (exec methods block m).2.callers = m.callers) ∧
    (∀ block, (exec methods [.nested block] m).2.scopes = m.scopes ∧
      (exec methods [.nested block] m).2.callers = m.callers) ∧
    ∀ e, (eval methods e m).2.scopes = m.scopes ∧ (eval methods e m).2.callers = m.callers := by
  refine ⟨fun block => ?_, fun block => ?_, fun e => ?_⟩
  · obtain ⟨houter, hcallers⟩ := Prod.mk.inj (exec_preserves methods block m)
    exact ⟨congrArg (fun scopes => scopes.length + 1) houter, houter, hcallers⟩
  · exact Prod.mk.inj (exec_nested_preserves methods block m)
  · exact Prod.mk.inj (eval_preserves methods e m)

end Replay

end BeanScript
