import BeanScript.Proofs.Replay.Bounds
import BeanScript.Proofs.Replay.Statements

/-!
# Steps and runs

From a sound state, the steps lead to where running a script says: an expression, arguments and
statements to the state in which their result is given to what waits for it, with the machine as the
run leaves it. How many calls of generated methods a run still allows, and how many are in progress,
always make the same sum, so both stop at the same call.

The induction is on the number of calls that are still allowed, and for each such number on the
expression, the arguments or the statements.

## Main definitions

* `State.Leads` — the steps lead from one state to another, if the one is sound
* `State.ofArguments`, `State.ofEnding` — giving a result to what waits for it
* `Means` — the steps of a static call lead to what the call means

## Main results

* `means_staticCall`, `expr_leads`, `block_leads` — steps lead where runs say
* `State.Sound.eval_reaches`, `State.Sound.exec_reaches` — also with generated methods
-/

namespace BeanScript

variable {methods : Methods} {s t u : State} {m : Machine}

namespace State

/-- From the one state, if it is sound, the steps lead to the other. -/
def Leads (methods : Methods) (s t : State) : Prop :=
  s.Sound → s.Reaches methods t

/-- The state in which evaluated arguments are given to what waits for them. -/
def ofArguments (done : List Datum) (next : Wait .arguments) :
    Except Fault (List Datum) × Machine → State
  | (.ok data, m) => .args (done ++ data) [] next m
  | (.error f, m) => .fault f next m

/-- The state in which the end of statements is given to what waits for it. -/
def ofEnding (next : Wait .ending) : Except Fault (Option Datum) × Machine → State
  | (.ok returned, m) => .ended returned next m
  | (.error f, m) => .fault f next m

/-- The state after a statement, where others follow. -/
def ofStatement (rest : Block) (next : Wait .ending) :
    Except Fault (Option Datum) × Machine → State
  | (.ok none, m) => .block rest next m
  | (.ok (some datum), m) => .ended (some datum) next m
  | (.error f, m) => .fault f next m

namespace Leads

theorem refl (s : State) : Leads methods s s := fun _ => .refl

theorem trans (h : Leads methods s t) (h' : Leads methods t u) : Leads methods s u := fun hs =>
  (h hs).trans (h' (hs.reaches (h hs)).sound)

theorem step (h : s.Sound → s.next? methods = some t) : Leads methods s t := fun hs =>
  .single (h hs)

theorem of_next? (h : s.next? methods = some t) : Leads methods s t := step fun _ => h

theorem head (h : s.next? methods = some t) (h' : Leads methods t u) : Leads methods s u :=
  (of_next? h).trans h'

end Leads

end State

open State

/-! ### Expressions and statements -/

/-- With so many calls in progress, the steps of a static call lead to what it means. -/
def Means (methods : Methods) (calls : Nat) (call : StaticCalls) : Prop :=
  ∀ owner name data (next : Wait .datum) m, next.callers.length = calls →
    Leads methods (.args data [] (.staticCall owner name next) m)
      (.ofResult next (call owner name data m))

/-- Computing with evaluated arguments, or giving up where one of them has a fault. -/
theorem leads_of_arguments {args : Replay (List Datum)} {compute : List Datum → Replay Datum}
    {wait : Wait .arguments} {next : Wait .datum}
    (hfault : ∀ f m, wait.takeFault m f = some (.fault f next m))
    (hcompute : ∀ data m,
      Leads methods (.args data [] wait m) (.ofResult next (compute data m))) (m : Machine) :
    Leads methods (ofArguments [] wait (args m)) (ofResult next ((args >>= compute) m)) := by
  rw [Replay.bind_run]
  rcases args m with ⟨f | data, m'⟩
  · exact .of_next? (hfault f m')
  · exact hcompute data m'

mutual

/-- The steps of an expression lead to the datum that it evaluates to, or to its fault. -/
theorem expr_leads {calls : Nat} {call : StaticCalls} (hcall : Means methods calls call) (e : Expr)
    (next : Wait .datum) (m : Machine) (hnext : next.callers.length = calls) :
    Leads methods (.expr e next m) (ofResult next (e.eval call m)) := by
  cases e with
  | literal l => exact .of_next? rfl
  | typeLiteral type => exact .of_next? rfl
  | staticField owner name => exact .of_next? rfl
  | var name =>
    refine .of_next? ?_
    simp only [next?, Expr.begin, Expr.eval, Replay.bind_run, Replay.get_run]
    cases m.scopes.lookUp? name <;> rfl
  | construct type args =>
    have hargs := args_leads hcall args [] (.construct type next) m hnext
    refine .head rfl (hargs.trans ?_)
    rw [Expr.eval]
    exact leads_of_arguments (fun _ _ => rfl) (fun _ _ => .of_next? rfl) m
  | newArray component elements =>
    have helements := args_leads hcall elements [] (.newArray component next) m hnext
    refine .head rfl (helements.trans ?_)
    rw [Expr.eval]
    refine leads_of_arguments (fun _ _ => rfl) (fun data m => .of_next? ?_) m
    rw [next?, Wait.takeArguments, Replay.bind_run, Replay.ofExcept_run]
    cases Arguments.all { method := "new[]", data } Arguments.value <;> rfl
  | staticCall owner name args =>
    have hargs := args_leads hcall args [] (.staticCall owner name next) m hnext
    refine .head rfl (hargs.trans ?_)
    rw [Expr.eval]
    exact leads_of_arguments (fun _ _ => rfl) (fun data m => hcall owner name data next m hnext) m
  | call receiver name args =>
    have hreceiver := expr_leads hcall receiver (.receiver name args next) m hnext
    refine .head rfl (hreceiver.trans ?_)
    rw [Expr.eval, Replay.bind_run]
    rcases receiver.eval call m with ⟨f | object, m'⟩
    · exact .of_next? rfl
    · have hargs := args_leads hcall args [] (.call object name next) m' hnext
      refine .head rfl (hargs.trans ?_)
      exact leads_of_arguments (fun _ _ => rfl)
        (fun _ _ => .step fun hs => hs.next?_call methods) m'
termination_by structural e

/-- The steps of arguments lead to what they evaluate to, after those evaluated before. -/
theorem args_leads {calls : Nat} {call : StaticCalls} (hcall : Means methods calls call)
    (es : List Expr) (done : List Datum) (next : Wait .arguments) (m : Machine)
    (hnext : next.callers.length = calls) :
    Leads methods (.args done es next m) (ofArguments done next (evalArgs call es m)) := by
  cases es with
  | nil =>
    rw [evalArgs, Replay.pure_run, ofArguments, List.append_nil]
    exact .refl _
  | cons e es =>
    have he := expr_leads hcall e (.argument done es next) m hnext
    refine .head rfl (he.trans ?_)
    rw [evalArgs, Replay.bind_run]
    rcases e.eval call m with ⟨f | datum, m'⟩
    · exact .of_next? rfl
    · have hes := args_leads hcall es (done ++ [m'.toArgument datum]) next m' hnext
      refine .trans (.step fun hs => hs.next?_argument methods) (hes.trans ?_)
      simp only [Replay.bind_run, Replay.get_run]
      rcases evalArgs call es m' with ⟨f | data, m''⟩
      · exact .refl _
      · rw [ofArguments, List.append_assoc]
        exact .refl _
termination_by structural es

end

mutual

/-- The steps of a statement lead to the statements after it, or to the end of all of them. -/
theorem stmt_leads {calls : Nat} {call : StaticCalls} (hcall : Means methods calls call) (s : Stmt)
    (rest : Block) (next : Wait .ending) (m : Machine) (hnext : next.callers.length = calls) :
    Leads methods (.block (s :: rest) next m) (ofStatement rest next (s.exec call m)) := by
  cases s with
  | expr e =>
    have he := expr_leads hcall e (.discard rest next) m hnext
    refine .head rfl (he.trans ?_)
    rw [Stmt.exec, Replay.bind_run]
    rcases e.eval call m with ⟨f | datum, m'⟩ <;> exact .of_next? rfl
  | declare type name init =>
    have hinit := expr_leads hcall init (.declare name rest next) m hnext
    refine .head rfl (hinit.trans ?_)
    rw [Stmt.exec, Replay.bind_run]
    rcases init.eval call m with ⟨f | datum, m'⟩ <;> exact .of_next? rfl
  | ret e =>
    have he := expr_leads hcall e (.ret next) m hnext
    refine .head rfl (he.trans ?_)
    rw [Stmt.exec, Replay.bind_run]
    rcases e.eval call m with ⟨f | datum, m'⟩ <;> exact .of_next? rfl
  | nested body =>
    have hbody := block_leads hcall body (.scope rest next) m.enterScope hnext
    refine .head rfl (hbody.trans ?_)
    have hrun : (Stmt.nested body).exec call m = ((Block.exec call body m.enterScope).1,
      (Block.exec call body m.enterScope).2.leaveScope) := rfl
    rw [hrun]
    rcases Block.exec call body m.enterScope with ⟨f | _ | datum, m'⟩ <;> exact .of_next? rfl
termination_by structural s

/-- The steps of statements lead to their end. -/
theorem block_leads {calls : Nat} {call : StaticCalls} (hcall : Means methods calls call)
    (body : List Stmt) (next : Wait .ending) (m : Machine) (hnext : next.callers.length = calls) :
    Leads methods (.block body next m) (ofEnding next (Block.exec call body m)) := by
  cases body with
  | nil => exact .of_next? rfl
  | cons s rest =>
    refine (stmt_leads hcall s rest next m hnext).trans ?_
    rw [Block.exec_cons]
    rcases s.exec call m with ⟨f | _ | datum, m'⟩
    · exact .refl _
    · exact block_leads hcall rest next m' hnext
    · exact .refl _
termination_by structural body

end

/-! ### Generated methods -/

/-- A static call does what it means where calls of generated methods do. -/
theorem staticCall_leads {run : ClassName → String → Block → Replay Datum} {owner : ClassName}
    {name : String} {next : Wait .datum} (data : List Datum)
    (hrun : ∀ body, Leads methods (ofMethodCall owner name body next m)
      (ofResult next (run owner name body m))) :
    Leads methods (.args data [] (.staticCall owner name next) m)
      (ofResult next (staticCall methods run owner name data m)) := by
  refine .head rfl ?_
  rw [ofStaticCall, staticCall]
  cases Api.Factory.of? owner name with
  | some factory => exact .refl _
  | none =>
    cases Table.get? methods (owner, name) with
    | none => exact .refl _
    | some body =>
      dsimp only
      rw [Replay.bind_run, Replay.ofExcept_run]
      cases Arguments.expect { method := name, data } 0 with
      | error f => exact .refl _
      | ok _ => exact hrun body

/-- The body of a method is run for its caller, with whose variables the run then goes on. -/
theorem method_leads {n : Nat} {body : Block} {owner : ClassName} {name : String}
    {next : Wait .datum}
    (hmeans : Means methods (next.callers.length + 1) (staticCall methods (runMethod methods n))) :
    Leads methods (.block body (.method owner name m.scopes next) m.enterCall)
      (ofResult next (runMethod methods (n + 1) owner name body m)) := by
  intro hs
  have hbody := block_leads hmeans body (.method owner name m.scopes next) m.enterCall rfl hs
  have hend := (hs.reaches hbody).sound.callers
  refine hbody.tail ?_
  have hcallers : m.callers = next.callers := (List.cons.inj hs.callers).2
  -- the body has left the variables that were set aside as they were
  have hleave : ∀ m' : Machine, m'.callers = m.scopes :: next.callers →
      m'.leaveCall m.scopes = { m' with scopes := m.scopes, callers := m.callers } := by
    intro m' hm'
    rw [Machine.leaveCall, hm', List.tail_cons, hcallers]
  have hcall : ∀ body : Replay (Option Datum), Replay.inCall body m
      = ((body m.enterCall).1,
        { (body m.enterCall).2 with scopes := m.scopes, callers := m.callers }) := fun _ => rfl
  rw [runMethod, Replay.bind_run, hcall]
  generalize Block.exec (staticCall methods (runMethod methods n)) body m.enterCall = result
    at hend ⊢
  rcases result with ⟨f | _ | datum, m'⟩
  · rw [ofEnding, next?, Wait.takeFault, hleave m' hend]
    rfl
  · rw [ofEnding, next?, Wait.takeEnding, hleave m' hend]
    rfl
  · rw [ofEnding, next?, Wait.takeEnding, hleave m' hend]
    rfl

/-- Where as many calls are still allowed as there can be with those in progress, static calls do
what they mean. -/
theorem means_staticCall (methods : Methods) (n : Nat) {calls : Nat} (h : calls + n = maxCalls) :
    Means methods calls (staticCall methods (runMethod methods n)) := by
  induction n generalizing calls with
  | zero =>
    intro owner name data next m hnext
    refine staticCall_leads data fun body => ?_
    by_cases hfull : maxCalls ≤ m.callers.length
    · rw [ofMethodCall, if_pos hfull]
      exact .refl _
    · rw [ofMethodCall, if_neg hfull]
      -- a further call would be one too many
      intro hs
      have hcalls : next.callers.length + 1 ≤ maxCalls := hs.calls
      omega
  | succ n ih =>
    intro owner name data next m hnext
    refine staticCall_leads data fun body => ?_
    by_cases hfull : maxCalls ≤ m.callers.length
    · rw [ofMethodCall, if_pos hfull]
      intro hs
      have hcallers : m.callers = next.callers := hs.callers
      rw [hcallers] at hfull
      omega
    · rw [ofMethodCall, if_neg hfull]
      exact method_leads (ih (by omega))

namespace State.Sound

/-- Evaluating an expression with generated methods, step by step. -/
theorem eval_reaches (methods : Methods) {e : Expr} (hs : (State.expr e .evaluated m).Sound) :
    (State.expr e .evaluated m).Reaches methods
      (ofResult .evaluated (Replay.eval methods e m)) := by
  have hcallers : m.callers = [] := hs.callers
  have hmeans := means_staticCall methods maxCalls (Nat.zero_add _)
  have hrun : Replay.eval methods e m = e.eval (staticCallsAt methods 0) m := by
    simp only [Replay.eval, Replay.bind_run, Replay.get_run, hcallers, List.length_nil]
  rw [hrun]
  exact expr_leads hmeans e .evaluated m rfl hs

/-- Running statements with generated methods, step by step. -/
theorem exec_reaches (methods : Methods) {body : Block}
    (hs : (State.block body .executed m).Sound) :
    (State.block body .executed m).Reaches methods
      (ofEnding .executed (Replay.exec methods body m)) := by
  have hcallers : m.callers = [] := hs.callers
  have hmeans := means_staticCall methods maxCalls (Nat.zero_add _)
  have hrun : Replay.exec methods body m = Block.exec (staticCallsAt methods 0) body m := by
    simp only [Replay.exec, Replay.bind_run, Replay.get_run, hcallers, List.length_nil]
  rw [hrun]
  exact block_leads hmeans body .executed m rfl hs

end State.Sound

end BeanScript
