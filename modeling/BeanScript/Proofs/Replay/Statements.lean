import BeanScript.Proofs.Replay.Evaluation
import BeanScript.Proofs.Replay.Growth

/-!
# What statements do

The statements of a script are calls on the receiver variable. A statement *performs* edits when
running it, with the receiver bound to any definition of any machine, makes just these edits to the
definition and otherwise lets the machine grow; or when it fails, always with the same fault. So a
script is described by the list of its edits, and two scripts in a row by both lists in a row.

## Main definitions

* `Stmt.Performs`, `Block.Performs` — the edits of a statement, and of statements in turn

## Main results

* `Block.Performs.append`, `Block.Performs.of_forall₂` — statements in turn
* `Stmt.Performs.setter` — the statements that call a setter
-/

namespace BeanScript

/-- Running the statement makes the edits `r` to the definition that the variable `receiver`
denotes. -/
def Stmt.Performs (call : StaticCalls) (receiver : String) (s : Stmt)
    (r : Except Fault (List Edit)) : Prop :=
  ∀ m id, m.scopes.lookUp? receiver = some (.definition id) → id.index < m.definitions.length →
    ∃ m', s.exec call m = (r.map fun _ => none, m') ∧
      ∀ edits, r = .ok edits → (m.edit id edits).Grows m'

/-- Running the statements in turn makes the edits `r` to the definition that the variable
`receiver` denotes. -/
def Block.Performs (call : StaticCalls) (receiver : String) (block : Block)
    (r : Except Fault (List Edit)) : Prop :=
  ∀ m id, m.scopes.lookUp? receiver = some (.definition id) → id.index < m.definitions.length →
    ∃ m', Block.exec call block m = (r.map fun _ => none, m') ∧
      ∀ edits, r = .ok edits → (m.edit id edits).Grows m'

variable {call : StaticCalls} {receiver : String}

/-! ### Statements in turn -/

theorem Block.exec_cons (s : Stmt) (block : Block) (m : Machine) :
    Block.exec call (s :: block) m = match s.exec call m with
      | (.ok none, m) => Block.exec call block m
      | r => r := by
  rw [Block.exec, Replay.bind_run]
  rcases s.exec call m with ⟨_ | _ | _, _⟩ <;> rfl

theorem Block.exec_append (block block' : Block) (m : Machine) :
    Block.exec call (block ++ block') m = match Block.exec call block m with
      | (.ok none, m) => Block.exec call block' m
      | r => r := by
  induction block generalizing m with
  | nil => rfl
  | cons s block ih =>
    rw [List.cons_append, Block.exec_cons, Block.exec_cons]
    rcases s.exec call m with ⟨_ | _ | _, m'⟩
    · rfl
    · exact ih m'
    · rfl

namespace Block.Performs

theorem nil : Block.Performs call receiver [] (.ok []) := by
  intro m id _ _
  refine ⟨m, rfl, fun edits h => ?_⟩
  cases h
  rw [Machine.edit_nil]
  exact Std.Refl.refl m

theorem singleton {s : Stmt} {r : Except Fault (List Edit)} (h : s.Performs call receiver r) :
    Block.Performs call receiver [s] r := by
  intro m id hvar hid
  obtain ⟨m', hexec, hgrows⟩ := h m id hvar hid
  refine ⟨m', ?_, hgrows⟩
  rw [Block.exec_cons, hexec]
  cases r <;> rfl

/-- Scripts in a row make their edits in a row. -/
theorem append {block block' : Block} {r r' : Except Fault (List Edit)}
    (h : Block.Performs call receiver block r) (h' : Block.Performs call receiver block' r') :
    Block.Performs call receiver (block ++ block')
      (r >>= fun edits => r'.map (edits ++ ·)) := by
  intro m id hvar hid
  obtain ⟨m', hexec, hgrows⟩ := h m id hvar hid
  cases r with
  | error fault =>
    refine ⟨m', ?_, fun edits hedits => by cases hedits⟩
    rw [Block.exec_append, hexec]
    rfl
  | ok edits =>
    have hm' := hgrows edits rfl
    -- the receiver still denotes the definition
    have hvar' : m'.scopes.lookUp? receiver = some (.definition id) := (hm'.lookUp? _).trans hvar
    have hid' : id.index < m'.definitions.length :=
      hm'.lt_definitions (by simpa [Machine.edit] using hid)
    obtain ⟨m'', hexec', hgrows'⟩ := h' m' id hvar' hid'
    refine ⟨m'', ?_, fun both hboth => ?_⟩
    · rw [Block.exec_append, hexec]
      simp only [map_ok, hexec']
      cases r' <;> rfl
    · obtain ⟨further, rfl, rfl⟩ := map_eq_ok_iff.mp hboth
      rw [← Machine.edit_edit]
      exact Trans.trans (hm'.edit id further) (hgrows' further rfl)

/-- Statements that make one edit each make these edits in turn, up to the first fault. -/
theorem of_forall₂ {α : Type} {f : α → Except Fault Edit} {as : List α} {block : Block}
    (h : List.Forall₂ (fun a s => s.Performs call receiver ((f a).map ([·]))) as block) :
    Block.Performs call receiver block (as.mapM f) := by
  induction h with
  | nil => exact nil
  | @cons a s as block hs _ ih =>
    have happend := (singleton hs).append ih
    rw [mapM_cons_eq]
    cases hfa : f a <;> rw [hfa] at happend <;> exact happend

end Block.Performs

/-! ### Calls on the receiver -/

/-- A call on an object ends with the outcome of the call, once its arguments are evaluated. -/
theorem Stmt.call_run {object : Expr} (name : String) {args : List Expr} {m m' : Machine}
    {target : Datum} {data : List Datum} (hobject : object.eval call m = (.ok target, m))
    (hargs : evalArgs call args m = (.ok data, m')) :
    (Stmt.expr (.call object name args)).exec call m
      = match instanceCall m' target name data with
        | .ok outcome => (.ok none, outcome.change.elim m' m'.change)
        | .error fault => (.error fault, m') := by
  rw [Stmt.exec, Replay.bind_run, Expr.eval, Replay.bind_run, hobject]
  simp only [Replay.bind_run, hargs, callOn, Replay.get_run, Replay.ofExcept_run]
  rcases instanceCall m' target name data with fault | ⟨answer, _ | change⟩ <;> rfl

theorem Stmt.call_run_error {object : Expr} {name : String} {args : List Expr} {m m' : Machine}
    {target : Datum} {fault : Fault} (hobject : object.eval call m = (.ok target, m))
    (hargs : evalArgs call args m = (.error fault, m')) :
    (Stmt.expr (.call object name args)).exec call m = (.error fault, m') := by
  rw [Stmt.exec, Replay.bind_run, Expr.eval, Replay.bind_run, hobject]
  simp only [Replay.bind_run, hargs]

namespace Stmt.Performs

/-- A call on an object that belongs to the definition makes an edit of the definition, when the
call does so for all data that its arguments can give. -/
theorem of_instanceCall {object : Expr} {name : String} {args : List Expr} {α : Type}
    {r : Except Fault α} {data : α → List Datum} {edit : α → Edit}
    (part answer : DefinitionRef → Datum)
    (hobject : ∀ m id, m.scopes.lookUp? receiver = some (.definition id) →
      object.eval call m = (.ok (part id), m))
    (hargs : YieldArgs Machine.Grows call args (r.map data))
    (hcall : ∀ m id a, instanceCall m (part id) name (data a)
      = .ok { answer := answer id, change := some (.definition id (edit a)) }) :
    (Stmt.expr (.call object name args)).Performs call receiver (r.map fun a => [edit a]) := by
  intro m id hvar hid
  obtain ⟨m', heval, hgrows⟩ := hargs m
  cases r with
  | error fault =>
    exact ⟨m', call_run_error (hobject m id hvar) heval, fun edits h => by cases h⟩
  | ok a =>
    have hrun := call_run name (hobject m id hvar) heval
    simp only [hcall] at hrun
    refine ⟨m'.edit id [edit a], hrun, fun edits h => ?_⟩
    cases h
    exact (hgrows ⟨data a, rfl⟩).edit id [edit a]

theorem var_run {name : String} {m : Machine} {d : Datum} (h : m.scopes.lookUp? name = some d) :
    (Expr.var name).eval call m = (.ok d, m) := by
  rw [Expr.eval, Replay.bind_run, Replay.get_run]
  simp only [h]
  rfl

theorem receiver_run {style : Style} {m : Machine} {d : Datum}
    (h : m.scopes.lookUp? style.receiver = some d) :
    style.receiverExpr.eval call m = (.ok d, m) :=
  var_run h

variable {style : Style} {args : List Expr} {α : Type} {r : Except Fault α} {data : α → List Datum}
  {edit : α → Edit} (hargs : YieldArgs Machine.Grows call args (r.map data))

include hargs

/-- A call of a setter on the receiver. -/
theorem setter (method : Api.DefinitionMethod)
    (hedit : ∀ a, method.edit? { method := method.name, data := data a } = some (.ok (edit a))) :
    (style.call method args).Performs call style.receiver (r.map fun a => [edit a]) := by
  refine of_instanceCall .definition (fun _ => .void) (fun m id hvar => ?_) hargs
    fun m id a => ?_
  · exact receiver_run hvar
  · simp only [instanceCall, Api.DefinitionMethod.ofName?_name, callDefinition, hedit]
    rfl

/-- A call on the property values of the receiver adds a property. -/
theorem property (method : Api.PropertiesMethod)
    (hedit : ∀ id a, BeanScript.callProperties id { method := method.name, data := data a }
      = .ok { answer := .properties id, change := some (.definition id (edit a)) }) :
    (style.callProperties method args).Performs call style.receiver (r.map fun a => [edit a]) := by
  refine of_instanceCall .properties .properties (fun m id hvar => ?_) hargs fun m id a => ?_
  · rw [Expr.eval, Replay.bind_run, receiver_run hvar]
    rfl
  · simp only [instanceCall, Api.PropertiesMethod.ofName?_name, hedit]

/-- A call on the constructor arguments of the receiver adds an argument. -/
theorem argument (method : Api.ArgumentsMethod)
    (hedit : ∀ id a, BeanScript.callArguments id method { method := method.name, data := data a }
      = .ok { answer := .void, change := some (.definition id (edit a)) }) :
    (style.callArguments method args).Performs call style.receiver (r.map fun a => [edit a]) := by
  refine of_instanceCall .arguments (fun _ => .void) (fun m id hvar => ?_) hargs
    fun m id a => ?_
  · rw [Expr.eval, Replay.bind_run, receiver_run hvar]
    rfl
  · simp only [instanceCall, Api.ArgumentsMethod.ofName?_name, hedit]

end Stmt.Performs

/-- A call of a setter on the receiver, with arguments that are known beforehand. -/
theorem Stmt.Performs.setter_ok {style : Style} (method : Api.DefinitionMethod) {args : List Expr}
    {data : List Datum} {e : Edit} (hargs : YieldArgs Machine.Grows call args (.ok data))
    (hedit : method.edit? { method := method.name, data } = some (.ok e)) :
    (style.call method args).Performs call style.receiver (.ok [e]) :=
  have hset : ∀ r : Except Fault Unit, YieldArgs Machine.Grows call args (r.map fun _ => data) →
      (style.call method args).Performs call style.receiver (r.map fun _ => [e]) := fun _ h =>
    setter h method fun _ => hedit
  hset (.ok ()) hargs

end BeanScript
