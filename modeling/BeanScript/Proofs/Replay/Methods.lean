import BeanScript.Proofs.Bean.Edits
import BeanScript.Proofs.Bean.Normal
import BeanScript.Proofs.Replay.Scripts
import BeanScript.Script.Generator

/-!
# Methods, replayed

A method runs in variables of its own: it creates a definition of the types that it was made for,
makes the edits of its script on it and returns it. The caller is handed a copy, so what a call
gives is known from the edits. A call that no more calls may wait for fails in any case.

## Main results

* `methodBody_run` — the body of a method creates a definition and makes the edits of its script
* `Expr.Yields.methodCall`, `Expr.Yields.recursionLimit` — what a call of a method gives
-/

namespace BeanScript

variable {call : StaticCalls}

/-- The statement that sets the target type of a definition. -/
def Settings.targetStatements (style : Style) (s : Settings) : Block :=
  s.targetType.toList.map fun type => style.call .setTargetType [.typeLiteral type]

/-- The edit that sets the target type of a definition. -/
def Settings.targetEdits (s : Settings) : List Edit :=
  s.targetType.toList.map .setTargetType

/-- A new definition, as the constructor makes it for a bean class, of no target type. -/
def Settings.construction (s : Settings) : Definition :=
  s.beanClass.elim {} .ofClass

/-- After the construction and the target type, a method has a fresh definition of the types that
it was made for. -/
theorem Settings.applyAll_targetEdits (d : Definition) :
    d.settings.construction.applyAll d.settings.targetEdits
      = ({} : Definition).withTypesOf d := by
  rw [construction, targetEdits, Definition.withTypesOf]
  cases d.settings.beanClass <;> cases d.settings.targetType <;> rfl

/-- The first statement of a method creates a definition. -/
theorem construction_run (s : Settings) (m : Machine) :
    (Api.Constructor.definition.call (s.beanClass.toList.map .typeLiteral)).eval call m
      = (.ok (.definition ⟨m.definitions.length⟩), (m.addDefinition s.construction).2) := by
  rw [Settings.construction]
  cases s.beanClass <;> rfl

/-- The statement for the target type makes its edit. -/
theorem Settings.performs_target (style : Style) (s : Settings) :
    Block.Performs call style.receiver (s.targetStatements style) (.ok s.targetEdits) := by
  rw [targetEdits, targetStatements]
  cases s.targetType with
  | none => exact .nil
  | some type =>
    exact .singleton (.setter_ok .setTargetType (yieldArgs_singleton .typeLiteral) rfl)

/-- The body of a method creates a definition, makes the edits of its script on it and returns
it. -/
theorem methodBody_run {style : Style} {d : Definition} {block : Block}
    {r : Except Fault (List Edit)} (h : Block.Performs call style.receiver block r) (m : Machine) :
    ∃ m', Block.exec call (Generator.methodBody style d block) m
        = (r.map fun _ => some (.definition ⟨m.definitions.length⟩), m') ∧
      ∀ edits, r = .ok edits → m'.callers = m.callers ∧ m.definitions <+: m'.definitions ∧
        m.qualifiers <+: m'.qualifiers ∧ m'.definition ⟨m.definitions.length⟩
          = (({} : Definition).withTypesOf d).applyAll edits := by
  let id : DefinitionRef := ⟨m.definitions.length⟩
  let m₁ := (m.addDefinition d.settings.construction).2.define style.receiver (.definition id)
  have hid : id.index < m₁.definitions.length := by
    simp [m₁, id, Machine.addDefinition, Machine.define]
  have hvar : m₁.scopes.lookUp? style.receiver = some (.definition id) := by
    exact (Scopes.lookUp?_define ..).trans (if_pos rfl)
  obtain ⟨m₂, hexec, hgrows⟩ := ((d.settings.performs_target style).append h) m₁ id hvar hid
  have hrun : Block.exec call (Generator.methodBody style d block) m
      = Block.exec call (d.settings.targetStatements style ++ block ++ [.ret style.receiverExpr])
          m₁ := by
    have hdeclare : (Stmt.declare Api.rootBeanDefinition style.receiver
        (Api.Constructor.definition.call (d.settings.beanClass.toList.map .typeLiteral))).exec
          call m = (.ok none, m₁) := by
      rw [Stmt.exec, Replay.bind_run, construction_run]
      rfl
    rw [Generator.methodBody, Block.exec_cons, hdeclare, ← Settings.targetStatements]
  rw [hrun, Block.exec_append, hexec]
  cases r with
  | error fault => exact ⟨m₂, rfl, fun edits hedits => by cases hedits⟩
  | ok edits =>
    have hm₂ := hgrows _ rfl
    have hvar₂ : m₂.scopes.lookUp? style.receiver = some (.definition id) :=
      (hm₂.lookUp? _).trans hvar
    have hreturn : Block.exec call [.ret style.receiverExpr] m₂
        = (.ok (some (.definition id)), m₂) := by
      rw [Block.exec_cons, Stmt.exec, Replay.bind_run, Stmt.Performs.receiver_run hvar₂]
      rfl
    refine ⟨m₂, hreturn, fun edits' hedits => ?_⟩
    cases hedits
    have hedit : m₂.definition id = _ := hm₂.definition (by simpa [Machine.edit] using hid)
    have hconstruction : m₁.definition id = d.settings.construction := by
      simp [m₁, id, Machine.addDefinition, Machine.define, Machine.definition]
    rw [Machine.definition_edit hid, hconstruction, Definition.applyAll_append,
      Settings.applyAll_targetEdits] at hedit
    refine ⟨hm₂.callers, ?_, hm₂.qualifiers, hedit⟩
    -- the definitions that were there before come first, and are not edited
    have hprefix : m.definitions <+: m₁.definitions := List.prefix_append _ _
    have hmodify := prefix_modify hprefix id.index (·.applyAll (d.settings.targetEdits ++ edits))
    rw [List.modify_eq_self (Nat.le_refl _)] at hmodify
    exact hmodify.trans hm₂.definitions

/-- A method runs in variables of its own and returns a definition. -/
theorem runMethod_run {methods : Methods} {n : Nat} {style : Style} {d : Definition}
    {block : Block} {r : Except Fault (List Edit)}
    (h : Block.Performs (staticCall methods (runMethod methods n)) style.receiver block r)
    (owner : ClassName) (name : String) (m : Machine) :
    ∃ m', runMethod methods (n + 1) owner name (Generator.methodBody style d block) m
        = (r.map fun _ => .definition ⟨m.definitions.length⟩, m') ∧
      ∀ edits, r = .ok edits → m.Grows m' ∧ m'.definition ⟨m.definitions.length⟩
        = (({} : Definition).withTypesOf d).applyAll edits := by
  obtain ⟨m', hexec, hmade⟩ :=
    methodBody_run (d := d) h { m with scopes := {}, callers := m.scopes :: m.callers }
  refine ⟨{ m' with scopes := m.scopes, callers := m.callers }, ?_, fun edits hedits => ?_⟩
  · rw [runMethod, Replay.bind_run, Replay.inCall, hexec]
    cases r <;> rfl
  · obtain ⟨-, hdefinitions, hqualifiers, hdefinition⟩ := hmade edits hedits
    exact ⟨⟨rfl, rfl, hdefinitions, hqualifiers⟩, hdefinition⟩

section Calls

variable {methods : Methods} {owner : ClassName} {name : String} {style : Style} {d : Definition}
  {block : Block}

/-- The call of a method gives a copy of the definition that it builds. -/
theorem Expr.Yields.methodCall {n : Nat} {r : Except Fault (List Edit)}
    (hfactory : Api.Factory.of? owner name = none)
    (hget : Table.get? methods (owner, name) = some (Generator.methodBody style d block))
    (h : Block.Performs (BeanScript.staticCall methods (runMethod methods n)) style.receiver
      block r) :
    (Expr.staticCall owner name []).Yields Machine.Grows
      (BeanScript.staticCall methods (runMethod methods (n + 1)))
      (r.map fun edits => .value (.bean ((({} : Definition).withTypesOf d).applyAll edits))) := by
  intro m
  obtain ⟨m', hrun, hmade⟩ := runMethod_run (d := d) h owner name m
  have heval : (Expr.staticCall owner name []).eval
      (BeanScript.staticCall methods (runMethod methods (n + 1))) m
      = (r.map fun _ => .definition ⟨m.definitions.length⟩, m') := by
    rw [← hrun, Expr.eval, Replay.bind_run]
    simp only [evalArgs, Replay.pure_run, BeanScript.staticCall, hfactory, hget, Replay.bind_run]
    rfl
  refine ⟨_, m', heval, ?_, ?_⟩
  · cases r with
    | error fault => rfl
    | ok edits =>
      rw [map_ok, map_ok, map_ok, ← (hmade edits rfl).2]
      rfl
  · rintro ⟨x, hx⟩
    obtain ⟨edits, hedits, -⟩ := map_eq_ok_iff.mp hx
    exact (hmade edits hedits).1

/-- No call gives anything where no more calls are allowed. -/
theorem Expr.Yields.recursionLimit (hfactory : Api.Factory.of? owner name = none) {body : Block}
    (hget : Table.get? methods (owner, name) = some body) :
    (Expr.staticCall owner name []).Yields Machine.Grows
      (BeanScript.staticCall methods (runMethod methods 0))
      (.error (.recursionLimit maxCalls)) := by
  intro m
  refine ⟨.error (.recursionLimit maxCalls), m, ?_, rfl, fun ⟨x, hx⟩ => by cases hx⟩
  rw [Expr.eval, Replay.bind_run]
  simp only [evalArgs, Replay.pure_run, BeanScript.staticCall, hfactory, hget, Replay.bind_run]
  rfl

end Calls

end BeanScript
