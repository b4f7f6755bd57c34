import BeanScript.Proofs.Replay.Statements
import BeanScript.Proofs.Script.Parts

/-!
# Parts, replayed

The statement of a part makes the edit that adds the part again, with the values that come back of
its own. There is one exception. A qualifier with attributes besides its primary value is built in a
scope of its own, under a name of its own; where the receiver has the same name, the last statement
of that scope calls the qualifier and not the definition.

## Main definitions

* `Part.replay` — the edit that adds a part again
* `Part.opensScope`, `Part.isCaptured` — the receiver is hidden by the local of a qualifier
* `Part.outcome` — what running the statement of a part leads to

## Main results

* `Part.performs` — the statement of a part leads to its outcome
-/

namespace BeanScript

/-- What comes back of the value under a name. -/
def replayAt (bean : Definition → Except Fault Value) (e : String × Value) :
    Except Fault (String × Value) :=
  (e.2.replay bean).map (e.1, ·)

/-- What comes back of a qualifier. -/
def Qualifier.replay (bean : Definition → Except Fault Value) (q : Qualifier) :
    Except Fault Qualifier :=
  (q.inOrder.mapM (replayAt bean)).map fun es =>
    { typeName := q.typeName, attributes := Table.ofList es }

namespace Part

/-- The edit that adds a part again. -/
def replay (bean : Definition → Except Fault Value) : Part → Except Fault Edit
  | .indexed index h => (h.value.replay bean).map fun v => .addIndexed index { h with value := v }
  | .generic _ h => (h.value.replay bean).map fun v => .addGeneric { h with value := v }
  | .property name v => (v.replay bean).map (.addProperty name)
  | .metadata key v => (v.replay bean).map (.setAttribute key)
  | .qualifier q => (q.replay bean).map .addQualifier

/-- The statement of the part opens a scope: a qualifier with further attributes. -/
def opensScope : Part → Bool
  | .qualifier q => !q.further.isEmpty
  | _ => false

/-- The receiver is hidden by the local of a qualifier. -/
def isCaptured (receiver : String) (p : Part) : Bool :=
  p.opensScope && receiver == Script.Context.qualifierLocal

/-- The fault of calling the local of a qualifier in place of the receiver. -/
def captureFault : Fault :=
  .undefinedMethod Api.DefinitionMethod.addQualifier.name "qualifier"

/-- What running the statement of a part leads to. -/
def outcome (receiver : String) (bean : Definition → Except Fault Value) (p : Part) :
    Except Fault Edit :=
  p.replay bean >>= fun e => if p.isCaptured receiver then .error captureFault else .ok e

end Part

variable {call : StaticCalls} {bean : Definition → Except Fault Value}

/-! ### Arguments, properties and attributes -/

/-- What an argument with a given value evaluates to. -/
def Holder.datum (h : Holder) (v : Value) : Datum :=
  if h.hasHints then .holder { h with value := v } else .value v

/-- The expression of an argument evaluates to the argument. -/
theorem Holder.yields_expression {h : Holder} {e : Expr} {r : Except Fault Value}
    (he : e.Yields Machine.Grows call (r.map .value)) :
    (h.expression e).Yields Machine.Grows call (r.map h.datum) := by
  obtain ⟨v, t, n⟩ := h
  unfold Holder.expression Holder.datum
  split
  · exact .holder he t n
  · exact he

/-- An argument is read with its hints, also where it carries none. -/
theorem Arguments.holder_eq_ok {args : Arguments} {i : Nat} {h : Holder} {v : Value}
    (hi : args.data[i]? = some (h.datum v)) : args.holder i = .ok { h with value := v } := by
  have hdatum : args.datum i = .ok (h.datum v) := by
    rw [Arguments.datum, hi]
  rw [Arguments.holder, hdatum, Holder.datum]
  by_cases hhints : h.hasHints
  · rw [if_pos hhints]
    rfl
  · have hnone : h.typeName = none ∧ h.name = none := by
      simpa [Holder.hasHints] using hhints
    obtain ⟨w, t, n⟩ := h
    obtain ⟨rfl, rfl⟩ := hnone
    rw [if_neg hhints, ok_bind]
    simp only [Arguments.value, hdatum, Holder.datum, if_neg hhints]
    rfl

/-- An index within the range of a 32-bit number is read back. -/
theorem Arguments.index_eq_ok {args : Arguments} {i n : Nat}
    (hn : n < Script.Context.indexLimit)
    (hi : args.data[i]? = some (.value (.literal (.int (Int32.ofNat n))))) :
    args.index i = .ok n := by
  have hint : args.int i = .ok (Int32.ofNat n) := by
    rw [Arguments.int, Arguments.datum, hi]
    rfl
  have hto : (Int32.ofNat n).toInt = n := Int32.toInt_ofNat_of_lt hn
  rw [Arguments.index, hint, ok_bind, hto]
  rfl

/-- Two arguments, the first of which is known beforehand. -/
theorem YieldArgs.pair {j e : Expr} {d : Datum} {α : Type} {r : Except Fault α} {data : α → Datum}
    (hj : j.Yields Machine.Grows call (.ok d)) (he : e.Yields Machine.Grows call (r.map data)) :
    YieldArgs Machine.Grows call [j, e] (r.map fun a => [d, data a]) := by
  have hargs := YieldArgs.cons hj (YieldArgs.cons he .nil)
  cases r <;> exact hargs

theorem Expr.Yields.string (s : String) :
    (Expr.string s).Yields Machine.Grows call (.ok (.value (.string s))) :=
  .literal

theorem YieldArgs.singleton {e : Expr} {α : Type} {r : Except Fault α} {data : α → Datum}
    (he : e.Yields Machine.Grows call (r.map data)) :
    YieldArgs Machine.Grows call [e] (r.map fun a => [data a]) := by
  have hargs := YieldArgs.cons he .nil
  cases r <;> exact hargs

/-! ### Qualifiers -/

theorem construct_qualifier_run {data : List Datum} {q : Qualifier}
    (h : newQualifier { method := Api.Constructor.qualifier.type.text, data } = .ok q)
    (m : Machine) : construct Api.Constructor.qualifier.type data m
      = (.ok (.qualifier ⟨m.qualifiers.length⟩), (m.addQualifier q).2) := by
  simp only [construct, Api.Constructor.ofType?_type, Replay.bind_run, Replay.ofExcept_run, h]
  rfl

/-- The machine after creating a qualifier has it, besides everything it had. -/
theorem Machine.grows_addQualifier (m : Machine) (q : Qualifier) :
    m.Grows (m.addQualifier q).2 ∧
      m.qualifiers.length < (m.addQualifier q).2.qualifiers.length ∧
      (m.addQualifier q).2.qualifier ⟨m.qualifiers.length⟩ = q := by
  refine ⟨⟨rfl, rfl, List.prefix_refl _, List.prefix_append _ _⟩, ?_, ?_⟩
  · simp [addQualifier]
  · simp [addQualifier, qualifier]

/-- The construction of a qualifier creates it, with its primary value. -/
theorem Qualifier.construction_run {q : Qualifier} {es : List Expr}
    (h : List.Forall₂ (fun e x => x.Yields Machine.Grows call ((e.2.replay bean).map .value))
      q.primary (es.take q.primary.length)) (m : Machine) :
    ∃ x m', (q.construction es).eval call m = (x, m') ∧
      match q.primary.mapM (replayAt bean) with
      | .error fault => x = .error fault
      | .ok primary => m.Grows m' ∧ ∃ id : QualifierRef, x = .ok (.qualifier id) ∧
          m.qualifiers.length ≤ id.index ∧ id.index < m'.qualifiers.length ∧
          m'.qualifier id = { typeName := q.typeName, attributes := Table.ofList primary } := by
  -- what is left once the arguments are evaluated
  have hcreate : ∀ (q' : Qualifier) {args : List Expr} {data : List Datum} {m' : Machine},
      evalArgs call args m = (.ok data, m') → m.Grows m' →
      newQualifier { method := Api.Constructor.qualifier.type.text, data } = .ok q' →
      ∃ x m'', (Api.Constructor.qualifier.call args).eval call m = (x, m'') ∧ m.Grows m'' ∧
        ∃ id : QualifierRef, x = .ok (.qualifier id) ∧ m.qualifiers.length ≤ id.index ∧
          id.index < m''.qualifiers.length ∧ m''.qualifier id = q' := by
    intro q' args data m' hargs hgrows hq
    obtain ⟨hadd, hlt, hlookup⟩ := m'.grows_addQualifier q'
    refine ⟨_, _, ?_, Trans.trans hgrows hadd, ⟨m'.qualifiers.length⟩, rfl,
      hgrows.qualifiers.length_le, hlt, hlookup⟩
    rw [Api.Constructor.call, Expr.eval, Replay.bind_run, hargs]
    exact construct_qualifier_run hq m'
  unfold Qualifier.construction
  rw [Qualifier.primary] at h ⊢
  cases hvalue : q.value? with
  | none =>
    rw [hvalue] at h
    exact hcreate { typeName := q.typeName } rfl (Std.Refl.refl m) rfl
  | some v =>
    rw [hvalue] at h
    simp only [Option.toList_some, List.map_cons, List.map_nil, List.length_singleton] at h ⊢
    obtain ⟨x, xs, hx, hxs, hes⟩ := List.forall₂_cons_left_iff.mp h
    rw [List.forall₂_nil_left_iff] at hxs
    subst hxs
    rw [hes, mapM_cons_eq, replayAt]
    obtain ⟨m', hargs, hgrows⟩ := YieldArgs.pair (.string q.typeName) hx m
    cases hreplay : v.replay bean with
    | error fault =>
      rw [hreplay, map_error] at hargs
      refine ⟨.error fault, m', ?_, rfl⟩
      rw [Api.Constructor.call, Expr.eval, Replay.bind_run, hargs]
    | ok w =>
      rw [hreplay] at hargs hgrows
      exact hcreate (.ofValue q.typeName w) hargs (hgrows ⟨_, rfl⟩) rfl

/-- The statements that set further attributes set them on the qualifier. -/
theorem exec_attributeStatements {entries : List (String × Value)} {es : List Expr}
    (h : List.Forall₂ (fun e x => x.Yields Machine.Grows call ((e.2.replay bean).map .value))
      entries es) {m : Machine} {id : QualifierRef}
    (hvar : m.scopes.lookUp? Script.Context.qualifierLocal = some (.qualifier id)) :
    ∃ m', Block.exec call (List.zipWith attributeStatement entries es) m
        = ((entries.mapM (replayAt bean)).map fun _ => none, m') ∧
      ∀ fs, entries.mapM (replayAt bean) = .ok fs → (m.fill id fs).Grows m' := by
  induction h generalizing m with
  | nil =>
    refine ⟨m, rfl, fun fs hfs => ?_⟩
    obtain rfl : [] = fs := Except.ok.inj hfs
    rw [Machine.fill_nil]
    exact Std.Refl.refl m
  | @cons e x entries es hx _ ih =>
    obtain ⟨m', hargs, hgrows⟩ := YieldArgs.pair (.string e.1) hx m
    rw [List.zipWith_cons_cons, mapM_cons_eq, Block.exec_cons, replayAt]
    have hobject : (Expr.var Script.Context.qualifierLocal).eval call m
        = (.ok (.qualifier id), m) := Stmt.Performs.var_run hvar
    cases hreplay : e.2.replay bean with
    | error fault =>
      rw [hreplay, map_error] at hargs
      refine ⟨m', ?_, fun fs hfs => by cases hfs⟩
      rw [attributeStatement, Stmt.call_run_error hobject hargs]
      rfl
    | ok w =>
      rw [hreplay] at hargs hgrows
      have hm' := hgrows ⟨_, rfl⟩
      have hset : (attributeStatement e x).exec call m = (.ok none, m'.fill id [(e.1, w)]) := by
        rw [attributeStatement, Stmt.call_run _ hobject hargs]
        rfl
      obtain ⟨m'', hexec, hrest⟩ := ih (m := m'.fill id [(e.1, w)]) ((hm'.lookUp? _).trans hvar)
      rw [hset]
      refine ⟨m'', ?_, fun fs hfs => ?_⟩
      · simp only [hexec, map_ok, ok_bind]
        cases entries.mapM (replayAt bean) <;> rfl
      · obtain ⟨gs, hgs, rfl⟩ := map_eq_ok_iff.mp hfs
        have happend := (hm'.fill id [(e.1, w)]).fill id gs
        rw [Machine.fill_fill] at happend
        exact Trans.trans happend (hrest gs hgs)

theorem Qualifier.foldl_setAttribute (q : Qualifier) (es : List (String × Value)) :
    es.foldl (fun q e => q.setAttribute e.1 e.2) q =
      { q with attributes := es.foldl (fun t e => Table.put t e.1 e.2) q.attributes } := by
  induction es generalizing q with
  | nil => rfl
  | cons e es ih => exact ih _

/-- The call that adds a qualifier adds what has become of it. -/
theorem addQualifier_run {style : Style} {e : Expr} {m m' : Machine} {id : DefinitionRef}
    {q : QualifierRef} (hvar : m.scopes.lookUp? style.receiver = some (.definition id))
    (he : e.eval call m = (.ok (.qualifier q), m')) :
    (style.call .addQualifier [e]).exec call m
      = (.ok none, m'.edit id [.addQualifier (m'.qualifier q)]) := by
  have hargs : evalArgs call [e] m = (.ok [.qualifier q], m') := by
    rw [evalArgs, Replay.bind_run, he]
    rfl
  rw [Style.call, Stmt.call_run _ (Stmt.Performs.receiver_run hvar) hargs]
  rfl

/-- Without further attributes, a qualifier is added as it is constructed. -/
theorem Qualifier.performs_simple {style : Style} {q : Qualifier} {es : List Expr}
    (hfurther : q.further = [])
    (h : List.Forall₂ (fun e x => x.Yields Machine.Grows call ((e.2.replay bean).map .value))
      q.inOrder es) :
    (style.call .addQualifier [q.construction es]).Performs call style.receiver
      ((q.replay bean).map fun q => [.addQualifier q]) := by
  have hinOrder : q.inOrder = q.primary := by rw [inOrder, hfurther, List.append_nil]
  rw [hinOrder] at h
  intro m id hvar hid
  obtain ⟨x, m', hrun, hx⟩ := construction_run (by rwa [h.length_eq, List.take_length]) m
  rw [replay, hinOrder]
  cases hprimary : q.primary.mapM (replayAt bean) with
  | error fault =>
    rw [hprimary] at hx
    obtain rfl : x = .error fault := hx
    refine ⟨m', ?_, fun edits hedits => by cases hedits⟩
    have hargs : evalArgs call [q.construction es] m = (.error fault, m') := by
      rw [evalArgs, Replay.bind_run, hrun]
    rw [Style.call, Stmt.call_run_error (Stmt.Performs.receiver_run hvar) hargs]
    rfl
  | ok primary =>
    rw [hprimary] at hx
    obtain ⟨hgrows, ref, rfl, -, -, hlookup⟩ := hx
    refine ⟨_, addQualifier_run hvar hrun, fun edits hedits => ?_⟩
    cases hedits
    rw [hlookup]
    exact hgrows.edit id _

/-- Building a qualifier in a local: the construction, and then the further attributes. -/
theorem Qualifier.build_run {q : Qualifier} {es : List Expr}
    (h : List.Forall₂ (fun e x => x.Yields Machine.Grows call ((e.2.replay bean).map .value))
      q.inOrder es) (m : Machine) :
    ∃ m', Block.exec call (.declare Api.autowireCandidateQualifier Script.Context.qualifierLocal
        (q.construction es) :: q.attributeStatements es) m
        = ((q.replay bean).map fun _ => none, m') ∧
      ∀ q', q.replay bean = .ok q' → ∃ ref : QualifierRef, m'.qualifier ref = q' ∧
        m'.scopes = m.scopes.define Script.Context.qualifierLocal (.qualifier ref) ∧
        m.Grows { m' with scopes := m.scopes } := by
  have hprimaries := List.forall₂_take q.primary.length h
  have hfurthers := List.forall₂_drop q.primary.length h
  rw [inOrder, List.take_left] at hprimaries
  rw [inOrder, List.drop_left] at hfurthers
  obtain ⟨x, m₁, hrun, hx⟩ := construction_run hprimaries m
  rw [replay, inOrder, mapM_append_eq, Block.exec_cons, Stmt.exec, Replay.bind_run, hrun]
  cases hprimary : q.primary.mapM (replayAt bean) with
  | error fault =>
    rw [hprimary] at hx
    obtain rfl : x = .error fault := hx
    exact ⟨m₁, rfl, fun q' hq' => by cases hq'⟩
  | ok primary =>
    rw [hprimary] at hx
    obtain ⟨hgrows₁, ref, rfl, hle, hlt, hlookup⟩ := hx
    -- the local denotes the qualifier from here on
    have hlocal : (m₁.define Script.Context.qualifierLocal (.qualifier ref)).scopes.lookUp?
        Script.Context.qualifierLocal = some (.qualifier ref) := by
      rw [Machine.define, Scopes.lookUp?_define, if_pos rfl]
    obtain ⟨m₂, hattributes, hgrows₂⟩ := exec_attributeStatements hfurthers hlocal
    refine ⟨m₂, ?_, fun q' hq' => ?_⟩
    · rw [ok_bind, map_map_eq, map_map_eq]
      exact hattributes
    · rw [ok_bind, map_map_eq] at hq'
      obtain ⟨further, hfurther, rfl⟩ := map_eq_ok_iff.mp hq'
      have hm₂ := hgrows₂ further hfurther
      have hbeside := hgrows₁.fill_of_le hle further
      refine ⟨ref, ?_, ?_, rfl, ?_, ?_, ?_⟩
      · have hfill := Machine.qualifier_fill
          (m := m₁.define Script.Context.qualifierLocal (.qualifier ref)) hlt further
        rw [hm₂.qualifier (by simpa [Machine.fill, Machine.define] using hlt), hfill,
          show (m₁.define _ _).qualifier ref = m₁.qualifier ref from rfl, hlookup,
          foldl_setAttribute, Table.ofList, Table.ofList, List.foldl_append]
      · rw [← hgrows₁.scopes]
        exact hm₂.scopes
      · exact hm₂.callers.trans hgrows₁.callers
      · exact hgrows₁.definitions.trans hm₂.definitions
      · exact hbeside.qualifiers.trans hm₂.qualifiers

/-- With further attributes, a qualifier is added from a scope of its own, unless the receiver is
hidden there. -/
theorem Qualifier.performs_nested {style : Style} {q : Qualifier} {es : List Expr}
    (h : List.Forall₂ (fun e x => x.Yields Machine.Grows call ((e.2.replay bean).map .value))
      q.inOrder es) :
    (Stmt.nested (.declare Api.autowireCandidateQualifier Script.Context.qualifierLocal
        (q.construction es) :: (q.attributeStatements es ++
          [style.call .addQualifier [.var Script.Context.qualifierLocal]]))).Performs
      call style.receiver
      (q.replay bean >>= fun q =>
        if style.receiver = Script.Context.qualifierLocal then .error Part.captureFault
        else .ok [.addQualifier q]) := by
  intro m id hvar hid
  obtain ⟨m₁, hbuild, hbuilt⟩ := build_run h { m with scopes := m.scopes.enter }
  rw [Stmt.exec, Replay.inScope, ← List.cons_append, Block.exec_append, hbuild]
  cases hreplay : q.replay bean with
  | error fault =>
    exact ⟨{ m₁ with scopes := m₁.scopes.leave }, rfl, fun edits hedits => by cases hedits⟩
  | ok q' =>
    obtain ⟨ref, hqualifier, hscopes, hgrows⟩ := hbuilt q' hreplay
    have hlocal : m₁.scopes.lookUp? Script.Context.qualifierLocal = some (.qualifier ref) := by
      rw [hscopes, Scopes.lookUp?_define, if_pos rfl]
    by_cases hcaptured : style.receiver = Script.Context.qualifierLocal
    · -- the receiver denotes the qualifier, which has no such method
      have hargs : evalArgs call [.var Script.Context.qualifierLocal] m₁
          = (.ok [.qualifier ref], m₁) := by
        rw [evalArgs, Replay.bind_run, Stmt.Performs.var_run hlocal]
        rfl
      have hlast : (style.call .addQualifier [.var Script.Context.qualifierLocal]).exec call m₁
          = (.error Part.captureFault, m₁) := by
        rw [Style.call, Stmt.call_run _ (Stmt.Performs.receiver_run (hcaptured ▸ hlocal)) hargs]
        rfl
      refine ⟨{ m₁ with scopes := m₁.scopes.leave }, ?_, fun edits hedits => ?_⟩
      · simp only [map_ok, Block.exec_cons, hlast, ok_bind, if_pos hcaptured, map_error]
      · rw [ok_bind, if_pos hcaptured] at hedits
        cases hedits
    · have hreceiver : m₁.scopes.lookUp? style.receiver = some (.definition id) := by
        rw [hscopes, Scopes.lookUp?_define, if_neg (fun h => hcaptured h.symm)]
        exact hvar
      have hlast : (style.call .addQualifier [.var Script.Context.qualifierLocal]).exec call m₁
          = (.ok none, m₁.edit id [.addQualifier (m₁.qualifier ref)]) :=
        addQualifier_run hreceiver (Stmt.Performs.var_run hlocal)
      refine ⟨{ m₁.edit id [.addQualifier q'] with scopes := m₁.scopes.leave }, ?_,
        fun edits hedits => ?_⟩
      · simp only [map_ok, Block.exec_cons, hlast, ok_bind, if_neg hcaptured, hqualifier]
        rfl
      · rw [ok_bind, if_neg hcaptured] at hedits
        cases hedits
        refine ⟨?_, hgrows.callers, prefix_modify hgrows.definitions _ _, hgrows.qualifiers⟩
        -- leaving the scope ends the local
        rw [hscopes]
        rfl

/-! ### All parts -/

theorem Part.outcome_of_not_captured {receiver : String} {p : Part}
    (h : p.isCaptured receiver = false) : p.outcome receiver bean = p.replay bean := by
  rw [outcome, h]
  cases p.replay bean <;> rfl

/-- The statement of a qualifier adds it to the definition, unless the receiver is hidden by the
local in which it is built. -/
theorem Qualifier.performs {c : Script.Context} {q : Qualifier} {es : List Expr}
    (h : List.Forall₂ (fun e x => x.Yields Machine.Grows call ((e.2.replay bean).map .value))
      q.inOrder es) :
    ((Part.qualifier q).statement c es).Performs call c.style.receiver
      (((Part.qualifier q).outcome c.style.receiver bean).map ([·])) := by
  rw [Part.statement]
  by_cases hfurther : q.further.isEmpty
  · have hnot : (Part.qualifier q).isCaptured c.style.receiver = false := by
      simp [Part.isCaptured, Part.opensScope, hfurther]
    rw [if_pos hfurther, Part.outcome_of_not_captured hnot, Part.replay, map_map_eq]
    exact Qualifier.performs_simple (List.isEmpty_iff.mp hfurther) h
  · have hnested : (Stmt.nested _).Performs call c.style.receiver _ :=
      Qualifier.performs_nested h
    have hcaptured : (Part.qualifier q).isCaptured c.style.receiver
        = decide (c.style.receiver = Script.Context.qualifierLocal) := by
      simp [Part.isCaptured, Part.opensScope, hfurther, beq_eq_decide]
    rw [if_neg hfurther, Part.outcome, Part.replay, hcaptured]
    cases hreplay : q.replay bean with
    | error fault =>
      rw [hreplay] at hnested
      exact hnested
    | ok q' =>
      rw [hreplay, ok_bind] at hnested
      by_cases hreceiver : c.style.receiver = Script.Context.qualifierLocal
      · rw [if_pos hreceiver] at hnested
        rw [map_ok, ok_bind, if_pos (decide_eq_true hreceiver)]
        exact hnested
      · rw [if_neg hreceiver] at hnested
        rw [map_ok, ok_bind, if_neg (by simpa using hreceiver)]
        exact hnested

/-- The statement of a part, made of expressions that evaluate to what comes back of its values,
leads to the outcome of the part. -/
theorem Part.performs {c : Script.Context} {p : Part} {es : List Expr} (hfault : p.fault? = none)
    (h : List.Forall₂ (fun e x => x.Yields Machine.Grows call ((e.2.replay bean).map .value))
      p.values es) :
    (p.statement c es).Performs call c.style.receiver
      ((p.outcome c.style.receiver bean).map ([·])) := by
  cases p with
  | indexed index argument =>
    have hindex : index < Script.Context.indexLimit := by
      by_contra hle
      rw [Part.fault?, if_pos (Nat.le_of_not_lt hle)] at hfault
      cases hfault
    obtain ⟨x, rfl, hx⟩ := forall₂_singleton_left h
    rw [outcome_of_not_captured rfl, replay, map_map_eq]
    refine .argument (YieldArgs.pair .literal (Holder.yields_expression hx))
      .addIndexedArgumentValue fun id v => ?_
    let args : Arguments :=
      { method := Api.ArgumentsMethod.addIndexedArgumentValue.name
        data := [.value (.literal (.int (Int32.ofNat index))), argument.datum v] }
    have hposition : args.index 0 = .ok index := Arguments.index_eq_ok hindex rfl
    have hholder : args.holder 1 = .ok { argument with value := v } := Arguments.holder_eq_ok rfl
    change callArguments id .addIndexedArgumentValue args = _
    simp only [callArguments, hposition, hholder]
    rfl
  | generic number argument =>
    obtain ⟨x, rfl, hx⟩ := forall₂_singleton_left h
    rw [outcome_of_not_captured rfl, replay, map_map_eq]
    refine .argument (YieldArgs.singleton (Holder.yields_expression hx))
      .addGenericArgumentValue fun id v => ?_
    let args : Arguments :=
      { method := Api.ArgumentsMethod.addGenericArgumentValue.name, data := [argument.datum v] }
    have hholder : args.holder 0 = .ok { argument with value := v } := Arguments.holder_eq_ok rfl
    change callArguments id .addGenericArgumentValue args = _
    simp only [callArguments, hholder]
    rfl
  | property name v =>
    obtain ⟨x, rfl, hx⟩ := forall₂_singleton_left h
    rw [outcome_of_not_captured rfl, replay, map_map_eq]
    exact .property (YieldArgs.pair (.string name) hx) (c.adder name) fun _ _ => rfl
  | metadata key v =>
    obtain ⟨x, rfl, hx⟩ := forall₂_singleton_left h
    rw [outcome_of_not_captured rfl, replay, map_map_eq]
    exact .setter (YieldArgs.pair (.string key) hx) .setAttribute fun _ => rfl
  | qualifier q => exact Qualifier.performs h

end BeanScript
