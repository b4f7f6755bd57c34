import BeanScript.Proofs.Replay.Plain
import BeanScript.Proofs.Script.Setters

/-!
# Writing what has been replayed

Equality of definitions does not see the order of properties, attributes and qualifiers, but their
order can be seen in a script. What a script of a plain definition leads to has the very script that
it comes from: it lost only what has no statement, and where its order is another one, in the
attributes of a qualifier, it is that in which they are written anyway. So replaying keeps the order
of declarations, and replaying twice is replaying once.

Properties are added through setters where the type of the bean has them. A script does not restore
the type, so the two scripts are the same when nothing is known of types.

## Main definitions

* `Part.inOrder` — a part with its values in the order in which they are written

## Main results

* `Script.Context.statements_scripted` — what is replayed has the same statements
* `Generator.script_regenerated` — replaying a script and writing it again gives the script
-/

namespace BeanScript

/-! ### Qualifiers in order -/

namespace Qualifier

@[simp] theorem further_ordered (q : Qualifier) : q.ordered.further = q.further := by
  have hprimary : q.primary.filter (·.1 ≠ valueKey) = [] := by
    refine List.filter_eq_nil_iff.mpr fun e he => ?_
    obtain ⟨v, -, rfl⟩ := List.mem_map.mp he
    simp
  rw [further, ordered, inOrder, List.filter_append, hprimary, List.nil_append, further,
    List.filter_filter]
  simp only [Bool.and_self]

@[simp] theorem primary_ordered (q : Qualifier) : q.ordered.primary = q.primary := by
  have hvalue : q.ordered.value? = q.value? := by
    have hfurther : Table.get? q.further valueKey = none :=
      (Table.get?_filter q.attributes (fun key => decide (key ≠ valueKey)) valueKey).trans
        (by simp)
    rw [value?, attribute?, ordered, inOrder, primary]
    cases hv : q.value? with
    | none => exact hfurther
    | some v => exact (Table.get?_cons _ _ _ _).trans (if_pos (beq_self_eq_true _))
  rw [primary, hvalue, primary]

@[simp] theorem inOrder_ordered (q : Qualifier) : q.ordered.inOrder = q.inOrder := by
  rw [inOrder, primary_ordered, further_ordered, inOrder]

end Qualifier

/-! ### Parts in order -/

namespace Part

/-- The part with its values in the order in which they are written. -/
def inOrder : Part → Part
  | .qualifier q => .qualifier q.ordered
  | p => p

variable (p : Part)

@[simp] theorem values_inOrder : p.inOrder.values = p.values := by
  cases p with
  | qualifier q => exact q.inOrder_ordered
  | _ => rfl

@[simp] theorem fault?_inOrder : p.inOrder.fault? = p.fault? := by
  cases p <;> rfl

@[simp] theorem statement_inOrder (c : Script.Context) :
    p.inOrder.statement c = p.statement c := by
  cases p with
  | qualifier q =>
    funext es
    simp only [inOrder, statement, Qualifier.construction, Qualifier.attributeStatements,
      Qualifier.further_ordered, Qualifier.primary_ordered]
    rfl
  | _ => rfl

/-- The statement of a part does not depend on the order that it does not follow. -/
theorem write_inOrder (c : Script.Context) : c.write p.inOrder = c.write p := by
  rw [Script.Context.write_eq, Script.Context.write_eq, values_inOrder, fault?_inOrder,
    statement_inOrder]

end Part

theorem Definition.parts_scripted (keep : KeyFilter) (d : Definition) :
    (d.scripted keep).parts keep = (d.parts keep).map Part.inOrder := by
  simp only [parts, scripted, qualifierList, List.filter_filter, Bool.and_self, List.map_append,
    List.map_map, Function.comp_def, Part.inOrder, Qualifier.ordered]

/-! ### Settings -/

theorem Style.lifecycle_normalNames (style : Style) (one several : Api.DefinitionMethod)
    (names : Option (List String)) :
    style.lifecycle one several (normalNames names) = style.lifecycle one several names := by
  rcases names with _ | _ | ⟨name, names⟩ <;> rfl

/-- What has no statement does not matter for the statements, and neither do the types. -/
theorem Settings.statements_normal (style : Style) (s : Settings) (target bean : Option ClassName) :
    { s.normal with targetType := target, beanClass := bean }.statements style
      = s.statements style := by
  have hscope : (if s.normal.scope = "" ∨ s.normal.scope = singletonScope then none
        else some (style.call .setScope [.string s.normal.scope]))
      = if s.scope = "" ∨ s.scope = singletonScope then none
        else some (style.call .setScope [.string s.scope]) := by
    by_cases hsingleton : s.scope = singletonScope <;> simp [normal, hsingleton]
  refine congrArg List.reduceOption (congrArg₂ List.cons rfl (congrArg₂ List.cons rfl
    (congrArg₂ List.cons hscope (congrArg₂ List.cons ?_ rfl))))
  rw [normal]
  rcases s.dependsOn with _ | _ | ⟨name, names⟩ <;> rfl

/-- What the script of a definition leads to has the same statements as the definition. -/
theorem Script.Context.statements_scripted (c : Script.Context) (d : Definition) :
    c.statements (d.scripted c.keep) = c.statements d := by
  have hparts : ((d.scripted c.keep).parts c.keep).mapM c.write
      = (d.parts c.keep).mapM c.write := by
    rw [Definition.parts_scripted, List.mapM_map]
    exact mapM_congr_of_mem fun p _ => p.write_inOrder c
  rw [statements_eq, statements_eq, hparts, Definition.scripted]
  simp only [Settings.statements_normal]
  simp only [Settings.normal, Style.lifecycle_normalNames]

/-! ### Scripts -/

theorem TypeSource.setter?_empty (type : Option ClassName) :
    TypeSource.empty.setter? type = fun _ => none := by
  funext property
  cases type <;> rfl

namespace Generator

variable {g g' : Generator} {d : Definition}

/-- Where nothing is known of types, all definitions are written in the same context. -/
theorem Coherent.context_of_empty (hg : g.Coherent) (htypes : g.types = .empty) (resolve : Resolver)
    (d : Definition) :
    g.context resolve d
      = { style := g.style, resolve, keep := g.keep, setter? := fun _ => none } := by
  rw [hg.context_eq, htypes, TypeSource.setter?_empty]

/-- Replaying the script of a plain definition gives a definition that has the same script, whatever
the generator has written in the meantime. -/
theorem script_regenerated (hg : g.Coherent) (htypes : g.types = .empty) (hd : d.Plain g.keep)
    (hreceiver : g.style.receiver ≠ Script.Context.qualifierLocal) {s : Script}
    (h : (g.script d).1 = .ok s) (methods : Methods) :
    ∃ e, execute methods s.statements g.style.receiver = .ok e ∧
      ∀ g', SameChoices g g' → g'.Coherent →
        ∃ s', (g'.script e).1 = .ok s' ∧ s'.statements = s.statements := by
  refine ⟨d.scripted g.keep, execute_script hd hreceiver h methods, fun g' hsame hg' => ?_⟩
  have hcontext : g'.context g'.resolve (d.scripted g.keep) = g.context g.resolve d := by
    rw [hg'.context_of_empty (hsame.types.trans htypes), hg.context_of_empty htypes, hsame.style,
      hsame.resolve, hsame.keep]
  have hkeep : (g.context g.resolve d).keep = g.keep := by
    rw [hg.context_of_empty htypes]
  have hstatements : (g'.context g'.resolve (d.scripted g.keep)).statements (d.scripted g.keep)
      = .ok s.statements := by
    rw [hcontext, ← hkeep, Script.Context.statements_scripted]
    exact statements_of_scriptWith h
  obtain ⟨hints, g'', -, heq⟩ := g'.scriptWith_eq g'.resolve (d.scripted g.keep)
  rw [script, heq, hstatements]
  exact ⟨_, rfl, rfl⟩

/-- A scope without statement, a rejected attribute, and a qualifier with its primary value last. -/
theorem script_regenerated_service :
    let g : Generator := { keep := fun key => key != "skip" }
    let d : Definition :=
      { settings := { scope := "singleton", primary := true, initMethods := some [] }
        properties := [("timeout", .string "x"), ("name", .null)]
        attributes := [("order", .null), ("skip", .atom (.instanceOf ⟨"part.Key"⟩))]
        qualifiers := [("Q", [("format", .null), ("value", .string "main")])] }
    ∃ s e, (g.script d).1 = .ok s ∧ execute [] s.statements "beanDefinition" = .ok e ∧
      ∃ s', (g.script e).1 = .ok s' ∧ s'.statements = s.statements := by
  intro g d
  have hd : d.Plain g.keep := ⟨by decide, rfl, by decide⟩
  obtain ⟨s, hs⟩ : ∃ s, (g.script d).1 = .ok s := ⟨_, rfl⟩
  obtain ⟨e, he, hagain⟩ := script_regenerated (.of_setters_eq_nil rfl) rfl hd (by decide) hs []
  exact ⟨s, e, hs, he, hagain g (.refl g) (.of_setters_eq_nil rfl)⟩

end Generator

end BeanScript
