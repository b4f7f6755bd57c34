import BeanScript.Proofs.Replay.Statements
import BeanScript.Script.Statements
import Mathlib.Data.List.ReduceOption

/-!
# Settings, replayed

The statements for settings and lifecycle methods hold no values, so the edits that they make are
known beforehand, whatever the machine.

## Main definitions

* `Settings.edits`, `lifecycleEdits` — the edits that the statements make

## Main results

* `Settings.forall₂_performs`, `Style.forall₂_lifecycle_performs` — each statement makes one of
  these edits
-/

namespace BeanScript

/-- The edit that restores a list of names, if there is a name. -/
def namesEdit? (edit : List String → Edit) : Option (List String) → Option Edit
  | none | some [] => none
  | some names => some (edit names)

/-- The edits that restore flags, scope, dependencies and role. -/
def Settings.edits (s : Settings) : List Edit :=
  List.reduceOption
    [ if s.primary then some (.setPrimary true) else none,
      if s.fallback then some (.setFallback true) else none,
      if s.scope = "" ∨ s.scope = singletonScope then none else some (.setScope s.scope),
      namesEdit? .setDependsOn s.dependsOn,
      s.lazyInit.map .setLazyInit,
      if s.autowireCandidate then none else some (.setAutowireCandidate false),
      if s.defaultCandidate then none else some (.setDefaultCandidate false),
      if s.synthetic then some (.setSynthetic true) else none,
      if s.role = .application then none else some (.setRole s.role) ]

/-- The edit that restores lifecycle methods. -/
def lifecycleEdits (edit : List String → Edit) (names : Option (List String)) : List Edit :=
  (namesEdit? edit names).toList

variable {call : StaticCalls}

theorem yieldArgs_singleton {e : Expr} {d : Datum}
    (h : e.Yields Machine.Grows call (.ok d)) : YieldArgs Machine.Grows call [e] (.ok [d]) :=
  YieldArgs.cons h .nil

theorem yieldArgs_strings (names : List String) :
    YieldArgs Machine.Grows call (names.map .string)
      (.ok (names.map fun s => .value (.string s))) := by
  have hdata : names.mapM (fun s => (.ok (.value (.string s)) : Except Fault Datum))
      = .ok (names.map fun s => .value (.string s)) := mapM_ok _ names
  rw [← hdata]
  exact YieldArgs.of_forall₂ (List.forall₂_map_right_iff.mpr
    (List.forall₂_same.mpr fun _ _ => .literal))

/-- The expression of a role evaluates to its number. -/
theorem Role.yields_encode (r : Role) :
    r.encode.Yields Machine.Grows call (.ok (.value (.literal (.int r.code)))) := by
  rw [Role.encode]
  cases hconstant : r.constant? with
  | none => exact .literal
  | some constant =>
    have hfield : staticField Api.beanDefinition constant
        = .ok (.value (.literal (.int r.code))) := by
      rw [staticField, if_pos rfl, Role.ofConstant?_eq_some_iff.mpr hconstant]
    rw [← hfield]
    exact .staticField

theorem Block.Performs.of_edits {receiver : String} {block : Block} {edits : List Edit}
    (h : List.Forall₂ (fun (s : Stmt) e => s.Performs call receiver (.ok [e])) block edits) :
    Block.Performs call receiver block (.ok edits) := by
  have hedits : edits.mapM (fun e => (.ok e : Except Fault Edit)) = .ok edits := by
    rw [mapM_ok, List.map_id']
  rw [← hedits]
  exact .of_forall₂ (forall₂_flip_of_mem h fun _ _ _ _ hs => hs)

theorem rel_ite {α : Type u} {β : Type v} {P : α → β → Prop} {c : Prop} [Decidable c]
    {x y : Option α} {x' y' : Option β} (h : c → Option.Rel P x x') (h' : ¬ c → Option.Rel P y y') :
    Option.Rel P (if c then x else y) (if c then x' else y') := by
  split
  · next hc => exact h hc
  · next hc => exact h' hc

/-- Each statement for settings makes the edit that restores one of them. -/
theorem Settings.forall₂_performs (style : Style) (s : Settings) :
    List.Forall₂ (fun (stmt : Stmt) e => stmt.Performs call style.receiver (.ok [e]))
      (s.statements style) s.edits := by
  have hbool : ∀ b : Bool, YieldArgs Machine.Grows call [.bool b]
      (.ok [.value (.literal (.bool b))]) := fun b => yieldArgs_singleton .literal
  refine List.rel_filterMap (R := Option.Rel _) (fun _ _ h => h) ?_
  refine .cons ?_ (.cons ?_ (.cons ?_ (.cons ?_ (.cons ?_ (.cons ?_ (.cons ?_ (.cons ?_
    (.cons ?_ .nil))))))))
  · exact rel_ite (fun _ => .some (.setter_ok .setPrimary (hbool true) rfl)) fun _ => .none
  · exact rel_ite (fun _ => .some (.setter_ok .setFallback (hbool true) rfl)) fun _ => .none
  · exact rel_ite (fun _ => .none) fun _ =>
      .some (.setter_ok .setScope (yieldArgs_singleton .literal) rfl)
  · cases s.dependsOn with
    | none => exact .none
    | some names =>
      cases names with
      | nil => exact .none
      | cons name names =>
        refine .some (.setter_ok .setDependsOn (yieldArgs_strings (name :: names)) ?_)
        simp only [Api.DefinitionMethod.edit?, Arguments.all_string]
        rfl
  · cases s.lazyInit with
    | none => exact .none
    | some b => exact .some (.setter_ok .setLazyInit (hbool b) rfl)
  · exact rel_ite (fun _ => .none) fun _ =>
      .some (.setter_ok .setAutowireCandidate (hbool false) rfl)
  · exact rel_ite (fun _ => .none) fun _ =>
      .some (.setter_ok .setDefaultCandidate (hbool false) rfl)
  · exact rel_ite (fun _ => .some (.setter_ok .setSynthetic (hbool true) rfl)) fun _ => .none
  · exact rel_ite (fun _ => .none) fun _ =>
      .some (.setter_ok .setRole (yieldArgs_singleton s.role.yields_encode) rfl)

/-- The statements for settings make the edits that restore them. -/
theorem Settings.performs (style : Style) (s : Settings) :
    Block.Performs call style.receiver (s.statements style) (.ok s.edits) :=
  .of_edits (s.forall₂_performs style)

section Lifecycle

variable (style : Style) (one several : Api.DefinitionMethod) (edit : List String → Edit)
  (hone : ∀ s, one.edit? { method := one.name, data := [.value (.string s)] }
    = some (.ok (edit [s])))
  (hseveral : ∀ names, several.edit?
      { method := several.name, data := names.map fun s => .value (.string s) }
    = some (.ok (edit names)))
  (names : Option (List String))

include hone hseveral

/-- A lifecycle statement makes the edit that restores the methods, by either setter. -/
theorem Style.forall₂_lifecycle_performs :
    List.Forall₂ (fun (stmt : Stmt) e => stmt.Performs call style.receiver (.ok [e]))
      (style.lifecycle one several names) (lifecycleEdits edit names) := by
  rcases names with _ | _ | ⟨name, _ | ⟨name', names⟩⟩
  · exact .nil
  · exact .nil
  · refine .cons ?_ .nil
    by_cases hsingular : style.singularLifecycle
    · rw [if_pos hsingular]
      exact .setter_ok one (yieldArgs_strings [name]) (hone name)
    · rw [if_neg hsingular]
      exact .setter_ok several (yieldArgs_strings [name]) (hseveral [name])
  · exact .cons (.setter_ok several (yieldArgs_strings _) (hseveral _)) .nil

end Lifecycle

/-- The statement for initialization methods makes the edit that restores them. -/
theorem Style.forall₂_init_performs (style : Style) (names : Option (List String)) :
    List.Forall₂ (fun (stmt : Stmt) e => stmt.Performs call style.receiver (.ok [e]))
      (style.lifecycle .setInitMethodName .setInitMethodNames names)
      (lifecycleEdits .setInitMethods names) :=
  style.forall₂_lifecycle_performs _ _ _ (fun _ => rfl) (fun names => by
    simp only [Api.DefinitionMethod.edit?, Arguments.all_string]
    rfl) names

/-- The statement for destruction methods makes the edit that restores them. -/
theorem Style.forall₂_destroy_performs (style : Style) (names : Option (List String)) :
    List.Forall₂ (fun (stmt : Stmt) e => stmt.Performs call style.receiver (.ok [e]))
      (style.lifecycle .setDestroyMethodName .setDestroyMethodNames names)
      (lifecycleEdits .setDestroyMethods names) :=
  style.forall₂_lifecycle_performs _ _ _ (fun _ => rfl) (fun names => by
    simp only [Api.DefinitionMethod.edit?, Arguments.all_string]
    rfl) names

end BeanScript
