import BeanScript.Proofs.Replay.Plain

/-!
# No statement is redundant

The *extent* of a definition counts what distinguishes it from a fresh one: the settings that do not
have their default value, the arguments, properties, attributes and qualifiers. One edit adds at
most one thing, and equal definitions have the same extent. The script of a plain definition has as
many statements as the extent of what it leads to. So it is a shortest one: whatever edits lead to
an equal definition are no fewer. In particular a script leads to another definition when any one of
its statements is left out.

## Main definitions

* `Settings.extent`, `Definition.extent`

## Main results

* `Definition.extent_applyAll_le` — edits add no more than there are edits
* `Definition.length_scriptEdits_le` — a script is a shortest one
* `Generator.script_irredundant` — every statement is needed
-/

namespace BeanScript

/-! ### Extent -/

/-- The number of settings, besides types, that do not have their default value. -/
def Settings.extent (s : Settings) : Nat :=
  s.primary.toNat + s.fallback.toNat + (s.scope != "").toNat + s.dependsOn.isSome.toNat +
    s.lazyInit.isSome.toNat + (!s.autowireCandidate).toNat + (!s.defaultCandidate).toNat +
    s.synthetic.toNat + (s.role != .application).toNat + s.initMethods.isSome.toNat +
    s.destroyMethods.isSome.toNat

theorem Table.length_put_le {κ : Type u} {ν : Type v} [BEq κ] (t : Table κ ν) (key : κ)
    (value : ν) : (put t key value).length ≤ t.length + 1 := by
  induction t with
  | nil => exact Nat.le_refl 1
  | cons e t ih =>
    obtain ⟨k, v⟩ := e
    rw [put_cons]
    split
    · exact Nat.le_succ _
    · exact Nat.succ_le_succ ih

theorem Table.length_remove_le {κ : Type u} {ν : Type v} [BEq κ] (t : Table κ ν) (key : κ) :
    (remove t key).length ≤ t.length := by
  induction t with
  | nil => exact Nat.le_refl 0
  | cons e t ih =>
    obtain ⟨k, v⟩ := e
    rw [remove]
    split
    · exact Nat.le_succ _
    · exact Nat.succ_le_succ ih

theorem Ascending.length_put_le {α : Type u} {κ : Type v} [LT κ] [DecidableLT κ] (key : α → κ)
    (x : α) (l : List α) : (put key x l).length ≤ l.length + 1 := by
  induction l with
  | nil => exact Nat.le_refl 1
  | cons y l ih =>
    rw [put]
    split
    · exact Nat.le_refl _
    · split
      · exact Nat.succ_le_succ ih
      · exact Nat.le_succ _

theorem Distinct.length_add_le {α : Type u} (same : α → α → Bool) (l : List α) (x : α) :
    (add same l x).length ≤ l.length + 1 := by
  rw [add]
  split
  · exact Nat.le_succ _
  · rw [List.length_append, List.length_singleton]

namespace Definition

/-- The number of things that distinguish the definition from a fresh one, besides its types. -/
def extent (d : Definition) : Nat :=
  d.settings.extent + d.indexed.length + d.generic.length + d.properties.length +
    d.attributes.length + d.qualifiers.length

/-- One edit adds at most one thing. -/
theorem extent_apply_le (d : Definition) (e : Edit) : (d.apply e).extent ≤ d.extent + 1 := by
  have hbool : ∀ b : Bool, b.toNat ≤ 1 := Bool.toNat_le
  cases e with
  | setPrimary b | setFallback b | setSynthetic b =>
    have := hbool b
    simp only [apply, extent, Settings.extent]
    omega
  | setAutowireCandidate b | setDefaultCandidate b =>
    have := hbool !b
    simp only [apply, extent, Settings.extent]
    omega
  | setScope scope =>
    have := hbool (scope != "")
    simp only [apply, extent, Settings.extent]
    omega
  | setRole role =>
    have := hbool (role != .application)
    simp only [apply, extent, Settings.extent]
    omega
  | setDependsOn | setLazyInit | setInitMethods | setDestroyMethods =>
    simp only [apply, extent, Settings.extent, Option.isSome_some, Bool.toNat_true]
    omega
  | setTargetType | setBeanClass => exact Nat.le_succ _
  | addIndexed index h =>
    have := Ascending.length_put_le Prod.fst (index, h) d.indexed
    simp only [apply, extent]
    omega
  | addGeneric h =>
    have := Distinct.length_add_le (· == ·) d.generic h
    simp only [apply, extent]
    omega
  | addProperty name v =>
    have := Table.length_put_le d.properties name v
    simp only [apply, extent]
    omega
  | removeProperty name =>
    have := Table.length_remove_le d.properties name
    simp only [apply, extent]
    omega
  | setAttribute key v =>
    have := Table.length_put_le d.attributes key v
    simp only [apply, extent]
    omega
  | removeAttribute key =>
    have := Table.length_remove_le d.attributes key
    simp only [apply, extent]
    omega
  | addQualifier q =>
    have := Table.length_put_le d.qualifiers q.typeName q.attributes
    simp only [apply, extent]
    omega

/-- Edits add no more things than there are edits. -/
theorem extent_applyAll_le (d : Definition) (es : List Edit) :
    (d.applyAll es).extent ≤ d.extent + es.length := by
  induction es generalizing d with
  | nil => exact Nat.le_refl _
  | cons e es ih =>
    have htail := ih (d.apply e)
    have hhead := d.extent_apply_le e
    rw [applyAll, List.foldl_cons, ← applyAll, List.length_cons]
    omega

/-- Equal definitions have the same extent. -/
theorem extent_eq_of_beq {d e : Definition} (h : d == e) : d.extent = e.extent := by
  have hrelated := beq_iff.mp h
  rw [extent, extent, hrelated.settings, hrelated.indexed.length_eq, hrelated.generic.length_eq,
    hrelated.properties.1, hrelated.attributes.1, hrelated.qualifiers.1]

end Definition

/-! ### The length of a script -/

theorem length_reduceOption_cons {α : Type u} (o : Option α) (os : List (Option α)) :
    (o :: os).reduceOption.length = o.isSome.toNat + os.reduceOption.length := by
  cases o with
  | none => exact (Nat.zero_add _).symm
  | some a => exact Nat.add_comm _ _

theorem isSome_namesEdit? (edit : List String → Edit) (names : Option (List String)) :
    (namesEdit? edit names).isSome = (normalNames names).isSome := by
  rcases names with _ | _ | ⟨name, names⟩ <;> rfl

theorem length_lifecycleEdits (edit : List String → Edit) (names : Option (List String)) :
    (lifecycleEdits edit names).length = (normalNames names).isSome.toNat := by
  rw [lifecycleEdits, ← isSome_namesEdit? edit]
  cases namesEdit? edit names <;> rfl

/-- There is one edit for each setting that does not have its default value. -/
theorem Settings.extent_normal (s : Settings) :
    s.normal.extent = s.edits.length + (lifecycleEdits .setInitMethods s.initMethods).length +
      (lifecycleEdits .setDestroyMethods s.destroyMethods).length := by
  have hset : ∀ (b : Bool) (e : Edit), (if b then some e else none).isSome = b := by
    intro b e
    cases b <;> rfl
  have hreset : ∀ (b : Bool) (e : Edit), (if b then none else some e).isSome = !b := by
    intro b e
    cases b <;> rfl
  have hscope : (if s.scope = "" ∨ s.scope = singletonScope then none
      else some (Edit.setScope s.scope)).isSome = (s.normal.scope != "") := by
    by_cases hsingleton : s.scope = singletonScope
    · simp [normal, hsingleton]
    · by_cases hempty : s.scope = "" <;> simp [normal, hsingleton, hempty]
  have hrole : (if s.role = .application then none else some (Edit.setRole s.role)).isSome
      = (s.role != .application) := by
    by_cases happlication : s.role = .application <;> simp [happlication]
  simp only [edits, length_reduceOption_cons, List.reduceOption_nil, List.length_nil, hset, hreset,
    hscope, hrole, isSome_namesEdit?, Option.isSome_map, length_lifecycleEdits]
  rw [extent]
  simp only [normal]
  omega

namespace Definition

variable {keep : KeyFilter} {d : Definition}

/-- A script has as many edits as what it leads to has things of its own. -/
theorem extent_scripted (keep : KeyFilter) (d : Definition) :
    (d.scripted keep).extent = (d.scriptEdits keep).length := by
  have hsettings : (d.scripted keep).settings.extent = d.settings.normal.extent := rfl
  rw [extent, hsettings, Settings.extent_normal]
  simp only [scripted, scriptEdits, parts, qualifierList, List.length_append, List.length_map,
    List.length_zipIdx]
  omega

/-- A script is a shortest one: edits that lead to an equal definition are no fewer. -/
theorem length_scriptEdits_le {es : List Edit}
    (h : ({} : Definition).applyAll es == d.scripted keep) :
    (d.scriptEdits keep).length ≤ es.length := by
  have hle := extent_applyAll_le {} es
  have hfresh : ({} : Definition).extent = 0 := rfl
  rw [extent_eq_of_beq h, extent_scripted] at hle
  omega

end Definition

/-! ### Leaving out a statement -/

theorem forall₂_eraseIdx {α : Type u} {β : Type v} {R : α → β → Prop} {xs : List α} {ys : List β}
    (h : List.Forall₂ R xs ys) (i : Nat) : List.Forall₂ R (xs.eraseIdx i) (ys.eraseIdx i) := by
  rw [List.eraseIdx_eq_take_drop_succ, List.eraseIdx_eq_take_drop_succ]
  exact List.rel_append (List.forall₂_take i h) (List.forall₂_drop (i + 1) h)

namespace Generator

variable {g : Generator} {d : Definition}

/-- Every statement of the script of a plain definition is needed: without it the script runs as
well, and leads to another definition. -/
theorem script_irredundant (hd : d.Plain g.keep)
    (hreceiver : g.style.receiver ≠ Script.Context.qualifierLocal) {s : Script}
    (h : (g.script d).1 = .ok s) (methods : Methods) :
    ∃ e, execute methods s.statements g.style.receiver = .ok e ∧
      ∀ i < s.statements.length, ∃ e',
        execute methods (s.statements.eraseIdx i) g.style.receiver = .ok e' ∧ ¬ e' == e := by
  have hperforms := forall₂_performs hd hreceiver h methods
  refine ⟨_, execute_script hd hreceiver h methods, fun i hi => ?_⟩
  refine ⟨_, execute_of_forall₂ (forall₂_eraseIdx hperforms i), fun heq => ?_⟩
  have hshortest := Definition.length_scriptEdits_le heq
  rw [hperforms.length_eq] at hi
  rw [List.length_eraseIdx_of_lt hi] at hshortest
  omega

/-- Seven statements, and a scope, init methods and an attribute without one. -/
theorem script_irredundant_service :
    let g : Generator := { keep := fun key => key != "skip" }
    let d : Definition :=
      { settings :=
          { scope := "singleton", primary := true, initMethods := some [],
            destroyMethods := some ["close"] }
        indexed := [(0, { value := .string "x" })]
        generic := [{ value := .null }]
        properties := [("name", .null)]
        attributes := [("order", .null), ("skip", .null)]
        qualifiers := [("Q", [("format", .null), ("value", .string "main")])] }
    ∃ s e, (g.script d).1 = .ok s ∧ s.statements.length = 7 ∧
      execute [] s.statements "beanDefinition" = .ok e ∧
      ∀ i < 7, ∃ e', execute [] (s.statements.eraseIdx i) "beanDefinition" = .ok e' ∧
        ¬ e' == e := by
  intro g d
  have hd : d.Plain g.keep := ⟨by decide, rfl, by decide⟩
  obtain ⟨s, hs, hlength⟩ : ∃ s, (g.script d).1 = .ok s ∧ s.statements.length = 7 :=
    ⟨_, rfl, rfl⟩
  obtain ⟨e, he, hneeded⟩ := script_irredundant hd (by decide) hs []
  exact ⟨s, e, hs, hlength, he, hlength ▸ hneeded⟩

end Generator

end BeanScript
