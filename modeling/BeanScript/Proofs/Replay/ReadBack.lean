import BeanScript.Proofs.Replay.Parts

/-!
# What is read back

Reading values back can fail in few ways: a static field of the interface of bean definitions names
no role, or a nested definition cannot be rebuilt. So a result is there exactly under a condition,
and otherwise it is one of the faults that are known beforehand.

## Main definitions

* `ReadsBack` — a result that is there under a condition, and otherwise one of certain faults
* `Value.isUnknownRole`, `Part.isReadBack` — the first way to fail

## Main results

* `Value.readsBack`, `Part.readsBack` — when values and parts are read back
-/

namespace BeanScript

/-- An enum constant of the interface of bean definitions that names no role. -/
def Value.isUnknownRole : Value → Bool
  | .atom (.enumConstant owner name) =>
    owner == Api.beanDefinition && (Role.ofConstant? name).isNone
  | _ => false

theorem Value.not_isUnknownRole_of_isPlain (v : Value) (h : v.isPlain) : !v.isUnknownRole := by
  have hrole := not_isRoleConstant_of_isPlain v h
  unfold isUnknownRole
  split
  · next owner name =>
    have howner : ¬ owner = Api.beanDefinition := by simpa [isRoleConstant] using hrole
    simp [howner]
  · rfl

/-- The result is there exactly under the condition, and is one of the faults `E` otherwise. -/
def ReadsBack (E : Fault → Prop) (P : Prop) (r : Except Fault α) : Prop :=
  (P ∧ ∃ a, r = .ok a) ∨ (¬ P ∧ ∃ e, E e ∧ r = .error e)

namespace ReadsBack

variable {α β : Type} {E : Fault → Prop} {P Q : Prop} {r : Except Fault α}

theorem congr (h : ReadsBack E P r) (hPQ : P ↔ Q) : ReadsBack E Q r :=
  propext hPQ ▸ h

theorem map (h : ReadsBack E P r) (f : α → β) : ReadsBack E P (r.map f) := by
  rcases h with ⟨hP, a, rfl⟩ | ⟨hP, e, he, rfl⟩
  · exact .inl ⟨hP, f a, rfl⟩
  · exact .inr ⟨hP, e, he, rfl⟩

theorem bind {f : α → Except Fault β} (h : ReadsBack E P r) (hf : ∀ a, ReadsBack E Q (f a)) :
    ReadsBack E (P ∧ Q) (r >>= f) := by
  rcases h with ⟨hP, a, rfl⟩ | ⟨hP, e, he, rfl⟩
  · rcases hf a with ⟨hQ, b, hb⟩ | ⟨hQ, e, he, hfault⟩
    · exact .inl ⟨⟨hP, hQ⟩, b, hb⟩
    · exact .inr ⟨fun h => hQ h.2, e, he, hfault⟩
  · exact .inr ⟨fun h => hP h.1, e, he, rfl⟩

/-- A list is read back when each of its elements is. -/
theorem mapM {P : α → Prop} {f : α → Except Fault β} {xs : List α}
    (h : ∀ x ∈ xs, ReadsBack E (P x) (f x)) : ReadsBack E (∀ x ∈ xs, P x) (xs.mapM f) := by
  induction xs with
  | nil => exact .inl ⟨List.forall_mem_nil _, [], rfl⟩
  | cons x xs ih =>
    rw [List.forall_mem_cons] at h
    simp only [mapM_cons_eq, List.forall_mem_cons]
    exact h.1.bind fun y => (ih h.2).map (y :: ·)

theorem ne_error (h : ReadsBack E P r) {e : Fault} (he : ¬ E e) : r ≠ .error e := by
  rcases h with ⟨-, a, rfl⟩ | ⟨-, e', he', rfl⟩
  · exact fun h => by cases h
  · intro h
    cases h
    exact he he'

end ReadsBack

variable {E : Fault → Prop} {Q : Definition → Prop} {bean : Definition → Except Fault Value}
  {keep : KeyFilter}

/-- An atom is read back when it names no unknown role. -/
theorem Atom.readsBack {a : Atom}
    (hrole : ((Value.atom a).every keep fun w => !w.isUnknownRole) ∨
      ∀ owner name, E (.unknownStaticField owner name)) :
    ReadsBack E ((Value.atom a).every keep fun w => !w.isUnknownRole) a.replay := by
  cases a with
  | enumConstant owner name =>
    rw [Atom.replay, Value.every_atom, Value.isUnknownRole]
    by_cases howner : owner = Api.beanDefinition
    · rw [if_pos howner, howner]
      cases hname : Role.ofConstant? name with
      | some role => exact .inl ⟨by simp, _, rfl⟩
      | none =>
        have hfault : E (.unknownStaticField Api.beanDefinition.text name) := by
          rcases hrole with hrole | hrole
          · simp [Value.isUnknownRole, howner, hname] at hrole
          · exact hrole _ _
        exact .inr ⟨by simp, _, hfault, rfl⟩
    · rw [if_neg howner]
      exact .inl ⟨by simp [howner], _, rfl⟩
  | _ => exact .inl ⟨rfl, _, rfl⟩

/-- Values are read back when they name no unknown role and the definitions nested in them can be
rebuilt. -/
theorem Value.readsBack {v : Value}
    (hrole : (v.every keep fun w => !w.isUnknownRole) ∨
      ∀ owner name, E (.unknownStaticField owner name))
    (hbean : ∀ b ∈ v.beans, b.every keep (fun w => !w.isUnknownRole) ∧ ReadsBack E (Q b) (bean b)) :
    ReadsBack E ((v.every keep fun w => !w.isUnknownRole) ∧ ∀ b ∈ v.beans, Q b)
      (v.replay bean) := by
  have helements : ∀ {vs : List Value},
      (∀ v ∈ vs, ReadsBack E ((v.every keep fun w => !w.isUnknownRole) ∧ ∀ b ∈ v.beans, Q b)
        (v.replay bean)) →
      ReadsBack E ((∀ v ∈ vs, v.every keep fun w => !w.isUnknownRole) ∧
        ∀ b ∈ vs.flatMap beans, Q b) (vs.mapM (replay bean)) := by
    intro vs h
    refine (ReadsBack.mapM h).congr ?_
    simp only [List.forall_mem_flatMap, forall_and]
  induction v with
  | atom a =>
    rw [beans_atom, replay_atom]
    exact (Atom.readsBack hrole).congr (by simp)
  | array c vs ih =>
    rw [beans_array] at hbean ⊢
    rw [replay_array]
    refine ((helements fun v hv => ih v hv ?_ ?_).map _).congr ?_
    · exact hrole.imp_left fun h => (every_array.mp h).2 v hv
    · exact fun b hb => hbean b (List.mem_flatMap.mpr ⟨v, hv, hb⟩)
    · rw [every_array, and_iff_right (show (!(Value.array c vs).isUnknownRole) = true from rfl)]
  | list k vs ih =>
    rw [beans_list] at hbean ⊢
    rw [replay_list]
    refine ((helements fun v hv => ih v hv ?_ ?_).map _).congr ?_
    · exact hrole.imp_left fun h => (every_list.mp h).2 v hv
    · exact fun b hb => hbean b (List.mem_flatMap.mpr ⟨v, hv, hb⟩)
    · rw [every_list, and_iff_right (show (!(Value.list k vs).isUnknownRole) = true from rfl)]
  | set k vs ih =>
    rw [beans_set] at hbean ⊢
    rw [replay_set]
    refine ((helements fun v hv => ih v hv ?_ ?_).map _).congr ?_
    · exact hrole.imp_left fun h => (every_set.mp h).2 v hv
    · exact fun b hb => hbean b (List.mem_flatMap.mpr ⟨v, hv, hb⟩)
    · rw [every_set, and_iff_right (show (!(Value.set k vs).isUnknownRole) = true from rfl)]
  | map k es ih =>
    rw [beans_map] at hbean ⊢
    rw [replay_map]
    have hentry : ∀ e ∈ es, ReadsBack E
        (((e.1.every keep fun w => !w.isUnknownRole) ∧ ∀ b ∈ e.1.beans, Q b) ∧
          (e.2.every keep fun w => !w.isUnknownRole) ∧ ∀ b ∈ e.2.beans, Q b)
        (replayEntry bean e) := by
      intro e he
      have hmem : ∀ b ∈ e.1.beans ++ e.2.beans, _ := fun b hb =>
        hbean b (List.mem_flatMap.mpr ⟨e, he, hb⟩)
      have hkey := (ih e he).1 (hrole.imp_left fun h => ((every_map.mp h).2 e he).1)
        fun b hb => hmem b (List.mem_append_left _ hb)
      have hvalue := (ih e he).2 (hrole.imp_left fun h => ((every_map.mp h).2 e he).2)
        fun b hb => hmem b (List.mem_append_right _ hb)
      exact hkey.bind fun k => hvalue.map (k, ·)
    refine ((ReadsBack.mapM hentry).map _).congr ?_
    rw [every_map, and_iff_right (show (!(Value.map k es).isUnknownRole) = true from rfl)]
    simp only [List.forall_mem_flatMap, List.forall_mem_append, forall_and]
    exact and_and_and_comm
  | bean d =>
    obtain ⟨hd, hback⟩ := hbean d (List.mem_singleton_self d)
    refine hback.congr ?_
    rw [every_bean, beans_bean, List.forall_mem_singleton]
    exact (and_iff_right ⟨rfl, hd⟩).symm

/-- None of the values names an unknown role. -/
def Part.isReadBack (keep : KeyFilter) (p : Part) : Bool :=
  p.values.all fun e => e.2.every keep fun w => !w.isUnknownRole

/-- Parts are read back when their values are. -/
theorem Part.readsBack {p : Part}
    (hrole : p.isReadBack keep ∨ ∀ owner name, E (.unknownStaticField owner name))
    (hbean : ∀ e ∈ p.values, ∀ b ∈ e.2.beans,
      b.every keep (fun w => !w.isUnknownRole) ∧ ReadsBack E (Q b) (bean b)) :
    ReadsBack E (p.isReadBack keep ∧ ∀ e ∈ p.values, ∀ b ∈ e.2.beans, Q b) (p.replay bean) := by
  have hvalue : ∀ e ∈ p.values, ReadsBack E
      ((e.2.every keep fun w => !w.isUnknownRole) ∧ ∀ b ∈ e.2.beans, Q b) (e.2.replay bean) :=
    fun e he => Value.readsBack
      (hrole.imp_left fun h => List.all_eq_true.mp h e he) (hbean e he)
  have hsingle : ∀ {name : String} {v : Value}, p.values = [(name, v)] →
      ReadsBack E (p.isReadBack keep ∧ ∀ e ∈ p.values, ∀ b ∈ e.2.beans, Q b)
        (v.replay bean) := by
    intro name v hvalues
    refine (hvalue (name, v) (by rw [hvalues]; exact List.mem_singleton_self _)).congr ?_
    rw [isReadBack, hvalues, List.all_cons, List.all_nil, Bool.and_true,
      List.forall_mem_singleton]
  cases p with
  | indexed index argument => exact (hsingle rfl).map _
  | generic number argument => exact (hsingle rfl).map _
  | property name v => exact (hsingle rfl).map _
  | metadata key v => exact (hsingle rfl).map _
  | qualifier q =>
    refine (((ReadsBack.mapM fun e he => (hvalue e he).map (e.1, ·)).map _).map _).congr ?_
    rw [isReadBack, List.all_eq_true]
    exact forall₂_and

end BeanScript
