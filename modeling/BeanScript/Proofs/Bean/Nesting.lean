import BeanScript.Proofs.Bean.Equivalence

/-!
# Nested definitions

The definitions nested in a value are found by going through collections, down to a definition but
not into it. Going on inside the definitions found leads deeper, one level at a time, and it ends:
every definition nests within some number of levels.

## Main definitions

* `Value.beans`, `Definition.beans` — the definitions nested directly, in the order of a scan
* `Definition.nestsWithin`, `Definition.nestsBelow` — definitions are nested at most so many levels
  deep, less than so many

## Main results

* `Definition.exists_nestsWithin` — nesting ends
* `Definition.Equiv.nestsWithin` — equal definitions nest equally deep
-/

namespace BeanScript

mutual

/-- The definitions nested in a value, without those nested in them. -/
def Value.beans : Value → List Definition
  | .atom _ => []
  | .array _ vs => beansOfElements vs
  | .list _ vs => beansOfElements vs
  | .set _ vs => beansOfElements vs
  | .map _ es => beansOfEntries es
  | .bean d => [d]
termination_by structural v => v

/-- The definitions nested in values. -/
def beansOfElements : List Value → List Definition
  | [] => []
  | v :: vs => v.beans ++ beansOfElements vs
termination_by structural vs => vs

/-- The definitions nested in keys and values of a map. -/
def beansOfEntries : List (Value × Value) → List Definition
  | [] => []
  | (key, v) :: es => key.beans ++ v.beans ++ beansOfEntries es
termination_by structural es => es

end

theorem beansOfElements_eq {vs : List Value} : beansOfElements vs = vs.flatMap Value.beans := by
  induction vs <;> simp [beansOfElements, *]

theorem beansOfEntries_eq {es : List (Value × Value)} :
    beansOfEntries es = es.flatMap fun e => e.1.beans ++ e.2.beans := by
  induction es <;> simp [beansOfEntries, *]

namespace Value

@[simp] theorem beans_atom {a : Atom} : (Value.atom a).beans = [] := rfl

@[simp] theorem beans_array {c : ClassName} {vs : List Value} :
    (Value.array c vs).beans = vs.flatMap beans := beansOfElements_eq

@[simp] theorem beans_list {k : Kind} {vs : List Value} :
    (Value.list k vs).beans = vs.flatMap beans := beansOfElements_eq

@[simp] theorem beans_set {k : Kind} {vs : List Value} :
    (Value.set k vs).beans = vs.flatMap beans := beansOfElements_eq

@[simp] theorem beans_map {k : Kind} {es : List (Value × Value)} :
    (Value.map k es).beans = es.flatMap fun e => e.1.beans ++ e.2.beans := beansOfEntries_eq

@[simp] theorem beans_bean {d : Definition} : (Value.bean d).beans = [d] := rfl

theorem sizeOf_lt_of_mem_beans {v : Value} {b : Definition} (h : b ∈ v.beans) :
    sizeOf b < sizeOf v := by
  have hmem : ∀ {vs : List Value}, (∀ v ∈ vs, b ∈ v.beans → sizeOf b < sizeOf v) →
      b ∈ vs.flatMap beans → sizeOf b < sizeOf vs := by
    intro vs ih hb
    obtain ⟨w, hw, hb⟩ := List.mem_flatMap.mp hb
    exact Nat.lt_trans (ih w hw hb) (List.sizeOf_lt_of_mem hw)
  induction v with
  | atom a => cases h
  | array c vs ih => have := hmem ih (beans_array ▸ h); simp; omega
  | list k vs ih => have := hmem ih (beans_list ▸ h); simp; omega
  | set k vs ih => have := hmem ih (beans_set ▸ h); simp; omega
  | map k es ih =>
    rw [beans_map] at h
    obtain ⟨⟨x, y⟩, he, hb⟩ := List.mem_flatMap.mp h
    have hsize := List.sizeOf_lt_of_mem he
    simp only [Prod.mk.sizeOf_spec] at hsize
    rcases List.mem_append.mp hb with hb | hb
    · have hlt : sizeOf b < sizeOf x := (ih _ he).1 hb
      simp
      omega
    · have hlt : sizeOf b < sizeOf y := (ih _ he).2 hb
      simp
      omega
  | bean d => obtain rfl := List.mem_singleton.mp h; simp

/-- A test of every value inside holds of the nested definitions. -/
theorem every_of_mem_beans {keep : KeyFilter} {p : Value → Bool} {v : Value} {b : Definition}
    (hv : v.every keep p) (h : b ∈ v.beans) : (Value.bean b).every keep p := by
  induction v with
  | atom a => cases h
  | array c vs ih =>
    rw [beans_array] at h
    obtain ⟨w, hw, hb⟩ := List.mem_flatMap.mp h
    exact ih w hw ((every_array.mp hv).2 w hw) hb
  | list k vs ih =>
    rw [beans_list] at h
    obtain ⟨w, hw, hb⟩ := List.mem_flatMap.mp h
    exact ih w hw ((every_list.mp hv).2 w hw) hb
  | set k vs ih =>
    rw [beans_set] at h
    obtain ⟨w, hw, hb⟩ := List.mem_flatMap.mp h
    exact ih w hw ((every_set.mp hv).2 w hw) hb
  | map k es ih =>
    rw [beans_map] at h
    obtain ⟨e, he, hb⟩ := List.mem_flatMap.mp h
    have hev := (every_map.mp hv).2 e he
    rcases List.mem_append.mp hb with hb | hb
    · exact (ih e he).1 hev.1 hb
    · exact (ih e he).2 hev.2 hb
  | bean d => obtain rfl := List.mem_singleton.mp h; exact hv

/-- Equal values nest equal definitions. -/
theorem Equiv.beans {v w : Value} (h : v.Equiv w) :
    List.Forall₂ Definition.Equiv v.beans w.beans := by
  obtain ⟨hv, hw, hvw⟩ := h
  induction v generalizing w with
  | atom a => obtain rfl := atom_beq.mp hvw; exact .nil
  | array c vs ih =>
    obtain ⟨ws, rfl, hs⟩ := array_beq.mp hvw
    rw [wellFormed_array] at hv hw
    rw [beans_array, beans_array]
    exact List.rel_flatMap (forall₂_imp_of_mem hs fun v hv' w hw' => ih v hv' (hv v hv') (hw w hw'))
      fun _ _ hvw => hvw
  | list k vs ih =>
    obtain ⟨ws, rfl, hs⟩ := list_beq.mp hvw
    rw [wellFormed_list] at hv hw
    rw [beans_list, beans_list]
    exact List.rel_flatMap (forall₂_imp_of_mem hs fun v hv' w hw' => ih v hv' (hv v hv') (hw w hw'))
      fun _ _ hvw => hvw
  | set k vs ih =>
    obtain ⟨ws, rfl, hs⟩ := set_beq.mp hvw
    rw [wellFormed_set] at hv hw
    rw [beans_set, beans_set]
    exact List.rel_flatMap
      (forall₂_imp_of_mem hs fun v hv' w hw' => ih v hv' (hv.2 v hv') (hw.2 w hw'))
      fun _ _ hvw => hvw
  | map k es ih =>
    obtain ⟨fs, rfl, hs⟩ := map_beq.mp hvw
    rw [wellFormed_map] at hv hw
    rw [beans_map, beans_map]
    refine List.rel_flatMap (forall₂_imp_of_mem hs fun e he f hf hef => ?_) fun _ _ hef => hef
    exact List.rel_append ((ih e he).1 (hv.2 e he).1 (hw.2 f hf).1 hef.1)
      ((ih e he).2 (hv.2 e he).2 (hw.2 f hf).2 hef.2)
  | bean d =>
    obtain ⟨e, rfl, hs⟩ := bean_beq.mp hvw
    exact .cons ⟨hv, hw, hvw⟩ .nil

end Value

namespace Definition

variable {keep : KeyFilter}

/-- The definitions nested in a definition, without those nested in them. -/
def beans (keep : KeyFilter) (d : Definition) : List Definition :=
  (d.held keep).flatMap fun e => e.2.beans

/-- Definitions are nested in the definition at most so many levels deep. -/
def nestsWithin (keep : KeyFilter) : Nat → Definition → Bool
  | 0, d => (d.beans keep).isEmpty
  | n + 1, d => (d.beans keep).all (nestsWithin keep n)

theorem mem_beans_iff {d b : Definition} :
    b ∈ d.beans keep ↔ ∃ v, d.Holds keep v ∧ b ∈ v.beans := by
  simp only [beans, Holds, List.mem_flatMap, List.mem_map]
  constructor
  · rintro ⟨e, he, hb⟩
    exact ⟨e.2, ⟨e, he, rfl⟩, hb⟩
  · rintro ⟨_, ⟨e, he, rfl⟩, hb⟩
    exact ⟨e, he, hb⟩

theorem sizeOf_lt_of_mem_beans {d b : Definition} (h : b ∈ d.beans keep) :
    sizeOf b < sizeOf d := by
  obtain ⟨v, hv, hb⟩ := mem_beans_iff.mp h
  exact Nat.lt_trans (Value.sizeOf_lt_of_mem_beans hb) hv.sizeOf_lt

theorem every_of_mem_beans {p : Value → Bool} {d b : Definition} (hd : d.every keep p)
    (h : b ∈ d.beans keep) : b.every keep p := by
  obtain ⟨v, hv, hb⟩ := mem_beans_iff.mp h
  exact (Value.every_bean.mp (Value.every_of_mem_beans (every_iff.mp hd v hv) hb)).2

theorem every_bean_of_mem_beans {p : Value → Bool} {d b : Definition}
    (hd : (Value.bean d).every keep p) (h : b ∈ d.beans keep) : (Value.bean b).every keep p := by
  obtain ⟨v, hv, hb⟩ := mem_beans_iff.mp h
  exact Value.every_of_mem_beans (every_iff.mp (Value.every_bean.mp hd).2 v hv) hb

theorem WellFormed.of_mem_beans {d b : Definition} (hd : d.WellFormed) (h : b ∈ d.beans keep) :
    b.WellFormed := by
  obtain ⟨v, hv, hb⟩ := mem_beans_iff.mp h
  exact Value.every_of_mem_beans (hd.of_holds hv) hb

/-- A definition nested in one of two equal definitions is equal to one nested in the other. -/
theorem Equiv.exists_mem_beans {d e : Definition} (h : d.Equiv e) {b : Definition}
    (hb : b ∈ d.beans keep) : ∃ c ∈ e.beans keep, b.Equiv c := by
  obtain ⟨v, hv, hb⟩ := mem_beans_iff.mp hb
  obtain ⟨w, hw, hvw⟩ := h.related.holds hv
  obtain ⟨c, hc, hbc⟩ := exists_of_forall₂ hvw.beans hb
  exact ⟨c, mem_beans_iff.mpr ⟨w, hw, hc⟩, hbc⟩

theorem nestsWithin_zero_iff {d : Definition} : d.nestsWithin keep 0 ↔ d.beans keep = [] :=
  List.isEmpty_iff

theorem nestsWithin_succ_iff {d : Definition} {n : Nat} :
    d.nestsWithin keep (n + 1) ↔ ∀ b ∈ d.beans keep, b.nestsWithin keep n :=
  List.all_eq_true

/-- Fewer levels are below the definition than so many. -/
def nestsBelow (keep : KeyFilter) : Nat → Definition → Prop
  | 0, _ => False
  | n + 1, d => d.nestsWithin keep n

/-- Counting the levels from the definitions nested directly. -/
theorem nestsWithin_iff {d : Definition} {n : Nat} :
    d.nestsWithin keep n ↔ ∀ b ∈ d.beans keep, b.nestsBelow keep n := by
  cases n with
  | zero =>
    rw [nestsWithin_zero_iff, List.eq_nil_iff_forall_not_mem]
    exact Iff.rfl
  | succ n => exact nestsWithin_succ_iff

/-- Nesting ends. -/
theorem exists_nestsWithin (keep : KeyFilter) (d : Definition) :
    ∃ n, d.nestsWithin keep n := by
  have hsize : ∀ n (d : Definition), sizeOf d ≤ n → d.nestsWithin keep n := by
    intro n
    induction n with
    | zero =>
      intro d hd
      cases d
      simp at hd
    | succ n ih =>
      intro d hd
      refine nestsWithin_succ_iff.mpr fun b hb => ih b ?_
      have := sizeOf_lt_of_mem_beans hb
      omega
  exact ⟨_, hsize _ d (Nat.le_refl _)⟩

/-- Equal definitions nest equally deep. -/
theorem Equiv.nestsWithin {d e : Definition} (h : d.Equiv e) {n : Nat} :
    d.nestsWithin keep n ↔ e.nestsWithin keep n := by
  -- one direction for all pairs of equal definitions, since the other follows by symmetry
  have himp : ∀ n (d e : Definition), d.Equiv e → d.nestsWithin keep n → e.nestsWithin keep n := by
    intro n
    induction n with
    | zero =>
      intro d e h hd
      rw [nestsWithin_zero_iff] at hd ⊢
      refine List.eq_nil_iff_forall_not_mem.mpr fun c hc => ?_
      obtain ⟨b, hb, -⟩ := h.symm.exists_mem_beans hc
      rw [hd] at hb
      cases hb
    | succ n ih =>
      intro d e h hd
      rw [nestsWithin_succ_iff] at hd ⊢
      intro c hc
      obtain ⟨b, hb, hcb⟩ := h.symm.exists_mem_beans hc
      exact ih b c hcb.symm (hd b hb)
  exact ⟨himp n d e h, himp n e d h.symm⟩

end Definition

end BeanScript
