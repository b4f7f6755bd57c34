import BeanScript.Proofs.Types.Hints
import Mathlib.Data.Set.Insert

/-!
# Hints as sets of registrations

Hints can be registered and merged in any order and in any grouping, and parts of them more than
once. What they are in the end is told by the set of the registrations that took part: for each
method they keep the strongest use in the set, and they are written down in the order of the
methods, which leaves no choice. Registering adds one element to the set, and merging is the union
of two sets, so the laws of merging are those of unions.

## Main definitions

* `Strongest` — a registration of a set that no other one of the same method goes beyond
* `Hints.Records` — the hints of a set of registrations
* `Collecting` — how hints come about, with the registrations that take part

## Main results

* `Hints.Records.unique` — a set of registrations has one sequence of hints
* `Hints.Records.add`, `Hints.Records.merge` — registering and merging
* `Collecting.hints_laws` — the laws of collecting
-/

namespace BeanScript

namespace HintMode

theorem covers_refl (mode : HintMode) : mode.covers mode := by
  cases mode <;> rfl

theorem covers_antisymm {m n : HintMode} (h : m.covers n) (h' : n.covers m) : m = n := by
  cases m <;> cases n <;> simp_all [covers]

theorem covers_trans {m n o : HintMode} (h : m.covers n) (h' : n.covers o) : m.covers o := by
  cases m <;> cases n <;> cases o <;> simp_all [covers]

theorem covers_of_not {m n : HintMode} (h : ¬ m.covers n) : n.covers m := by
  cases m <;> cases n <;> simp_all [covers]

end HintMode

/-- Two hints of a method that cover each other are the same. -/
theorem Hint.eq_of_covers {g h : Hint} (hkey : g.key = h.key) (hgh : g.mode.covers h.mode)
    (hhg : h.mode.covers g.mode) : g = h := by
  have hmode : g.mode = h.mode := HintMode.covers_antisymm hgh hhg
  cases g
  cases h
  simp_all

/-- The hint is in the set, and covers every hint there of the same method. -/
structure Strongest (s : Set Hint) (h : Hint) : Prop where
  mem : h ∈ s
  covers : ∀ g ∈ s, g.key = h.key → h.mode.covers g.mode

namespace Strongest

variable {s t : Set Hint} {g h : Hint}

/-- A method has one strongest hint. -/
theorem eq_of_key_eq (hg : Strongest s g) (hh : Strongest s h) (hkey : g.key = h.key) : g = h :=
  Hint.eq_of_covers hkey (hg.covers h hh.mem hkey.symm) (hh.covers g hg.mem hkey)

/-- A hint that allows calls is as strong as can be. -/
theorem of_invoke (hh : h ∈ s) (hmode : h.mode = .invoke) : Strongest s h :=
  ⟨hh, fun _ _ _ => by rw [hmode]; rfl⟩

/-- Every hint of a set is covered by a strongest one. -/
theorem exists_covers (hh : h ∈ s) : ∃ g, Strongest s g ∧ g.key = h.key ∧ g.mode.covers h.mode := by
  by_cases hinvoke : (⟨h.key, .invoke⟩ : Hint) ∈ s
  · exact ⟨_, of_invoke hinvoke rfl, rfl, rfl⟩
  · refine ⟨h, ⟨hh, fun g hg hkey => ?_⟩, rfl, h.mode.covers_refl⟩
    -- neither of the two can allow calls
    obtain ⟨key, _ | _⟩ := g
    · cases h.mode <;> rfl
    · exact absurd (hkey ▸ hg) hinvoke

/-- In place of a set its strongest hints will do. -/
theorem union_iff : Strongest (s ∪ {x | Strongest t x}) h ↔ Strongest (s ∪ t) h := by
  constructor
  · rintro ⟨hmem, hcovers⟩
    refine ⟨hmem.imp_right Strongest.mem, fun g hg hkey => ?_⟩
    rcases hg with hg | hg
    · exact hcovers g (.inl hg) hkey
    · obtain ⟨x, hx, hxg, hcovered⟩ := exists_covers hg
      exact HintMode.covers_trans (hcovers x (.inr hx) (hxg.trans hkey)) hcovered
  · rintro ⟨hmem, hcovers⟩
    refine ⟨hmem.imp_right fun ht => ⟨ht, fun g hg => hcovers g (.inr hg)⟩, fun g hg => ?_⟩
    exact hcovers g (hg.imp_right Strongest.mem)

end Strongest

/-- Some hint of the set has the same method and allows at least as much. -/
def Covered (s : Set Hint) (h : Hint) : Prop :=
  ∃ g ∈ s, g.key = h.key ∧ g.mode.covers h.mode

namespace Strongest

variable {s : Set Hint} {g h : Hint}

/-- A hint that is covered already changes nothing. -/
theorem insert_iff_of_covered (hcovered : Covered s h) :
    Strongest (insert h s) g ↔ Strongest s g := by
  obtain ⟨x, hx, hkey, hmode⟩ := hcovered
  constructor
  · rintro ⟨rfl | hg, hcovers⟩
    · have hxg : x = g := Hint.eq_of_covers hkey hmode (hcovers x (.inr hx) hkey)
      exact ⟨hxg ▸ hx, fun y hy => hcovers y (.inr hy)⟩
    · exact ⟨hg, fun y hy => hcovers y (.inr hy)⟩
  · rintro ⟨hg, hcovers⟩
    refine ⟨.inr hg, ?_⟩
    rintro y (rfl | hy) hyg
    · exact HintMode.covers_trans (hcovers x hx (hkey.trans hyg)) hmode
    · exact hcovers y hy hyg

/-- A hint that is not covered becomes the strongest of its method. -/
theorem insert_iff_of_not_covered (hnew : ¬ Covered s h) :
    Strongest (insert h s) g ↔ g = h ∨ (Strongest s g ∧ g.key ≠ h.key) := by
  constructor
  · rintro ⟨rfl | hg, hcovers⟩
    · exact .inl rfl
    · refine .inr ⟨⟨hg, fun y hy => hcovers y (.inr hy)⟩, fun hkey => hnew ⟨g, hg, hkey, ?_⟩⟩
      exact hcovers h (.inl rfl) hkey.symm
  · rintro (rfl | ⟨⟨hg, hcovers⟩, hkey⟩)
    · refine ⟨.inl rfl, ?_⟩
      rintro y (rfl | hy) hyg
      · exact HintMode.covers_refl _
      · exact HintMode.covers_of_not fun hcovers => hnew ⟨y, hy, hyg, hcovers⟩
    · refine ⟨.inr hg, ?_⟩
      rintro y (rfl | hy) hyg
      · exact absurd hyg.symm hkey
      · exact hcovers y hy hyg

end Strongest

namespace Hints

/-- The hints of a set of registrations: in ascending order the strongest ones of the set. -/
structure Records (hints : Hints) (s : Set Hint) : Prop where
  ascending : hints.Pairwise fun h h' => h.texts < h'.texts
  mem_iff : ∀ h, h ∈ hints ↔ Strongest s h

namespace Records

variable {hints other : Hints} {s t : Set Hint} {h : Hint}

theorem empty : Records [] ∅ where
  ascending := .nil
  mem_iff h := by simpa using fun hh : Strongest ∅ h => hh.mem

/-- A set of registrations has one sequence of hints. -/
theorem unique (hs : Records hints s) (ho : Records other s) : hints = other :=
  Ascending.eq_of_mem_iff hs.ascending ho.ascending fun h =>
    (hs.mem_iff h).trans (ho.mem_iff h).symm

/-- What is recorded for a method is the strongest use registered for it. -/
theorem mode?_eq_some_iff (hs : Records hints s) {key : HintKey} {mode : HintMode} :
    hints.mode? key = some mode ↔ Strongest s ⟨key, mode⟩ := by
  rw [mode?, Option.map_eq_some_iff, ← hs.mem_iff]
  constructor
  · rintro ⟨h, hfind, rfl⟩
    have hkey : h.key = key := by simpa using List.find?_some hfind
    exact hkey ▸ List.mem_of_find?_eq_some hfind
  · intro hmem
    have hsome : (hints.find? (·.key == key)).isSome := List.find?_isSome.mpr ⟨_, hmem, by simp⟩
    obtain ⟨h, hfind⟩ := Option.isSome_iff_exists.mp hsome
    have hkey : h.key = key := by simpa using List.find?_some hfind
    have hstrongest := (hs.mem_iff h).mp (List.mem_of_find?_eq_some hfind)
    exact ⟨h, hfind, congrArg Hint.mode (hstrongest.eq_of_key_eq ((hs.mem_iff _).mp hmem) hkey)⟩

/-- Whether a hint is covered shows in what is recorded for its method. -/
theorem covered_iff (hs : Records hints s) :
    Covered s h ↔ ∃ mode, hints.mode? h.key = some mode ∧ mode.covers h.mode := by
  constructor
  · rintro ⟨g, hg, hkey, hmode⟩
    obtain ⟨⟨key, mode⟩, hx, rfl, hcovers⟩ := Strongest.exists_covers hg
    exact ⟨mode, hs.mode?_eq_some_iff.mpr (hkey ▸ hx), HintMode.covers_trans hcovers hmode⟩
  · rintro ⟨mode, hfound, hcovers⟩
    exact ⟨_, (hs.mode?_eq_some_iff.mp hfound).mem, rfl, hcovers⟩

/-- A hint that is covered leaves the hints as they are. -/
theorem add_of_covered (hs : Records hints s) (h : Hint) (hcovered : Covered s h) :
    hints.add h = hints := by
  obtain ⟨mode, hfound, hcovers⟩ := hs.covered_iff.mp hcovered
  rw [Hints.add, hfound]
  exact if_pos hcovers

/-- One that is not covered is put in its place. -/
theorem add_of_not_covered (hs : Records hints s) (h : Hint) (hnew : ¬ Covered s h) :
    hints.add h = Ascending.put Hint.texts h hints := by
  rw [Hints.add]
  split
  · next mode hfound =>
    exact if_neg fun hcovers => hnew (hs.covered_iff.mpr ⟨mode, hfound, hcovers⟩)
  · rfl

/-- Registering adds one registration to the set. -/
theorem add (hs : Records hints s) (h : Hint) : Records (hints.add h) (insert h s) := by
  by_cases hcovered : Covered s h
  · rw [hs.add_of_covered h hcovered]
    exact ⟨hs.ascending, fun g =>
      (hs.mem_iff g).trans (Strongest.insert_iff_of_covered hcovered).symm⟩
  · rw [hs.add_of_not_covered h hcovered]
    refine ⟨Ascending.pairwise_put h hs.ascending, fun g => ?_⟩
    rw [Ascending.mem_put_iff_of_pairwise hs.ascending, hs.mem_iff,
      Strongest.insert_iff_of_not_covered hcovered]
    exact or_congr_right (and_congr_right' HintKey.texts_injective.ne_iff)

/-- The hints change if the one that is added was not covered. -/
theorem add_ne_self_iff (hs : Records hints s) (h : Hint) :
    hints.add h ≠ hints ↔ ¬ Covered s h := by
  refine ⟨fun hne hcovered => hne (hs.add_of_covered h hcovered), fun hnew heq => hnew ?_⟩
  have hmem : h ∈ hints.add h := hs.add_of_not_covered h hnew ▸ Ascending.mem_put _ h hints
  rw [heq, hs.mem_iff] at hmem
  exact ⟨h, hmem.mem, rfl, h.mode.covers_refl⟩

/-- Adding hints in turn adds them to the set. -/
theorem foldl_add (hs : Records hints s) (l : List Hint) :
    Records (l.foldl Hints.add hints) (s ∪ {x | x ∈ l}) := by
  induction l generalizing hints s with
  | nil => simpa using hs
  | cons x l ih =>
    have hunion : s ∪ {y | y ∈ x :: l} = insert x s ∪ {y | y ∈ l} := by
      ext y
      simp only [Set.mem_union, Set.mem_ofPred_eq, Set.mem_insert_iff, List.mem_cons]
      tauto
    exact hunion ▸ ih (hs.add x)

/-- Merging makes the union of both sets. -/
theorem merge (hs : Records hints s) (ht : Records other t) :
    Records (hints.merge other) (s ∪ t) := by
  -- the hints that are added are the strongest ones of their set
  have hmerged : Records (hints.merge other) (s ∪ {h | h ∈ other}) := hs.foldl_add other
  refine ⟨hmerged.ascending, fun h => (hmerged.mem_iff h).trans ?_⟩
  simp only [ht.mem_iff]
  exact Strongest.union_iff

/-- What may be called is what was registered to be called. -/
theorem canInvoke_iff (hs : Records hints s) {owner : ClassName} {name : String} :
    hints.canInvoke owner name ↔
      ∃ h ∈ s, h.mode = .invoke ∧ h.key.owner = owner ∧ h.key.name = name := by
  simp only [canInvoke, List.any_eq_true, Bool.and_eq_true, beq_iff_eq, hs.mem_iff, and_assoc]
  constructor
  · rintro ⟨h, hh, hinvoke⟩
    exact ⟨h, hh.mem, hinvoke⟩
  · rintro ⟨h, hh, hmode, hkey⟩
    exact ⟨h, .of_invoke hh hmode, hmode, hkey⟩

end Records

end Hints

/-! ### Collecting -/

/-- How hints come about: by registering uses of methods, and by merging other hints. -/
inductive Collecting
  | nothing
  | register (c : Collecting) (owner : ClassName) (m : MethodDecl) (mode : HintMode)
  | merge (c other : Collecting)

namespace Collecting

/-- The hints that are collected. -/
def hints : Collecting → Hints
  | nothing => []
  | register c owner m mode => (c.hints.register owner m mode).2
  | merge c other => c.hints.merge other.hints

/-- The registrations that take part, in whatever hints they were made. -/
def registrations : Collecting → List Hint
  | nothing => []
  | register c owner m mode =>
    { key := { owner, name := m.name, parameterTypes := m.parameterTypes }, mode } ::
      c.registrations
  | merge c other => c.registrations ++ other.registrations

/-- What is collected records the registrations. -/
theorem records (c : Collecting) : c.hints.Records {h | h ∈ c.registrations} := by
  induction c with
  | nothing => simpa [hints, registrations] using Hints.Records.empty
  | register c owner m mode ih =>
    have hregistered := ih.add
      { key := { owner, name := m.name, parameterTypes := m.parameterTypes }, mode }
    simpa [hints, registrations, Hints.register, Set.insert_def] using hregistered
  | merge c other ih ih' => simpa [hints, registrations, Set.ofPred_or] using ih.merge ih'

/-- Merging is commutative, associative and idempotent, and hints without registrations are its
unit. The hints depend on nothing but which registrations took part, and hold the strongest use
registered for each method. Registering answers whether the hints change, and a method may be called
after merging if the hints of one side allowed it. -/
theorem hints_laws (a b c : Collecting) :
    (a.hints.merge b.hints = b.hints.merge a.hints ∧
      (a.hints.merge b.hints).merge c.hints = a.hints.merge (b.hints.merge c.hints) ∧
      a.hints.merge a.hints = a.hints ∧ a.hints.merge [] = a.hints ∧
      Hints.merge [] a.hints = a.hints) ∧
    ((∀ h, h ∈ a.registrations ↔ h ∈ b.registrations) → a.hints = b.hints) ∧
    a.hints.Records {h | h ∈ a.registrations} ∧
    (∀ key mode, a.hints.mode? key = some mode ↔ (⟨key, mode⟩ : Hint) ∈ a.registrations ∧
      ∀ other, (⟨key, other⟩ : Hint) ∈ a.registrations → mode.covers other) ∧
    (∀ owner m mode, (a.hints.register owner m mode).1 ↔
      (a.hints.register owner m mode).2 ≠ a.hints) ∧
    ∀ owner name, (a.hints.merge b.hints).canInvoke owner name ↔
      a.hints.canInvoke owner name ∨ b.hints.canInvoke owner name := by
  have ha := a.records
  have hb := b.records
  have hc := c.records
  have hnothing := Hints.Records.empty
  refine ⟨⟨?_, ?_, ?_, ?_, ?_⟩, fun hsame => ?_, ha, fun key mode => ?_, fun owner m mode => ?_,
    fun owner name => ?_⟩
  · exact (ha.merge hb).unique (Set.union_comm _ _ ▸ hb.merge ha)
  · exact ((ha.merge hb).merge hc).unique (Set.union_assoc _ _ _ ▸ ha.merge (hb.merge hc))
  · exact (ha.merge ha).unique ((Set.union_self _).symm ▸ ha)
  · exact (ha.merge hnothing).unique ((Set.union_empty _).symm ▸ ha)
  · exact (hnothing.merge ha).unique ((Set.empty_union _).symm ▸ ha)
  · exact ha.unique ((Set.ext hsame : {h | h ∈ a.registrations} = _) ▸ hb)
  · rw [ha.mode?_eq_some_iff]
    refine ⟨fun h => ⟨h.mem, fun other hother => h.covers _ hother rfl⟩, fun h => ⟨h.1, ?_⟩⟩
    rintro ⟨_, other⟩ hother rfl
    exact h.2 other hother
  · rw [Hints.register, ha.add_ne_self_iff, ha.covered_iff]
    cases a.hints.mode? _ with
    | none => simp
    | some recorded => simp
  · rw [(ha.merge hb).canInvoke_iff, ha.canInvoke_iff, hb.canInvoke_iff]
    simp only [Set.mem_union, or_and_right, exists_or]

/-- Two overloads and two uses of one of them, registered in different order and grouping. -/
theorem hints_laws_overloads :
    let size : MethodDecl := .setter "size" ⟨"int"⟩
    let long : MethodDecl := .setter "size" ⟨"long"⟩
    let owner : ClassName := ⟨"Service"⟩
    let a : Collecting := ((Collecting.nothing.register owner size .introspect).register owner long
      .introspect).merge (Collecting.nothing.register owner size .invoke)
    let b : Collecting := (Collecting.nothing.register owner size .invoke).merge
      ((a.register owner long .introspect).register owner size .introspect)
    (∀ h, h ∈ a.registrations ↔ h ∈ b.registrations) ∧ a.hints = b.hints ∧
      (a.hints.register owner long .introspect).1 = false ∧
      (a.hints.register owner long .invoke).1 = true ∧
      a.hints.map Hint.mode = [.invoke, .introspect] := by
  intro size long owner a b
  have hsub : ∀ h ∈ a.registrations, h ∈ b.registrations := by decide
  have hsub' : ∀ h ∈ b.registrations, h ∈ a.registrations := by decide
  have hsame : ∀ h, h ∈ a.registrations ↔ h ∈ b.registrations := fun h => ⟨hsub h, hsub' h⟩
  exact ⟨hsame, (hints_laws a b .nothing).2.1 hsame, by decide⟩

end Collecting

end BeanScript
