import BeanScript.Proofs.Bean.Bisimulation
import BeanScript.Proofs.Script.Batch

/-!
# What can be written

Nothing but a value itself can keep a batch from being written: a character beyond 16 bits, an
instance of a type without a written form, a collection as a key of a map, an argument index beyond
32 bits. Each of these is seen on the value alone, without its surroundings. So a batch can be
written exactly when no value inside the definition, outside rejected attributes, is one of them.

## Main definitions

* `Value.isWritable` — the value itself can be written
* `Resolver.SuppliesOnly` — a resolver supplies nested definitions and nothing else
* `Generator.Writes` — the definitions that a batch writes

## Main results

* `Value.exists_encode_iff`, `Script.Context.exists_statements_iff` — values and definitions that
  can be written
* `Generator.exists_batch_iff` — the definitions for which there is a batch
-/

namespace BeanScript

/-- The value can be written, provided that what is inside it can. -/
def Value.isWritable : Value → Bool
  | .atom (.literal (.char c)) => inBasicPlane c
  | .atom (.instanceOf _) => false
  | .map _ es => es.all fun e => !e.1.isCollection
  | .bean d => d.indexed.all fun a => decide (a.1 < Script.Context.indexLimit)
  | _ => true

theorem Value.not_isOpaque_of_isWritable (v : Value) (h : v.isWritable) : !v.isOpaque := by
  unfold isOpaque
  split
  · cases h
  · rfl

variable {keep : KeyFilter}

/-! ### Values -/

section Encode

variable {resolve : Resolver} {name : String}

theorem Atom.exists_encode_iff {a : Atom}
    (hinstance : ∀ type, resolve name (.atom (.instanceOf type)) = none) :
    (∃ e, a.encode resolve name = .ok e) ↔ (Value.atom a).isWritable := by
  cases a with
  | literal l =>
    cases l with
    | char c =>
      rw [encode, Value.isWritable]
      split <;> simp [*]
    | _ => simp [encode, Value.isWritable]
  | instanceOf type => simp [encode, hinstance, Value.isWritable]
  | _ => simp [encode, Value.isWritable]

/-- A value can be written when every value inside it can, where the resolver supplies the nested
definitions and nothing else. -/
theorem Value.exists_encode_iff {v : Value}
    (hinstance : ∀ type, resolve name (.atom (.instanceOf type)) = none)
    (hbean : ∀ b ∈ v.beans, ∃ e, resolve name (.bean b) = some e)
    (hinside : ∀ b ∈ v.beans, (Value.bean b).every keep isWritable) :
    (∃ e, v.encode resolve name = .ok e) ↔ v.every keep isWritable := by
  have helements : ∀ {vs : List Value} {f : List Expr → Expr},
      (∀ v ∈ vs, (∃ e, v.encode resolve name = .ok e) ↔ v.every keep isWritable) →
      ((∃ e, (vs.mapM (encode resolve name)).map f = .ok e) ↔
        ∀ v ∈ vs, v.every keep isWritable) := by
    intro vs f ih
    rw [exists_map_eq_ok_iff, exists_mapM_eq_ok_iff]
    exact forall₂_congr ih
  induction v with
  | atom a => exact Atom.exists_encode_iff hinstance
  | array c vs ih =>
    rw [beans_array, List.forall_mem_flatMap] at hbean hinside
    rw [encode_array, every_array, and_iff_right (show (Value.array c vs).isWritable from rfl)]
    exact helements fun v hv => ih v hv (hbean v hv) (hinside v hv)
  | list k vs ih =>
    rw [beans_list, List.forall_mem_flatMap] at hbean hinside
    rw [encode_list, every_list, and_iff_right (show (Value.list k vs).isWritable from rfl)]
    exact helements fun v hv => ih v hv (hbean v hv) (hinside v hv)
  | set k vs ih =>
    rw [beans_set, List.forall_mem_flatMap] at hbean hinside
    rw [encode_set, every_set, and_iff_right (show (Value.set k vs).isWritable from rfl)]
    exact helements fun v hv => ih v hv (hbean v hv) (hinside v hv)
  | map k es ih =>
    simp only [beans_map, List.forall_mem_flatMap, List.forall_mem_append] at hbean hinside
    rw [encode_map, every_map, exists_map_eq_ok_iff, exists_mapM_eq_ok_iff, isWritable,
      List.all_eq_true, ← forall₂_and]
    refine forall₂_congr fun e he => ?_
    have hkey : (∃ x, e.1.encode resolve name = .ok x) ↔ e.1.every keep isWritable :=
      (ih e he).1 (hbean e he).1 (hinside e he).1
    have hvalue : (∃ x, e.2.encode resolve name = .ok x) ↔ e.2.every keep isWritable :=
      (ih e he).2 (hbean e he).2 (hinside e he).2
    rw [encodeEntry, ← hkey, ← hvalue]
    by_cases hcollection : e.1.isCollection
    · simp [hcollection]
    · simp only [if_neg hcollection]
      cases e.1.encode resolve name <;> cases e.2.encode resolve name <;> simp [hcollection]
  | bean d =>
    obtain ⟨e, he⟩ := hbean d (List.mem_singleton_self d)
    rw [encode, he]
    exact iff_of_true ⟨e, rfl⟩ (hinside d (List.mem_singleton_self d))

end Encode

/-! ### Definitions -/

/-- The resolver supplies the given definitions, at any position, and no value of another kind. -/
structure Resolver.SuppliesOnly (resolve : Resolver) (bs : List Definition) : Prop where
  bean : ∀ b ∈ bs, ∀ name, ∃ e, resolve name (.bean b) = some e
  other : ∀ name type, resolve name (.atom (.instanceOf type)) = none

theorem Part.fault?_eq_none_iff {d : Definition} :
    (∀ p ∈ d.parts keep, p.fault? = none) ↔ (Value.bean d).isWritable := by
  have hindexed : ∀ a : Nat × Holder, (Part.indexed a.1 a.2).fault? = none ↔
      a.1 < Script.Context.indexLimit := by
    intro a
    rw [fault?]
    split
    · next hle => simp [Nat.not_lt.mpr hle]
    · next hlt => simp [Nat.lt_of_not_le hlt]
  simp only [Definition.parts, List.forall_mem_append, List.forall_mem_map, hindexed,
    Value.isWritable, List.all_eq_true, decide_eq_true_iff]
  simp [fault?]

/-- A definition can be written when every value inside it can, where the resolver supplies the
nested definitions and nothing else. -/
theorem Script.Context.exists_statements_iff {c : Script.Context} {d : Definition} (hd : d.Distinct)
    (hresolve : c.resolve.SuppliesOnly (d.beans c.keep))
    (hinside : ∀ b ∈ d.beans c.keep, (Value.bean b).every c.keep Value.isWritable) :
    (∃ block, c.statements d = .ok block) ↔ (Value.bean d).every c.keep Value.isWritable := by
  have hwrite : ∀ p, (∃ s, c.write p = .ok s) ↔
      p.fault? = none ∧ ∀ e ∈ p.values, ∃ x, e.2.encode c.resolve e.1 = .ok x := by
    intro p
    simp only [write_eq_ok_iff, exists_and_left, exists_comm (α := Stmt), exists_eq',
      and_true, exists_mapM_eq_ok_iff]
    rfl
  have hencode : ∀ e ∈ d.held c.keep, (∃ x, e.2.encode c.resolve e.1 = .ok x) ↔
      e.2.every c.keep Value.isWritable := by
    intro e he
    have hmem : ∀ b ∈ e.2.beans, b ∈ d.beans c.keep := fun b hb =>
      List.mem_flatMap.mpr ⟨e, he, hb⟩
    exact Value.exists_encode_iff (hresolve.other e.1) (fun b hb => hresolve.bean b (hmem b hb) e.1)
      fun b hb => hinside b (hmem b hb)
  have hheld : (∀ p ∈ d.parts c.keep, ∀ e ∈ p.values, ∃ x, e.2.encode c.resolve e.1 = .ok x) ↔
      ∀ e ∈ d.held c.keep, e.2.every c.keep Value.isWritable := by
    rw [← List.forall_mem_flatMap]
    have hperm : List.Perm _ (d.held c.keep) := Definition.perm_values_parts hd
    exact forall_congr' fun e => by
      rw [hperm.mem_iff]
      exact forall_congr' fun he => hencode e he
  rw [statements_eq, exists_map_eq_ok_iff, exists_mapM_eq_ok_iff, Value.every_bean,
    Definition.every_iff, forall₂_congr fun p _ => hwrite p, forall₂_and, hheld,
    Part.fault?_eq_none_iff]
  simp only [Definition.Holds, List.forall_mem_map]

/-! ### Batches -/

theorem Value.Alike.isCollection {R : Value → Value → Prop} {v w : Value} (h : Alike keep R v w) :
    v.isCollection = w.isCollection := by
  cases h <;> rfl

/-- Related values can be written alike. -/
theorem Value.Bisimulation.isWritable {R : Value → Value → Prop} (hR : Bisimulation keep R)
    (v w : Value) (h : R v w) (hv : v.isWritable) : w.isWritable := by
  cases hR.alike h with
  | map hs =>
    rw [Value.isWritable, List.all_eq_true] at hv ⊢
    intro f hf
    obtain ⟨e, he, hkey, -⟩ := exists_of_forall₂ hs.flip hf
    exact (hR.alike hkey).isCollection ▸ hv e he
  | bean hs =>
    rw [Value.isWritable, List.all_eq_true] at hv ⊢
    intro b hb
    obtain ⟨a, ha, hindex, -⟩ := exists_of_forall₂ hs.indexed.flip hb
    exact hindex ▸ hv a ha
  | _ => exact hv

namespace Generator

variable {g : Generator} {d u : Definition}

/-- The definition is one of those that a batch for `d` writes: `d` itself, and all that have a
method. -/
def Writes (g : Generator) (d u : Definition) : Prop :=
  u = d ∨ ∃ n ∈ (g.nested d).list, n.definition = u

namespace Writes

variable (hd : d.WellFormed) (hu : g.Writes d u)

include hd hu

theorem wellFormed : u.WellFormed := by
  rcases hu with rfl | ⟨n, hn, rfl⟩
  · exact hd
  · exact NestedMethods.wellFormed_of_mem_list hd hn

theorem knows {b : Definition} (hb : b ∈ u.beans g.keep) : (g.nested d).Knows b := by
  rcases hu with rfl | ⟨n, hn, rfl⟩
  · exact NestedMethods.knows_ofDefinition hd hb
  · exact NestedMethods.knows_of_mem_list hd hn hb

/-- What is nested in a definition that is written is equal to one that is written. -/
theorem exists_equiv {b : Definition} (hb : b ∈ u.beans g.keep) :
    ∃ c, g.Writes d c ∧ c.Equiv b := by
  obtain ⟨n, hn, hnb⟩ := hu.knows hd hb
  exact ⟨n.definition, .inr ⟨n, hn, rfl⟩, NestedMethods.wellFormed_of_mem_list hd hn,
    (hu.wellFormed hd).of_mem_beans hb, Value.bean_beq.mpr ⟨b, rfl, hnb⟩⟩

/-- A property that nested definitions inherit holds of all definitions that are written. -/
theorem inherits {P : Definition → Prop} (h : P d) (hP : ∀ c, P c → ∀ b ∈ c.beans g.keep, P b) :
    P u := by
  rcases hu with rfl | ⟨n, hn, rfl⟩
  · exact h
  · exact NestedMethods.inherits_ofDefinition hd h hP hn

end Writes

/-- Without a resolver of its own, the generator supplies nested definitions and nothing else. -/
theorem supplies_batchResolver (hresolve : g.resolve = .empty) (hd : d.WellFormed)
    {bs : List Definition} (hknows : ∀ b ∈ bs, (g.nested d).Knows b) :
    (g.batchResolver d).SuppliesOnly bs where
  bean b hb name := by
    obtain ⟨method, hmethod⟩ := Option.isSome_iff_exists.mp
      (NestedMethods.isSome_nameFor?_iff.mpr (hknows b hb))
    exact ⟨_, batchResolver_bean hd hmethod name⟩
  other name type := by
    rw [batchResolver, Resolver.orElse, hresolve]
    rfl

theorem exists_statements_iff (hresolve : g.resolve = .empty) (hd : d.WellFormed)
    (hu : u.WellFormed) (hknows : ∀ b ∈ u.beans g.keep, (g.nested d).Knows b) {c : Script.Context}
    (hc : c.Fits g (g.batchResolver d))
    (hinside : ∀ b ∈ u.beans g.keep, (Value.bean b).every g.keep Value.isWritable) :
    (∃ block, c.statements u = .ok block) ↔ (Value.bean u).every g.keep Value.isWritable := by
  have hsupplies := supplies_batchResolver hresolve hd hknows
  rw [← hc.keep] at hinside hsupplies ⊢
  rw [← hc.resolve] at hsupplies
  exact Script.Context.exists_statements_iff (Definition.wellFormed_iff.mp hu).1 hsupplies hinside

theorem Writes.exists_statements_iff (hd : d.WellFormed) (hu : g.Writes d u)
    (hresolve : g.resolve = .empty) {c : Script.Context} (hc : c.Fits g (g.batchResolver d))
    (hinside : ∀ b ∈ u.beans g.keep, (Value.bean b).every g.keep Value.isWritable) :
    (∃ block, c.statements u = .ok block) ↔ (Value.bean u).every g.keep Value.isWritable :=
  Generator.exists_statements_iff hresolve hd (hu.wellFormed hd) (fun _ => hu.knows hd) hc hinside

/-- All definitions that are written have their statements in a batch. -/
theorem Made.exists_statements {batch : Batch} {made : List (NestedMethod × Block)}
    (h : g.Made d batch made) (hu : g.Writes d u) :
    ∃ c : Script.Context, c.Fits g (g.batchResolver d) ∧ ∃ block, c.statements u = .ok block := by
  rcases hu with rfl | ⟨n, hn, rfl⟩
  · obtain ⟨c, hc, hs⟩ := h.root
    exact ⟨c, hc, _, hs⟩
  · obtain ⟨m, hm, rfl⟩ := h.exists_mem hn
    obtain ⟨c, hc, hs⟩ := h.inside m hm
    exact ⟨c, hc, _, hs⟩

/-- What is nested in a definition that was written can be written, since it is equal to one that
was written and that nests less deep. -/
theorem Made.every_isWritable {batch : Batch} {made : List (NestedMethod × Block)}
    (h : g.Made d batch made) (hd : d.WellFormed) (hresolve : g.resolve = .empty) {n : Nat}
    (hu : g.Writes d u) (hn : u.nestsWithin g.keep n) :
    (Value.bean u).every g.keep Value.isWritable := by
  obtain ⟨c, hc, hs⟩ := h.exists_statements hu
  induction n generalizing u c with
  | zero =>
    have hnone := Definition.nestsWithin_zero_iff.mp hn
    refine (hu.exists_statements_iff hd hresolve hc fun b hb => ?_).mp hs
    rw [hnone] at hb
    cases hb
  | succ n ih =>
    refine (hu.exists_statements_iff hd hresolve hc fun b hb => ?_).mp hs
    obtain ⟨u', hu', hequiv⟩ := hu.exists_equiv hd hb
    obtain ⟨c', hc', hs'⟩ := h.exists_statements hu'
    have hdepth := hequiv.nestsWithin.mpr (Definition.nestsWithin_succ_iff.mp hn b hb)
    have hR := Value.Bisimulation.ofEquiv g.keep
    exact hR.every hR.isWritable hequiv (ih hu' hdepth c' hc' hs')

/-- Without a resolver of its own, a generator writes a batch exactly when every value inside the
definition can be written. -/
theorem exists_batch_iff (hd : d.WellFormed) (hresolve : g.resolve = .empty) :
    (∃ batch, (g.batch d).1 = .ok batch) ↔ (Value.bean d).every g.keep Value.isWritable := by
  have hinside : ∀ c : Definition, (Value.bean c).every g.keep Value.isWritable →
      ∀ b ∈ c.beans g.keep, (Value.bean b).every g.keep Value.isWritable :=
    fun c hc b hb => Definition.every_bean_of_mem_beans hc hb
  constructor
  · rintro ⟨batch, hbatch⟩
    obtain ⟨made, hmade⟩ := exists_made hd hbatch
    obtain ⟨n, hn⟩ := Definition.exists_nestsWithin g.keep d
    exact hmade.every_isWritable hd hresolve (.inl rfl) hn
  · intro hevery
    cases hbatch : (g.batch d).1 with
    | ok batch => exact ⟨batch, rfl⟩
    | error e =>
      obtain ⟨u, hwrites, c, hc, hfault⟩ := batch_eq_error hbatch
      have hu : g.Writes d u := hwrites
      have huevery : (Value.bean u).every g.keep Value.isWritable :=
        hu.inherits hd (P := fun c => (Value.bean c).every g.keep Value.isWritable) hevery hinside
      obtain ⟨block, hblock⟩ :=
        (hu.exists_statements_iff hd hresolve hc (hinside u huevery)).mpr huevery
      rw [hblock] at hfault
      cases hfault

end Generator

end BeanScript
