import BeanScript.Proofs.Bean.Building
import BeanScript.Proofs.Histories

/-!
# Sets and maps of values, after any insertions

The elements of a set and the keys of a map are compared by equality of values, which is coarser
than identity: definitions are equal whatever the order of their tables. So what was inserted under
an equal key is found, replaced or kept out, and which of several equal keys is stored is decided by
who came first. All of this rests on equality being an equivalence on the values there can be. For
tables it is enough to know this of the keys that come up.

The keys of a map are a set, and grow as one.

## Main definitions

* `ValueSet.Holds`, `ValueMap.Holds` — a set or map is what the insertions so far make it

## Main results

* `Table.keys_ofList` — the keys of a table grow as a list without repetition
* `Table.get?_ofList` — what is found is what was put last under an equal key
* `collections_hold` — sets and maps after any insertions
-/

namespace BeanScript

/-! ### Tables with keys up to an equivalence -/

namespace Table

variable {κ : Type u} {ν : Type v} [BEq κ] {t : Table κ ν} {key other : κ}

/-- Putting adds the key to the keys, unless an equal one is there. -/
theorem keys_put_eq_add (t : Table κ ν) (key : κ) (value : ν) :
    keys (put t key value) = Distinct.add (· == ·) (keys t) key := by
  induction t with
  | nil => rfl
  | cons e t ih =>
    obtain ⟨k, v⟩ := e
    have hcons : keys ((k, v) :: t) = k :: keys t := rfl
    rw [put_cons, hcons, Distinct.add, List.any_cons]
    cases hk : k == key with
    | true => rfl
    | false =>
      have htail : keys ((k, v) :: put t key value) = k :: keys (put t key value) := rfl
      rw [if_neg Bool.false_ne_true, htail, ih, Distinct.add, Bool.false_or]
      split <;> rfl

/-- The keys of a table grow as a list without repetition. -/
theorem keys_ofList (es : List (κ × ν)) :
    keys (ofList es) = Distinct.ofList (· == ·) (es.map Prod.fst) := by
  induction es using List.reverseRecOn with
  | nil => rfl
  | append_singleton es e ih =>
    rw [ofList, List.foldl_concat, ← ofList, keys_put_eq_add, ih, List.map_append, Distinct.ofList,
      Distinct.ofList, List.foldl_append]
    rfl

/-- Under a key that is present up to equality, the value is replaced where it stands. -/
theorem put_of_any (value : ν) (h : ∃ e ∈ t, e.1 == key) :
    ∃ before k v after, t = before ++ (k, v) :: after ∧ k == key ∧ get? t key = some v ∧
      put t key value = before ++ (k, value) :: after := by
  induction t with
  | nil =>
    obtain ⟨e, he, -⟩ := h
    cases he
  | cons e t ih =>
    obtain ⟨k, v⟩ := e
    rw [get?_cons, put_cons]
    by_cases hk : k == key
    · exact ⟨[], k, v, t, rfl, hk, if_pos hk, if_pos hk⟩
    · obtain ⟨e, he, hkey⟩ := h
      have hrest : e ∈ t := by
        rcases List.mem_cons.mp he with rfl | he
        · exact absurd hkey hk
        · exact he
      obtain ⟨before, k', v', after, rfl, hk', hget, hput⟩ := ih ⟨e, hrest, hkey⟩
      refine ⟨(k, v) :: before, k', v', after, rfl, hk', ?_, ?_⟩
      · rw [if_neg hk, hget]
      · rw [if_neg hk, hput, List.cons_append]

theorem get?_of_not_any (h : ∀ e ∈ t, ¬ e.1 == key) : get? t key = none := by
  induction t with
  | nil => rfl
  | cons e t ih =>
    obtain ⟨k, v⟩ := e
    obtain ⟨hk, ht⟩ := List.forall_mem_cons.mp h
    rw [get?_cons, if_neg hk, ih ht]

section Equivalence

variable {P : κ → Prop} (hsymm : ∀ {a b}, P a → P b → a == b → b == a)
  (htrans : ∀ {a b c : κ}, a == b → b == c → a == c)

include hsymm htrans

/-- The value last put is found under every key equal to its own; other keys keep theirs. -/
theorem get?_put_of_equivalence (ht : ∀ k ∈ keys t, P k) (hkey : P key) (hother : P other)
    (value : ν) :
    get? (put t key value) other = if key == other then some value else get? t other := by
  induction t with
  | nil => rfl
  | cons e t ih =>
    obtain ⟨k, v⟩ := e
    obtain ⟨hk, ht⟩ := List.forall_mem_cons.mp ht
    rw [put_cons, get?_cons]
    by_cases hkk : k == key
    · -- the stored key is found where the new one is
      have hsame : (k == other) = (key == other) := Bool.eq_iff_iff.mpr
        ⟨htrans (hsymm hk hkey hkk), htrans hkk⟩
      rw [if_pos hkk, get?_cons, hsame]
      split <;> rfl
    · rw [if_neg hkk, get?_cons, ih ht]
      by_cases hko : k == other
      · have hne : ¬ key == other := fun h => hkk (htrans hko (hsymm hkey hother h))
        rw [if_pos hko, if_pos hko, if_neg hne]
      · rw [if_neg hko, if_neg hko]

/-- What is found is what was put last under an equal key. -/
theorem get?_ofList {es : List (κ × ν)} (hes : ∀ e ∈ es, P e.1) (hkey : P key) :
    get? (ofList es) key = (es.filter (·.1 == key)).getLast?.map Prod.snd := by
  induction es using List.reverseRecOn with
  | nil => rfl
  | append_singleton es e ih =>
    obtain ⟨hes, he⟩ := List.forall_mem_append.mp hes
    have hkeys : ∀ k ∈ keys (ofList es), P k := by
      intro k hk
      obtain ⟨f, hf, rfl⟩ := List.mem_map.mp hk
      obtain ⟨g, hg, hgf⟩ := List.mem_map.mp (mem_ofList hf).1
      exact hgf ▸ hes g hg
    rw [ofList, List.foldl_concat, ← ofList,
      get?_put_of_equivalence hsymm htrans hkeys (he e (List.mem_singleton_self e)) hkey, ih hes,
      List.filter_append, List.getLast?_append]
    by_cases hek : e.1 == key <;> simp [hek]

end Equivalence

end Table

/-! ### Sets -/

/-- Unequal values are unequal on both sides. -/
theorem Value.pairwise_unequal {vs : List Value} (hvs : ∀ v ∈ vs, v.Built)
    (h : vs.Pairwise fun v w => ¬ v == w) : vs.Pairwise fun v w => ¬ v == w ∧ ¬ w == v :=
  h.imp_of_mem fun hv hw hne =>
    ⟨hne, fun hwv => hne (Value.beq_symm (hvs _ hw).wellFormed (hvs _ hv).wellFormed hwv)⟩

/-- Adding values that can be built in turn keeps the first of each. -/
theorem Value.follows_ofList {vs : List Value} (hvs : ∀ v ∈ vs, v.Built) :
    Distinct.Follows (· == ·) (Distinct.ofList (· == ·) vs) vs :=
  Distinct.follows_ofList (fun _ _ _ => Value.beq_trans) fun v hv =>
    Value.beq_self (hvs v hv).wellFormed

/-- What is kept of some values has an element equal to another one if the values had. -/
theorem Value.exists_mem_ofList_iff (vs : List Value) (v : Value) :
    (∃ w ∈ Distinct.ofList (· == ·) vs, w == v) ↔ ∃ w ∈ vs, w == v := by
  constructor
  · rintro ⟨w, hw, hwv⟩
    exact ⟨w, Distinct.mem_of_mem_ofList hw, hwv⟩
  · rintro ⟨w, hw, hwv⟩
    obtain ⟨x, hx, hxw⟩ : ∃ x ∈ Distinct.ofList (· == ·) vs, x = w ∨ x == w :=
      Distinct.exists_mem_ofList hw
    rcases hxw with rfl | hxw
    · exact ⟨x, hx, hwv⟩
    · exact ⟨x, hx, Value.beq_trans hxw hwv⟩

namespace ValueSet

/-- The set is what the given insertions make it, and answers as they say. -/
structure Holds (s : ValueSet) (inserted : List Value) : Prop where
  /-- The elements are the first of each, in order. -/
  firsts : Distinct.Follows (· == ·) s inserted
  unequal : s.Pairwise fun v w => ¬ v == w ∧ ¬ w == v
  contains_iff : ∀ v, s.contains v ↔ ∃ w ∈ inserted, w == v
  /-- An insertion is in vain where something equal was inserted before. -/
  tryInsert_eq_false_iff : ∀ v, (s.tryInsert v).1 = false ↔ ∃ w ∈ inserted, w == v
  /-- Inserting the elements in order rebuilds the set. -/
  rebuilt : ofList s = s

theorem foldl_tryInsert (values : List Value) :
    values.foldl (fun (s : ValueSet) v => (s.tryInsert v).2) [] = ofList values := by
  simp only [tryInsert_eq]
  rfl

theorem holds_ofList {values : List Value} (h : ∀ v ∈ values, v.Built) :
    (ofList values).Holds values := by
  have hcontains : ∀ v, (ofList values).contains v ↔ ∃ w ∈ values, w == v := by
    intro v
    rw [contains, List.any_eq_true]
    exact Value.exists_mem_ofList_iff values v
  refine ⟨Value.follows_ofList h, ?_, hcontains, fun v => ?_, ?_⟩
  · exact Value.pairwise_unequal (fun v hv => h v (Distinct.mem_of_mem_ofList hv))
      (Distinct.pairwise_ofList values)
  · rw [tryInsert_eq, Bool.not_eq_false', hcontains]
  · exact Distinct.ofList_eq_self (Distinct.pairwise_ofList values)

end ValueSet

/-! ### Maps -/

namespace ValueMap

/-- The map is what the given insertions make it, and answers as they say. -/
structure Holds (m : ValueMap) (inserted : List (Value × Value)) : Prop where
  /-- The keys are the first of each, in order. -/
  firsts : Distinct.Follows (· == ·) (Table.keys m) (inserted.map Prod.fst)
  unequal : (Table.keys m).Pairwise fun j k => ¬ j == k ∧ ¬ k == j
  /-- Under a key stands what was inserted last under an equal one. -/
  get?_eq : ∀ key, key.Built →
    m.get? key = (inserted.filter (·.1 == key)).getLast?.map Prod.snd
  /-- So does an insertion answer. -/
  fst_exchange : ∀ key value, key.Built →
    (m.exchange key value).1 = (inserted.filter (·.1 == key)).getLast?.map Prod.snd
  /-- Only the value of the equal key is replaced. -/
  replaces : ∀ key value, (∃ e ∈ inserted, e.1 == key) →
    ∃ before k v after, m = before ++ (k, v) :: after ∧ k == key ∧
      m.exchange key value = (some v, before ++ (k, value) :: after)
  /-- A new key goes to the end. -/
  appends : ∀ key value, (¬ ∃ e ∈ inserted, e.1 == key) →
    m.exchange key value = (none, m ++ [(key, value)])
  /-- Inserting the entries in order rebuilds the map. -/
  rebuilt : ofList m = m

theorem foldl_exchange (entries : List (Value × Value)) :
    entries.foldl (fun (m : ValueMap) e => (m.exchange e.1 e.2).2) [] = ofList entries := by
  simp only [exchange_eq]
  rfl

theorem holds_ofList {entries : List (Value × Value)} (h : ∀ e ∈ entries, e.1.Built) :
    (ofList entries).Holds entries := by
  have hkeys : Table.keys (ofList entries) = Distinct.ofList (· == ·) (entries.map Prod.fst) :=
    Table.keys_ofList entries
  have hbuilt : ∀ k ∈ entries.map Prod.fst, k.Built := List.forall_mem_map.mpr h
  have hget : ∀ key, key.Built → (ofList entries).get? key
      = (entries.filter (·.1 == key)).getLast?.map Prod.snd := fun key hkey =>
    Table.get?_ofList (fun ha hb => Value.beq_symm ha.wellFormed hb.wellFormed) Value.beq_trans h
      hkey
  have hpresent : ∀ key, (∃ e ∈ ofList entries, e.1 == key) ↔ ∃ e ∈ entries, e.1 == key := by
    intro key
    have hmap := Value.exists_mem_ofList_iff (entries.map Prod.fst) key
    rw [← hkeys] at hmap
    simpa [Table.keys] using hmap
  refine ⟨hkeys ▸ Value.follows_ofList hbuilt, ?_, hget, fun key value hkey => ?_,
    fun key value hany => ?_, fun key value hnone => ?_, ?_⟩
  · rw [hkeys]
    exact Value.pairwise_unequal (fun k hk => hbuilt k (Distinct.mem_of_mem_ofList hk))
      (Distinct.pairwise_ofList _)
  · rw [exchange_eq, hget key hkey]
  · obtain ⟨before, k, v, after, heq, hk, hfound, hput⟩ :=
      Table.put_of_any value ((hpresent key).mpr hany)
    exact ⟨before, k, v, after, heq, hk, by rw [exchange_eq, get?, insert, hfound, hput]⟩
  · have hnew : ∀ e ∈ ofList entries, ¬ e.1 == key := fun e he hek =>
      hnone ((hpresent key).mp ⟨e, he, hek⟩)
    rw [exchange_eq, get?, insert, Table.get?_of_not_any hnew, Table.put_of_not_any value hnew]
  · exact Table.ofList_eq_self (Table.pairwise_ofList entries)

end ValueMap

/-- Sets and maps after any insertions of values that can be built. -/
theorem collections_hold {values : List Value} {entries : List (Value × Value)}
    (hvalues : ∀ v ∈ values, v.Built) (hentries : ∀ e ∈ entries, e.1.Built) :
    ValueSet.Holds (values.foldl (fun (s : ValueSet) v => (s.tryInsert v).2) []) values ∧
      ValueMap.Holds (entries.foldl (fun (m : ValueMap) e => (m.exchange e.1 e.2).2) [])
        entries := by
  rw [ValueSet.foldl_tryInsert, ValueMap.foldl_exchange]
  exact ⟨ValueSet.holds_ofList hvalues, ValueMap.holds_ofList hentries⟩

/-- Definitions that differ in the order of their properties, by themselves and in lists. -/
theorem collections_hold_reordered :
    let d : Value := .bean { properties := [("a", .null), ("b", .null)] }
    let e : Value := .bean { properties := [("b", .null), ("a", .null)] }
    let values := [d, .list .plain [e], e, .list .plain [d]]
    let entries := [(d, .null), (.null, d), (e, .string "last")]
    let s : ValueSet := values.foldl (fun (s : ValueSet) v => (s.tryInsert v).2) []
    let m : ValueMap := entries.foldl (fun (m : ValueMap) e => (m.exchange e.1 e.2).2) []
    ((∀ v ∈ values, v.Built) ∧ ∀ e ∈ entries, e.1.Built) ∧
      (s.Holds values ∧ m.Holds entries) ∧
      s = [d, .list .plain [e]] ∧ m = [(d, .string "last"), (.null, d)] := by
  intro d e values entries s m
  have hvalues : ∀ v ∈ values, v.Built := fun v hv =>
    ((by decide : ∀ v ∈ values, v.WellFormed) v hv).built
  have hentries : ∀ e ∈ entries, e.1.Built := fun e he =>
    ((by decide : ∀ e ∈ entries, e.1.WellFormed) e he).built
  exact ⟨⟨hvalues, hentries⟩, collections_hold hvalues hentries, rfl, rfl⟩

end BeanScript
