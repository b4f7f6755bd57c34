import BeanScript.Proofs.Ascending
import BeanScript.Proofs.Distinct
import BeanScript.Proofs.Table
import Mathlib.Order.Bounds.Basic

/-!
# What a history leaves behind

Tables, ascending lists and lists without repetition are built by one change after another. What
they hold in the end is said here without running the changes: by the positions of the changes in
the history. A key is in a table when some change puts it and no later one removes it; it has its
place since the first such change; and its value is the one put last. An element is in a list
without repetition when nothing equivalent was added before it.

Positions are compared, not contents, since a key that was removed and put again stands where the
later put has brought it.

## Main definitions

* `Table.Change`, `Table.after` — changes to a table, and the table they lead to from the empty one
* `Table.Since` — the position of the first put of a key since its last removal
* `Table.Follows` — the table has the keys, the order and the values that the history says
* `Distinct.First`, `Distinct.Follows` — the same for additions to a list without repetition

## Main results

* `Table.follows_after`, `Table.keys_make`
* `Ascending.find?_foldl_put` — at a key stands the last element put there
* `Distinct.follows_ofList`
-/

namespace BeanScript

/-! ### Tables -/

namespace Table

/-- A change to a table. -/
inductive Change (κ : Type u) (ν : Type v)
  | put (key : κ) (value : ν)
  | remove (key : κ)

variable {κ : Type u} {ν : Type v}

namespace Change

/-- The key whose value changes. -/
def key : Change κ ν → κ
  | .put key _ | .remove key => key

/-- What stands under the key after the change. -/
def value? : Change κ ν → Option ν
  | .put _ value => some value
  | .remove _ => none

variable [BEq κ]

/-- Make the change. -/
def make (t : Table κ ν) : Change κ ν → Table κ ν
  | .put key value => Table.put t key value
  | .remove key => Table.remove t key

/-- The keys after the change: one that is put stays where it is, or goes to the end if it is new;
one that is removed leaves the others in order. -/
def keysAfter [LawfulBEq κ] (keys : List κ) : Change κ ν → List κ
  | .put key _ => if key ∈ keys then keys else keys ++ [key]
  | .remove key => keys.filter (· != key)

end Change

/-- The table that the changes lead to from the empty one. -/
def after [BEq κ] (cs : List (Change κ ν)) : Table κ ν :=
  cs.foldl Change.make []

/-- The change at position `i` puts the key, and none after it removes the key. -/
def Stays (cs : List (Change κ ν)) (key : κ) (i : Nat) : Prop :=
  (∃ value, cs[i]? = some (.put key value)) ∧ ∀ j > i, cs[j]? ≠ some (.remove key)

/-- The change at position `i` is the first that puts the key since the key was last removed. -/
def Since (cs : List (Change κ ν)) (key : κ) (i : Nat) : Prop :=
  IsLeast {i | Stays cs key i} i

/-- The table has the keys, the order and the values that the history says. -/
structure Follows [BEq κ] (t : Table κ ν) (cs : List (Change κ ν)) : Prop where
  nodup : (keys t).Nodup
  mem_keys_iff : ∀ key, key ∈ keys t ↔ ∃ i, Since cs key i
  /-- Keys stand in the order in which they were first put since they were last removed. -/
  ordered : (keys t).Pairwise fun k l => ∀ i j, Since cs k i → Since cs l j → i < j
  /-- The last change of a key says what stands under it. -/
  get?_eq : ∀ key, get? t key = (cs.filter (·.key == key)).getLast?.bind Change.value?

section Positions

variable {cs : List (Change κ ν)} {c : Change κ ν} {k : κ} {i : Nat}

theorem Stays.lt_length (h : Stays cs k i) : i < cs.length := by
  obtain ⟨value, hi⟩ := h.1
  exact (List.getElem?_eq_some_iff.mp hi).1

theorem Since.lt_length (h : Since cs k i) : i < cs.length :=
  Stays.lt_length h.1

/-- One further change ends what it removes and starts what it puts. -/
theorem stays_concat_iff :
    Stays (cs ++ [c]) k i ↔
      (Stays cs k i ∧ c ≠ .remove k) ∨ (i = cs.length ∧ ∃ value, c = .put k value) := by
  constructor
  · rintro ⟨⟨value, hi⟩, hlater⟩
    rcases lt_or_ge i cs.length with hlt | hge
    · refine .inl ⟨⟨⟨value, ?_⟩, fun j hj hremove => hlater j hj ?_⟩, fun hc => ?_⟩
      · rwa [List.getElem?_append_left hlt] at hi
      · rwa [List.getElem?_append_left (List.getElem?_eq_some_iff.mp hremove).1]
      · exact hlater cs.length hlt (by rw [List.getElem?_concat_length, hc])
    · have hlength : i = cs.length := by
        have := (List.getElem?_eq_some_iff.mp hi).1
        rw [List.length_append, List.length_singleton] at this
        omega
      subst hlength
      rw [List.getElem?_concat_length] at hi
      exact .inr ⟨rfl, value, Option.some.inj hi⟩
  · rintro (⟨⟨⟨value, hi⟩, hlater⟩, hc⟩ | ⟨rfl, value, rfl⟩)
    · have hlt := (List.getElem?_eq_some_iff.mp hi).1
      refine ⟨⟨value, by rwa [List.getElem?_append_left hlt]⟩, fun j hj hremove => ?_⟩
      rcases lt_trichotomy j cs.length with hj' | rfl | hj'
      · rw [List.getElem?_append_left hj'] at hremove
        exact hlater j hj hremove
      · rw [List.getElem?_concat_length] at hremove
        exact hc (Option.some.inj hremove)
      · rw [List.getElem?_eq_none (by simpa using Nat.succ_le_of_lt hj')] at hremove
        cases hremove
    · refine ⟨⟨value, List.getElem?_concat_length⟩, fun j hj hremove => ?_⟩
      rw [List.getElem?_eq_none (by simpa using Nat.succ_le_of_lt hj)] at hremove
      cases hremove

/-- A key that stays has a first position from which it stays. -/
theorem exists_since (h : Stays cs k i) : ∃ j, Since cs k j := by
  classical
  have hex : ∃ j, Stays cs k j := ⟨i, h⟩
  exact ⟨Nat.find hex, Nat.find_spec hex, fun j hj => Nat.find_min' hex hj⟩

/-- A change of another key leaves a key where it has been. -/
theorem since_concat_of_ne (h : c.key ≠ k) : Since (cs ++ [c]) k i ↔ Since cs k i := by
  have hremove : c ≠ .remove k := by
    rintro rfl
    exact h rfl
  have hput : ¬ ∃ value, c = .put k value := by
    rintro ⟨value, rfl⟩
    exact h rfl
  simp only [Since, stays_concat_iff, hremove, hput, and_false, or_false, ne_eq, not_false_eq_true,
    and_true]

/-- Nothing is there of a key that has just been removed. -/
theorem not_since_concat_remove : ¬ Since (cs ++ [.remove k]) k i := by
  intro h
  rcases stays_concat_iff.mp h.1 with ⟨-, hne⟩ | ⟨-, value, hput⟩
  · exact hne rfl
  · cases hput

/-- Putting a key that is there leaves it where it has been. -/
theorem since_concat_put_of_since {value : ν} {j : Nat} (hj : Since cs k j) :
    Since (cs ++ [.put k value]) k i ↔ i = j := by
  have hleast : Since (cs ++ [.put k value]) k j := by
    refine ⟨stays_concat_iff.mpr (.inl ⟨hj.1, nofun⟩), fun l hl => ?_⟩
    rcases stays_concat_iff.mp hl with ⟨hl, -⟩ | ⟨rfl, -⟩
    · exact hj.2 hl
    · exact hj.lt_length.le
  exact ⟨fun hi => IsLeast.unique hi hleast, fun hi => hi ▸ hleast⟩

/-- Putting a key that is not there brings it to the end. -/
theorem since_concat_put_of_not {value : ν} (hnone : ∀ j, ¬ Since cs k j) :
    Since (cs ++ [.put k value]) k i ↔ i = cs.length := by
  have hstays : ∀ j, ¬ Stays cs k j := fun j hj => (exists_since hj).elim hnone
  have hleast : Since (cs ++ [.put k value]) k cs.length := by
    refine ⟨stays_concat_iff.mpr (.inr ⟨rfl, value, rfl⟩), fun l hl => ?_⟩
    rcases stays_concat_iff.mp hl with ⟨hl, -⟩ | ⟨rfl, -⟩
    · exact absurd hl (hstays l)
    · exact le_rfl
  exact ⟨fun hi => IsLeast.unique hi hleast, fun hi => hi ▸ hleast⟩

end Positions

variable [BEq κ] [LawfulBEq κ]

theorem get?_remove {t : Table κ ν} (h : (keys t).Nodup) (key other : κ) :
    get? (remove t key) other = if key == other then none else get? t other := by
  induction t with
  | nil => simp [remove]
  | cons e t ih =>
    obtain ⟨k, v⟩ := e
    obtain ⟨hk, ht⟩ := List.nodup_cons.mp h
    have hnone : get? t k = none := by
      rw [← Option.not_isSome_iff_eq_none, isSome_get?_iff]
      exact hk
    rw [remove]
    by_cases hkey : k = key
    · subst hkey
      by_cases hother : k = other
      · subst hother
        simp [hnone]
      · simp [get?_cons, hother]
    · by_cases hother : k = other
      · subst hother
        have : ¬ key = k := fun e => hkey e.symm
        simp [get?_cons, hkey, this]
      · simp [get?_cons, hkey, hother, ih ht]

theorem keys_remove {t : Table κ ν} (h : (keys t).Nodup) (key : κ) :
    keys (remove t key) = (keys t).filter (· != key) := by
  induction t with
  | nil => rfl
  | cons e t ih =>
    obtain ⟨k, v⟩ := e
    obtain ⟨hk, ht⟩ := List.nodup_cons.mp h
    have hcons : keys ((k, v) :: t) = k :: keys t := rfl
    rw [remove]
    by_cases hkey : k = key
    · subst hkey
      have hall : (keys t).filter (· != k) = keys t :=
        List.filter_eq_self.mpr fun l hl => bne_iff_ne.mpr fun hlk => hk (hlk ▸ hl)
      rw [if_pos (beq_self_eq_true k), hcons, List.filter_cons_of_neg (by simp), hall]
    · rw [if_neg (by simpa using hkey), hcons, List.filter_cons_of_pos (by simpa using hkey),
        ← ih ht]
      rfl

/-- A change replaces in place, appends, or removes without disturbing the rest. -/
theorem keys_make {t : Table κ ν} (h : (keys t).Nodup) (c : Change κ ν) :
    keys (c.make t) = c.keysAfter (keys t) := by
  cases c with
  | put key value => exact keys_put t key value
  | remove key => exact keys_remove h key

/-- A change sets what stands under its key and leaves the other values alone. -/
theorem get?_make {t : Table κ ν} (h : (keys t).Nodup) (c : Change κ ν) (key : κ) :
    get? (c.make t) key = if c.key == key then c.value? else get? t key := by
  cases c with
  | put k value => exact get?_put t k value key
  | remove k => exact get?_remove h k key

section Follows

variable {t : Table κ ν} {cs : List (Change κ ν)} {k : κ}

/-- One further change decides what stands under its key. -/
theorem Follows.get?_make (h : Follows t cs) (c : Change κ ν) (key : κ) :
    get? (c.make t) key = ((cs ++ [c]).filter (·.key == key)).getLast?.bind Change.value? := by
  rw [Table.get?_make h.nodup, List.filter_append, List.getLast?_append]
  by_cases hkey : c.key == key
  · simp [hkey]
  · simp [hkey, h.get?_eq key]

omit [LawfulBEq κ] in
/-- The keys that a change is not about keep their order. -/
theorem Follows.ordered_concat (h : Follows t cs) (c : Change κ ν) {ks : List κ}
    (hks : ks.Sublist (keys t)) (hne : ∀ l ∈ ks, c.key ≠ l) :
    ks.Pairwise fun k l => ∀ i j, Since (cs ++ [c]) k i → Since (cs ++ [c]) l j → i < j := by
  refine (h.ordered.sublist hks).imp_of_mem fun {x y} hx hy hxy i j hi hj => ?_
  exact hxy i j ((since_concat_of_ne (hne x hx)).mp hi) ((since_concat_of_ne (hne y hy)).mp hj)

/-- What is removed is gone, and the other keys keep their order. -/
theorem Follows.remove (h : Follows t cs) (k : κ) :
    Follows (Table.remove t k) (cs ++ [.remove k]) := by
  have hkeys : keys (Table.remove t k) = (keys t).filter (· != k) := keys_remove h.nodup k
  refine ⟨hkeys ▸ h.nodup.filter _, fun key => ?_, ?_, h.get?_make (.remove k)⟩
  · rw [hkeys, List.mem_filter, h.mem_keys_iff, bne_iff_ne]
    by_cases hkey : key = k
    · subst hkey
      simp [not_since_concat_remove]
    · have hne : (Change.remove k : Change κ ν).key ≠ key := fun e => hkey e.symm
      simp [hkey, since_concat_of_ne hne]
  · rw [hkeys]
    refine h.ordered_concat (.remove k) List.filter_sublist fun l hl e => ?_
    exact bne_iff_ne.mp (List.mem_filter.mp hl).2 e.symm

/-- A key that is put again has been there since the same position. -/
theorem Follows.put_of_mem (h : Follows t cs) (hk : k ∈ keys t) (value : ν) :
    Follows (Table.put t k value) (cs ++ [.put k value]) := by
  obtain ⟨i₀, hi₀⟩ := (h.mem_keys_iff k).mp hk
  have hsame : ∀ key i, Since (cs ++ [.put k value]) key i ↔ Since cs key i := by
    intro key i
    by_cases hkey : key = k
    · subst hkey
      rw [since_concat_put_of_since hi₀]
      exact ⟨fun e => e ▸ hi₀, fun hi => IsLeast.unique hi hi₀⟩
    · exact since_concat_of_ne fun e => hkey e.symm
  have hkeys : keys (Table.put t k value) = keys t := (keys_put t k value).trans (if_pos hk)
  refine ⟨hkeys ▸ h.nodup, fun key => ?_, ?_, h.get?_make (.put k value)⟩
  · simp only [hkeys, h.mem_keys_iff, hsame]
  · simpa only [hkeys, hsame] using h.ordered

/-- A key that is new has been there since the last position. -/
theorem Follows.put_of_not_mem (h : Follows t cs) (hk : k ∉ keys t) (value : ν) :
    Follows (Table.put t k value) (cs ++ [.put k value]) := by
  have hnone : ∀ j, ¬ Since cs k j := fun j hj => hk ((h.mem_keys_iff k).mpr ⟨j, hj⟩)
  have hkeys : keys (Table.put t k value) = keys t ++ [k] :=
    (keys_put t k value).trans (if_neg hk)
  have hne : ∀ l ∈ keys t, k ≠ l := fun l hl e => hk (e ▸ hl)
  refine ⟨nodup_keys_put k value h.nodup, fun key => ?_, ?_, h.get?_make (.put k value)⟩
  · rw [hkeys, List.mem_append, List.mem_singleton, h.mem_keys_iff]
    by_cases hkey : key = k
    · subst hkey
      simp [since_concat_put_of_not hnone]
    · have hput : (Change.put k value).key ≠ key := fun e => hkey e.symm
      simp [hkey, since_concat_of_ne hput]
  · rw [hkeys, List.pairwise_append]
    refine ⟨h.ordered_concat (.put k value) (.refl _) hne, List.pairwise_singleton _ _, ?_⟩
    intro x hx y hy i j hi hj
    obtain rfl := List.mem_singleton.mp hy
    rw [(since_concat_put_of_not hnone).mp hj]
    exact ((since_concat_of_ne (c := .put y value) (hne x hx)).mp hi).lt_length

/-- One further change is recorded. -/
theorem Follows.make (h : Follows t cs) (c : Change κ ν) : Follows (c.make t) (cs ++ [c]) := by
  cases c with
  | remove key => exact h.remove key
  | put key value =>
    by_cases hkey : key ∈ keys t
    · exact h.put_of_mem hkey value
    · exact h.put_of_not_mem hkey value

end Follows

/-- The table that a history leads to holds what the history says. -/
theorem follows_after (cs : List (Change κ ν)) : Follows (after cs) cs := by
  induction cs using List.reverseRecOn with
  | nil => exact ⟨.nil, by simp [after, keys, Since, Stays, IsLeast], .nil, fun _ => rfl⟩
  | append_singleton cs c ih =>
    rw [after, List.foldl_concat]
    exact ih.make c

end Table

/-! ### Ascending lists -/

namespace Ascending

variable {α : Type u} {κ : Type v} [LT κ] [DecidableLT κ] [Std.Asymm (α := κ) (· < ·)]
  {key : α → κ}

theorem find?_put_self (x : α) (l : List α) : find? key (key x) (put key x l) = some x := by
  have hirrefl : ¬ key x < key x := fun h => Std.Asymm.asymm _ _ h h
  induction l with
  | nil => simp [put, find?, hirrefl]
  | cons y l ih =>
    rw [put]
    split
    · simp [find?, hirrefl]
    · next hxy =>
      split
      · next hyx => rw [find?, if_neg hxy, if_pos hyx, ih]
      · simp [find?, hirrefl]

variable [IsTrans κ (· < ·)] [Std.Trichotomous (α := κ) (· < ·)]

omit [Std.Asymm (α := κ) (· < ·)] [IsTrans κ (· < ·)] in
theorem find?_cons_of_ne {x : α} {k : κ} (hne : key x ≠ k) (l : List α) :
    find? key k (x :: l) = if k < key x then none else find? key k l := by
  rw [find?]
  split
  · rfl
  · next hkx =>
    have hxk : key x < k :=
      Classical.not_not.mp fun hxk => hne (Std.Trichotomous.trichotomous _ _ hxk hkx)
    rw [if_pos hxk]

omit [Std.Asymm (α := κ) (· < ·)] in
theorem find?_put_of_ne {x : α} {k : κ} (hne : key x ≠ k) (l : List α) :
    find? key k (put key x l) = find? key k l := by
  induction l with
  | nil => rw [put, find?_cons_of_ne hne, find?, ite_self]
  | cons y l ih =>
    rw [put]
    split
    · next hxy =>
      rw [find?_cons_of_ne hne]
      split
      · next hkx => rw [find?, if_pos (IsTrans.trans _ _ _ hkx hxy)]
      · rfl
    · next hxy =>
      split
      · rw [find?, find?, ih]
      · next hyx =>
        have hkey : key x = key y := Std.Trichotomous.trichotomous _ _ hxy hyx
        rw [find?_cons_of_ne hne, find?_cons_of_ne (hkey ▸ hne), hkey]

/-- At a key stands the last element put there. -/
theorem find?_foldl_put [BEq κ] [LawfulBEq κ] (xs : List α) (k : κ) :
    find? key k (xs.foldl (fun l x => put key x l) [])
      = (xs.filter (key · == k)).getLast? := by
  induction xs using List.reverseRecOn with
  | nil => rfl
  | append_singleton xs x ih =>
    rw [List.foldl_concat, List.filter_append, List.getLast?_append]
    by_cases hkey : key x = k
    · subst hkey
      simp [find?_put_self]
    · simp [hkey, find?_put_of_ne hkey, ih]

/-- In a list that ascends, looking up is finding an element. -/
theorem find?_eq_some_iff {l : List α} (h : l.Pairwise fun y z => key y < key z) {k : κ} {x : α} :
    find? key k l = some x ↔ x ∈ l ∧ key x = k := by
  have hirrefl : ∀ a : κ, ¬ a < a := fun a h => Std.Asymm.asymm _ _ h h
  induction l with
  | nil => simp [find?]
  | cons y l ih =>
    obtain ⟨hy, hl⟩ := List.pairwise_cons.mp h
    rw [find?, List.mem_cons]
    rcases eq_or_ne (key y) k with rfl | hne
    · rw [if_neg (hirrefl _), if_neg (hirrefl _), Option.some.injEq]
      constructor
      · rintro rfl
        exact ⟨.inl rfl, rfl⟩
      · rintro ⟨rfl | hx, hkey⟩
        · rfl
        · exact absurd (hkey ▸ hy x hx) (hirrefl _)
    · have hyx : key x = k → x ≠ y := fun hkey e => hne (e ▸ hkey)
      split
      · next hky =>
        refine ⟨nofun, ?_⟩
        rintro ⟨rfl | hx, rfl⟩
        · exact absurd rfl hne
        · exact absurd (IsTrans.trans _ _ _ hky (hy x hx)) (hirrefl _)
      · next hky =>
        split
        · exact (ih hl).trans (and_congr_left fun hkey => (or_iff_right (hyx hkey)).symm)
        · next hyk => exact absurd (Std.Trichotomous.trichotomous _ _ hyk hky) hne

end Ascending

/-! ### Lists without repetition -/

namespace Distinct

variable {α : Type u}

/-- Nothing equivalent to `x` was added before position `i`, where something equivalent was. -/
def First (same : α → α → Bool) (added : List α) (x : α) (i : Nat) : Prop :=
  IsLeast {i | ∃ y, added[i]? = some y ∧ same y x} i

/-- The list has what was added, each element where it first was. -/
structure Follows (same : α → α → Bool) (l added : List α) : Prop where
  pairwise : l.Pairwise fun x y => ¬ same x y
  mem_iff : ∀ x, x ∈ l ↔ ∃ i, added[i]? = some x ∧ First same added x i
  /-- Elements stand in the order in which they were first added. -/
  ordered : l.Pairwise fun x y => ∀ i j, First same added x i → First same added y j → i < j

variable {same : α → α → Bool} {added : List α} {x : α} {i : Nat}

theorem First.lt_length (h : First same added x i) : i < added.length := by
  obtain ⟨y, hi, -⟩ := h.1
  exact (List.getElem?_eq_some_iff.mp hi).1

/-- Later additions do not change where something was first added. -/
theorem First.append (h : First same added x i) (later : List α) :
    First same (added ++ later) x i := by
  obtain ⟨y, hi, hyx⟩ := h.1
  refine ⟨⟨y, by rwa [List.getElem?_append_left h.lt_length], hyx⟩, ?_⟩
  rintro j ⟨z, hj, hzx⟩
  rcases lt_or_ge j added.length with hlt | hge
  · rw [List.getElem?_append_left hlt] at hj
    exact h.2 ⟨z, hj, hzx⟩
  · exact h.lt_length.le.trans hge

/-- What is kept stands where it was first added. -/
theorem first_of_mem_ofList (htrans : ∀ x y z, same x y → same y z → same x z)
    (hrefl : ∀ x ∈ added, same x x) (hx : x ∈ ofList same added) :
    ∃ i, added[i]? = some x ∧ First same added x i := by
  obtain ⟨before, after, rfl, hbefore⟩ := (mem_ofList_iff htrans).mp hx
  have hself : same x x := hrefl x (by simp)
  refine ⟨before.length, by simp, ⟨x, by simp, hself⟩, ?_⟩
  rintro j ⟨y, hj, hyx⟩
  by_contra hlt
  rw [not_le] at hlt
  rw [List.getElem?_append_left hlt] at hj
  exact hbefore y (List.mem_of_getElem? hj) hyx

/-- What is kept stands as far in front as it was first added. -/
theorem ordered_ofList (htrans : ∀ x y z, same x y → same y z → same x z)
    (hrefl : ∀ x ∈ added, same x x) : (ofList same added).Pairwise fun x y =>
      ∀ i j, First same added x i → First same added y j → i < j := by
  induction added using List.reverseRecOn with
  | nil => exact .nil
  | append_singleton added z ih =>
    have hself : ∀ x ∈ added, same x x := fun x hx => hrefl x (List.mem_append_left _ hx)
    have hold : ∀ y ∈ ofList same added, ∀ i, First same (added ++ [z]) y i →
        First same added y i := by
      intro y hy i hi
      obtain ⟨j, -, hj⟩ := first_of_mem_ofList htrans hself hy
      exact IsLeast.unique hi (hj.append [z]) ▸ hj
    have hordered := (ih hself).imp_of_mem fun {x y} hx hy hxy i j hi hj =>
      hxy i j (hold x hx i hi) (hold y hy j hj)
    rw [ofList, List.foldl_concat, ← ofList]
    by_cases hany : (ofList same added).any (same · z)
    · rwa [add_of_any hany]
    · rw [add_of_not_any hany, List.pairwise_append]
      refine ⟨hordered, List.pairwise_singleton _ _, fun x hx y hy i j hi hj => ?_⟩
      obtain rfl := List.mem_singleton.mp hy
      -- what was added before `y` and is equivalent to it would have been kept, or kept out
      have hlast : added.length ≤ j := by
        obtain ⟨w, hw, hwy⟩ := hj.1
        by_contra hlt
        rw [not_le] at hlt
        rw [List.getElem?_append_left hlt] at hw
        obtain ⟨v, hv, hvw⟩ : ∃ v ∈ ofList same added, v = w ∨ same v w :=
          exists_mem_ofList (List.mem_of_getElem? hw)
        have hvy : same v y := by
          rcases hvw with rfl | hvw
          · exact hwy
          · exact htrans v w y hvw hwy
        exact hany (List.any_eq_true.mpr ⟨v, hv, hvy⟩)
      exact (hold x hx i hi).lt_length.trans_le hlast

/-- Adding elements in turn keeps the first of each, in order. -/
theorem follows_ofList (htrans : ∀ x y z, same x y → same y z → same x z)
    (hrefl : ∀ x ∈ added, same x x) : Follows same (ofList same added) added := by
  refine ⟨pairwise_ofList added, fun x => ⟨first_of_mem_ofList htrans hrefl, ?_⟩,
    ordered_ofList htrans hrefl⟩
  rintro ⟨i, hi, hfirst⟩
  obtain ⟨hlt, hget⟩ := List.getElem?_eq_some_iff.mp hi
  refine (mem_ofList_iff htrans).mpr ⟨added.take i, added.drop (i + 1), ?_, fun y hy hyx => ?_⟩
  · rw [← hget, ← List.drop_eq_getElem_cons hlt, List.take_append_drop]
  · obtain ⟨j, hj, rfl⟩ := List.mem_take_iff_getElem.mp hy
    have hji : i ≤ j := hfirst.2 ⟨_, List.getElem?_eq_getElem _, hyx⟩
    omega

end Distinct

end BeanScript
