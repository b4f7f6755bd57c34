/-!
# Tables in insertion order

A table is a list of key–value pairs in the order in which their keys first came. Putting a key
that is present replaces its value and leaves it where it is, under the key first stored;
removing a key keeps the order of the others. Keys are compared by `==`, so a table may be keyed
by a type whose equality is coarser than identity.

## Main definitions

* `Table.get?`, `Table.put`, `Table.remove`
* `Table.ofList` — the table that putting the given pairs in turn leads to

## Main results

* `Table.get?_put` — the value last put under a key is the one found
* `Table.keys_put` — putting appends a new key and leaves the old ones in order
* `Table.isSome_get?_iff` — the keys are those that have a value
-/

namespace BeanScript

/-- Key–value pairs in the order in which their keys first came. -/
abbrev Table (κ : Type u) (ν : Type v) := List (κ × ν)

namespace Table

variable {κ : Type u} {ν : Type v} [BEq κ]

/-- The value under a key. -/
def get? : Table κ ν → κ → Option ν
  | [], _ => none
  | (k, v) :: t, key => if k == key then some v else get? t key

/-- Put a value under a key: in place where the key is present, at the end otherwise. -/
def put : Table κ ν → κ → ν → Table κ ν
  | [], key, value => [(key, value)]
  | (k, v) :: t, key, value => if k == key then (k, value) :: t else (k, v) :: put t key value

/-- Remove a key, keeping the order of the others. -/
def remove : Table κ ν → κ → Table κ ν
  | [], _ => []
  | (k, v) :: t, key => if k == key then t else (k, v) :: remove t key

/-- Whether a key is present. -/
def has (t : Table κ ν) (key : κ) : Bool :=
  (get? t key).isSome

/-- The keys in order. -/
def keys (t : Table κ ν) : List κ :=
  t.map Prod.fst

/-- Put the given pairs in turn into an empty table. -/
def ofList (pairs : List (κ × ν)) : Table κ ν :=
  pairs.foldl (fun t pair => put t pair.1 pair.2) []

@[simp] theorem get?_nil (key : κ) : get? ([] : Table κ ν) key = none := rfl

theorem get?_cons (k : κ) (v : ν) (t : Table κ ν) (key : κ) :
    get? ((k, v) :: t) key = if k == key then some v else get? t key := rfl

theorem put_cons (k : κ) (v : ν) (t : Table κ ν) (key : κ) (value : ν) :
    put ((k, v) :: t) key value
      = if k == key then (k, value) :: t else (k, v) :: put t key value := rfl

/-- The value last put under a key is the one found there; other keys keep theirs. -/
theorem get?_put [LawfulBEq κ] (t : Table κ ν) (key : κ) (value : ν) (other : κ) :
    get? (put t key value) other = if key == other then some value else get? t other := by
  induction t with
  | nil => rfl
  | cons pair t ih =>
    obtain ⟨k, v⟩ := pair
    by_cases h : k = key
    · subst h
      by_cases h' : k = other <;> simp [put, get?, h']
    · by_cases h' : k = other
      · subst h'
        have : ¬ key = k := fun e => h e.symm
        simp [put, get?, h, this]
      · simp [put, get?, h, h', ih]

/-- Putting leaves the keys alone where the key is present and appends it otherwise. -/
theorem keys_put [LawfulBEq κ] (t : Table κ ν) (key : κ) (value : ν) :
    keys (put t key value) = if key ∈ keys t then keys t else keys t ++ [key] := by
  induction t with
  | nil => simp [put, keys]
  | cons pair t ih =>
    obtain ⟨k, v⟩ := pair
    by_cases h : k = key
    · simp [put, keys, h]
    · have h' : ¬ key = k := fun e => h e.symm
      have ih' : List.map Prod.fst (put t key value)
          = if key ∈ List.map Prod.fst t then List.map Prod.fst t
            else List.map Prod.fst t ++ [key] := ih
      simp only [put, keys, beq_iff_eq, h, if_false, List.map_cons, ih', List.mem_cons, h',
        false_or]
      split <;> simp

theorem isSome_get?_iff [LawfulBEq κ] {t : Table κ ν} {key : κ} :
    (get? t key).isSome ↔ key ∈ keys t := by
  induction t with
  | nil => simp [get?, keys]
  | cons pair t ih =>
    obtain ⟨k, v⟩ := pair
    have ih' : (get? t key).isSome = true ↔ key ∈ t.map Prod.fst := ih
    rw [get?_cons]
    by_cases h : k = key
    · simp [keys, h]
    · have h' : ¬ key = k := fun e => h e.symm
      simpa only [keys, beq_iff_eq, h, if_false, List.map_cons, List.mem_cons, h', false_or]
        using ih'

end Table

end BeanScript
