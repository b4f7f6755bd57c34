import BeanScript.Bean.Equality
import BeanScript.Distinct

/-!
# Sets and maps of values

Sets and maps keep the order of first insertion and compare by equality of values. Inserting an
element that is present changes nothing; inserting under a key that is present replaces the value
and keeps the key first stored.

## Main definitions

* `ValueSet`, with `insert`, `tryInsert`, `contains` and `ofList`
* `ValueMap`, with `insert`, `exchange`, `get?` and `ofList`

## Main results

* `ValueSet.tryInsert_eq`, `ValueMap.exchange_eq` — what inserting answers
-/

namespace BeanScript

/-- Distinct values in the order of their insertion. -/
abbrev ValueSet := List Value

namespace ValueSet

/-- Whether an element equal to `v` is present. -/
def contains (s : ValueSet) (v : Value) : Bool :=
  s.any (· == v)

/-- Insert an element at the end, unless an equal one is present. -/
def insert (s : ValueSet) (v : Value) : ValueSet :=
  Distinct.add (· == ·) s v

/-- Insert an element as above; the answer says whether it was new. -/
def tryInsert (s : ValueSet) (v : Value) : Bool × ValueSet :=
  if s.contains v then (false, s) else (true, s ++ [v])

/-- Insert the given values in turn into the empty set. -/
def ofList (values : List Value) : ValueSet :=
  Distinct.ofList (· == ·) values

theorem tryInsert_eq (s : ValueSet) (v : Value) :
    s.tryInsert v = (!s.contains v, s.insert v) := by
  rw [tryInsert, insert, Distinct.add, contains]
  cases s.any (· == v) <;> rfl

end ValueSet

/-- Entries with distinct keys in the order of their insertion. -/
abbrev ValueMap := Table Value Value

namespace ValueMap

/-- The value under a key equal to `key`. -/
def get? (m : ValueMap) (key : Value) : Option Value :=
  Table.get? m key

/-- Insert an entry, in place of the value of an equal key. -/
def insert (m : ValueMap) (key value : Value) : ValueMap :=
  Table.put m key value

/-- Insert an entry as above; the answer is the value that has been replaced. -/
def exchange : ValueMap → Value → Value → Option Value × ValueMap
  | [], key, value => (none, [(key, value)])
  | (k, v) :: m, key, value =>
    if k == key then (some v, (k, value) :: m)
    else
      let (replaced, rest) := exchange m key value
      (replaced, (k, v) :: rest)

/-- Insert the given entries in turn into the empty map. -/
def ofList (entries : List (Value × Value)) : ValueMap :=
  Table.ofList entries

theorem exchange_eq (m : ValueMap) (key value : Value) :
    m.exchange key value = (m.get? key, m.insert key value) := by
  induction m with
  | nil => rfl
  | cons entry m ih =>
    obtain ⟨k, v⟩ := entry
    rw [exchange, ih]
    simp only [get?, insert, Table.get?_cons, Table.put_cons]
    split <;> rfl

end ValueMap

end BeanScript
