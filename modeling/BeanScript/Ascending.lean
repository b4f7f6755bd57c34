/-!
# Ascending lists

A list whose elements ascend strictly in a key. Putting an element replaces the one with an equal
key, or else takes the place that the order gives it.

## Main definitions

* `Ascending.put`, `Ascending.find?`
-/

namespace BeanScript.Ascending

variable {α : Type u} {κ : Type v} [LT κ] [DecidableLT κ]

/-- Put `x` into a list that ascends in `key`, in place of an element with an equal key. -/
def put (key : α → κ) (x : α) : List α → List α
  | [] => [x]
  | y :: l =>
    if key x < key y then x :: y :: l
    else if key y < key x then y :: put key x l
    else x :: l

/-- The element whose key is `k`. -/
def find? (key : α → κ) (k : κ) : List α → Option α
  | [] => none
  | y :: l =>
    if k < key y then none
    else if key y < k then find? key k l
    else some y

/-- Every element but perhaps the new one was there before. -/
theorem mem_of_mem_put {key : α → κ} {x y : α} {l : List α} (h : y ∈ put key x l) :
    y = x ∨ y ∈ l := by
  induction l with
  | nil => simpa [put] using h
  | cons z l ih =>
    simp only [put] at h
    split at h
    · simpa using h
    · split at h
      · rcases List.mem_cons.1 h with rfl | h
        · simp
        · rcases ih h with rfl | h <;> simp [*]
      · rcases List.mem_cons.1 h with rfl | h <;> simp [*]

/-- The new element is there afterwards. -/
theorem mem_put (key : α → κ) (x : α) (l : List α) : x ∈ put key x l := by
  induction l with
  | nil => simp [put]
  | cons z l ih =>
    simp only [put]
    split
    · simp
    · split <;> simp [ih]

end BeanScript.Ascending
