import BeanScript.Bean.Value

/-!
# Equality of values and definitions

Two values are equal when they have the same kind and equal parts in the same order; two doubles,
when they have the same bits. The tables of a definition are the exception: properties, attributes,
qualifiers and the attributes of a qualifier are compared without regard to their order.

## Main definitions

* `Value.same`, `Holder.same`, `Definition.same`, with the instances of `BEq`
* `tableWithin` — every key of a table is in another one, with an equal value
-/

namespace BeanScript

mutual

/-- Equality of values. -/
def Value.same : Value → Value → Bool
  | .atom a, .atom b => a == b
  | .array c xs, .array d ys => c == d && valuesSame xs ys
  | .list k xs, .list l ys => k == l && valuesSame xs ys
  | .set k xs, .set l ys => k == l && valuesSame xs ys
  | .map k xs, .map l ys => k == l && entriesSame xs ys
  | .bean d, .bean e => d.same e
  | _, _ => false
termination_by structural v => v

/-- Equality of sequences of values. -/
def valuesSame : List Value → List Value → Bool
  | [], [] => true
  | x :: xs, y :: ys => x.same y && valuesSame xs ys
  | _, _ => false
termination_by structural xs => xs

/-- Equality of sequences of map entries. -/
def entriesSame : List (Value × Value) → List (Value × Value) → Bool
  | [], [] => true
  | (j, x) :: xs, (k, y) :: ys => j.same k && x.same y && entriesSame xs ys
  | _, _ => false
termination_by structural xs => xs

/-- Equality of constructor arguments. -/
def Holder.same : Holder → Holder → Bool
  | ⟨v, t, n⟩, ⟨w, u, m⟩ => v.same w && t == u && n == m
termination_by structural h => h

/-- Equality of positional arguments. -/
def indexedSame : List (Nat × Holder) → List (Nat × Holder) → Bool
  | [], [] => true
  | (i, x) :: xs, (j, y) :: ys => i == j && x.same y && indexedSame xs ys
  | _, _ => false
termination_by structural xs => xs

/-- Equality of sequences of constructor arguments. -/
def holdersSame : List Holder → List Holder → Bool
  | [], [] => true
  | x :: xs, y :: ys => x.same y && holdersSame xs ys
  | _, _ => false
termination_by structural xs => xs

/-- Whether each pair of the first table has an equal value under its key in the second. -/
def tableWithin : List (String × Value) → List (String × Value) → Bool
  | [], _ => true
  | (k, v) :: xs, ys =>
    (match Table.get? ys k with
      | some w => v.same w
      | none => false) && tableWithin xs ys
termination_by structural xs => xs

/-- Whether each qualifier of the first table has equal attributes in the second. -/
def qualifiersWithin :
    List (String × List (String × Value)) → List (String × List (String × Value)) → Bool
  | [], _ => true
  | (k, v) :: xs, ys =>
    (match Table.get? ys k with
      | some w => v.length == w.length && tableWithin v w
      | none => false) && qualifiersWithin xs ys
termination_by structural xs => xs

/-- Equality of definitions. -/
def Definition.same : Definition → Definition → Bool
  | ⟨settings, indexed, generic, properties, attributes, qualifiers⟩,
    ⟨settings', indexed', generic', properties', attributes', qualifiers'⟩ =>
    settings == settings' && indexedSame indexed indexed' && holdersSame generic generic' &&
      (properties.length == properties'.length && tableWithin properties properties') &&
      (attributes.length == attributes'.length && tableWithin attributes attributes') &&
      (qualifiers.length == qualifiers'.length && qualifiersWithin qualifiers qualifiers')
termination_by structural d => d

end

instance : BEq Value := ⟨Value.same⟩

instance : BEq Holder := ⟨Holder.same⟩

instance : BEq Definition := ⟨Definition.same⟩

end BeanScript
