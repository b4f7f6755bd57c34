import BeanScript.Ascending
import BeanScript.Types.Decl

/-!
# Reflection hints

A hint records that a method may be looked up, or even called, by name at run time. Hints are kept
in the order of declaring type, name and parameter types, one for each method, with the strongest
use that was asked for.

## Main definitions

* `HintMode`, `HintKey`, `Hint`, `Hints`
* `Hints.register`, `Hints.merge`, `Hints.canInvoke`
-/

namespace BeanScript

/-- What a method may be used for. To call a method one may also look it up. -/
inductive HintMode
  | introspect
  | invoke
deriving DecidableEq

/-- Whether the first use allows everything that the second does. -/
def HintMode.covers : HintMode → HintMode → Bool
  | .invoke, _ => true
  | .introspect, .introspect => true
  | .introspect, .invoke => false

/-- The identity of a method. -/
structure HintKey where
  owner : ClassName
  name : String
  parameterTypes : List ClassName
deriving DecidableEq

/-- The texts by which methods are ordered. -/
def HintKey.texts (k : HintKey) : List String :=
  k.owner.text :: k.name :: k.parameterTypes.map ClassName.text

/-- A method with the use it may be put to. -/
structure Hint where
  key : HintKey
  mode : HintMode
deriving DecidableEq

/-- The texts by which hints are ordered. -/
def Hint.texts (h : Hint) : List String :=
  h.key.texts

/-- Hints in ascending order of their methods. -/
abbrev Hints := List Hint

namespace Hints

/-- The use recorded for a method. -/
def mode? (hints : Hints) (key : HintKey) : Option HintMode :=
  (hints.find? (·.key == key)).map (·.mode)

/-- Record a use of a method, unless the use recorded for it covers the new one. -/
def add (hints : Hints) (h : Hint) : Hints :=
  match hints.mode? h.key with
  | some mode => if mode.covers h.mode then hints else Ascending.put Hint.texts h hints
  | none => Ascending.put Hint.texts h hints

/-- Record a use of a method of a type; the answer says whether the hints changed. -/
def register (hints : Hints) (owner : ClassName) (m : MethodDecl) (mode : HintMode) :
    Bool × Hints :=
  let key : HintKey := { owner, name := m.name, parameterTypes := m.parameterTypes }
  let changed := match hints.mode? key with
    | some recorded => !recorded.covers mode
    | none => true
  (changed, hints.add { key, mode })

/-- Record everything that other hints record. -/
def merge (hints other : Hints) : Hints :=
  other.foldl add hints

/-- Whether a method of the given name on the given type may be called. -/
def canInvoke (hints : Hints) (owner : ClassName) (name : String) : Bool :=
  hints.any fun h => h.mode == .invoke && h.key.owner == owner && h.key.name == name

end Hints

end BeanScript
