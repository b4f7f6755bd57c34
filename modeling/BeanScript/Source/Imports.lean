import BeanScript.Ascending
import BeanScript.ClassName
import BeanScript.Source.Token
import BeanScript.Table

/-!
# Spelling type names

The first top-level type of a simple name that is written claims that name: it is imported and
written short from then on. Another top-level type of the same simple name is written in full.
Types that need no import are always written short and claim nothing.

## Main definitions

* `Imports` — the claimed simple names with the top-level types that claimed them
* `Imports.spell` — how a type is written, and the claims afterwards
* `Imports.spellAll` — the texts of a sequence of tokens, and the claims afterwards
* `Imports.sorted` — the names to import

## Main results

* `Imports.spellAll_append` — spelling goes on where it stopped
-/

namespace BeanScript

/-- Simple names of top-level types, each with the canonical name of the type that claimed it. -/
abbrev Imports := Table String String

namespace Imports

/-- How a type is written, and the claims afterwards. -/
def spell (imports : Imports) (type : ClassName) : String × Imports :=
  if type.isImplicit then (type.simpleName, imports)
  else
    match type.path? with
    | none => (type.text, imports)
    | some path =>
      let topLevel := path.lead ++ path.short
      match Table.get? imports path.short with
      | none => (type.simpleName, Table.put imports path.short topLevel)
      | some owner =>
        (if owner = topLevel then type.simpleName else type.text, imports)

/-- The text of a token, and the claims afterwards. -/
def spellToken (imports : Imports) : Token → String × Imports
  | .text s => (s, imports)
  | .type name => imports.spell name

/-- The texts of tokens in turn, and the claims afterwards. -/
def spellAll (imports : Imports) : List Token → List String × Imports
  | [] => ([], imports)
  | token :: tokens =>
    let (s, claimed) := imports.spellToken token
    let (rest, final) := spellAll claimed tokens
    (s :: rest, final)

@[simp] theorem spellAll_nil (imports : Imports) : imports.spellAll [] = ([], imports) := rfl

/-- Tokens are spelled in turn, each with the claims that those before it have left. -/
theorem spellAll_append (imports : Imports) (first second : List Token) :
    imports.spellAll (first ++ second)
      = ((imports.spellAll first).1 ++ ((imports.spellAll first).2.spellAll second).1,
        ((imports.spellAll first).2.spellAll second).2) := by
  induction first generalizing imports with
  | nil => rfl
  | cons token first ih => simp [spellAll, ih]

/-- The canonical names to import, ascending. -/
def sorted (imports : Imports) : List String :=
  imports.foldl (fun names claim => Ascending.put id claim.2 names) []

end Imports

end BeanScript
