import BeanScript.Source.Imports
import BeanScript.Text.Occurs

/-!
# Source text

A rendered script: the types it imports, and one line for each statement.

## Main definitions

* `Source` — imports and body; `Source.text` puts them together, `Source.mentions` searches them
* `Source.ofTokens`, `Source.ofBlock`, `Source.ofExpr` — rendering from scratch
-/

namespace BeanScript

/-- Source text with the imports it needs. -/
structure Source where
  /-- Canonical names of the imported top-level types, ascending. -/
  imports : List String
  body : String
deriving DecidableEq

namespace Source

/-- The source of a sequence of tokens. -/
def ofTokens (tokens : List Token) : Source :=
  let (fragments, claims) := Imports.spellAll [] tokens
  { imports := claims.sorted, body := String.join fragments }

/-- The source of a block, at depth zero. -/
def ofBlock (block : Block) : Source :=
  ofTokens (Block.tokens 0 block)

/-- The source of a single expression. -/
def ofExpr (e : Expr) : Source :=
  ofTokens e.tokens

/-- The whole text: one line for each import, a blank line after them, and the body. -/
def text (s : Source) : String :=
  String.join (s.imports.map fun name => "import " ++ name ++ ";\n") ++
    (if s.imports.isEmpty then "" else "\n") ++ s.body

/-- Whether the body or the name of an import contains `needle`. -/
def mentions (s : Source) (needle : String) : Bool :=
  Text.occursIn needle s.body || s.imports.any (Text.occursIn needle)

end Source

end BeanScript
