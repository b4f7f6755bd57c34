import BeanScript.Source.Imports
import BeanScript.Source.Sink

/-!
# Writing scripts to an output

A writer hands the fragments of blocks and expressions to an output as it goes. The names claimed
so far are kept from one block or expression to the next, and also while the output refuses.

## Main definitions

* `Writer`, `Writer.block`, `Writer.expr`
-/

namespace BeanScript

/-- An output, with the names claimed so far. -/
structure Writer where
  imports : Imports := []
  sink : Sink

namespace Writer

/-- Write tokens. -/
def tokens (w : Writer) (tokens : List Token) : Writer :=
  let (fragments, imports) := w.imports.spellAll tokens
  { imports, sink := w.sink.writeAll fragments }

/-- Write a block at depth zero. -/
def block (w : Writer) (b : Block) : Writer :=
  w.tokens (Block.tokens 0 b)

/-- Write an expression. -/
def expr (w : Writer) (e : Expr) : Writer :=
  w.tokens e.tokens

end Writer

end BeanScript
