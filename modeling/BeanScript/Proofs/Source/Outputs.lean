import BeanScript.Proofs.Source.Spelling
import BeanScript.Source.Output

/-!
# One text for all outputs

What a renderer hands to an output does not depend on the output: it is the fragments of the tokens
of what it writes, in turn, provided that the output takes the indentation and the end of a line as
it takes other fragments. Buffers, limited outputs and lists of fragments do. So the three end up
with the same claims, a buffer with all of the text, and a limited output with as many leading
fragments as fit.

## Main definitions

* `LawfulOutput` — indentation and line ends are fragments
* `Renderer.emit` — handing over the fragments of tokens
* `Renderer.whole`, `Renderer.limited`, `Renderer.fragments` — the three kinds of output, after
  pieces were written to them

## Main results

* `Renderer.block_eq_emit`, `Renderer.expr_eq_emit` — a renderer writes the tokens of the layout
* `Renderer.finish_block`, `Writer.pieces_eq_limited` — rendering from scratch and writers do what
  renderers do
* `Renderer.limited_eq_longest` — where a limited output stops
-/

namespace BeanScript

/-- An output that takes indentation and line ends like any other fragment, one level at a time. -/
class LawfulOutput (ω : Type) [Output ω] : Prop where
  startLine_eq (o : ω) (depth : Nat) :
    Output.startLine o depth = (List.replicate depth indentUnit).foldl Output.write o
  endLine_eq (o : ω) : Output.endLine o = Output.write o "\n"

/-- Fixed texts claim nothing. -/
theorem Imports.spellAll_text (imports : Imports) (fragments : List String) :
    imports.spellAll (fragments.map .text) = (fragments, imports) := by
  induction fragments with
  | nil => rfl
  | cons fragment rest ih => simp only [List.map_cons, spellAll, spellToken, ih]

namespace Renderer

variable {ω : Type} [Output ω]

/-- Write tokens. -/
def emit (r : Renderer ω) (tokens : List Token) : Renderer ω :=
  let (fragments, imports) := r.imports.spellAll tokens
  { r with output := fragments.foldl Output.write r.output, imports }

theorem emit_append (r : Renderer ω) (first second : List Token) :
    r.emit (first ++ second) = (r.emit first).emit second := by
  simp only [emit, Imports.spellAll_append, List.foldl_append]

theorem emit_text (r : Renderer ω) (s : String) (rest : List Token) :
    r.emit (.text s :: rest) = (r.write s).emit rest := rfl

theorem emit_type (r : Renderer ω) (name : ClassName) (rest : List Token) :
    r.emit (.type name :: rest) = (r.type name).emit rest := rfl

theorem literal_eq_emit (r : Renderer ω) (l : Literal) :
    r.literal l = r.emit (l.fragments.map .text) := by
  have hwrite : ∀ (fragments : List String) (r : Renderer ω), fragments.foldl write r
      = { r with output := fragments.foldl Output.write r.output } := by
    intro fragments
    induction fragments with
    | nil => exact fun r => rfl
    | cons fragment rest ih => exact fun r => ih (r.write fragment)
  rw [literal, emit, Imports.spellAll_text, hwrite]

@[simp] theorem depth_emit (r : Renderer ω) (tokens : List Token) :
    (r.emit tokens).depth = r.depth := rfl

mutual

theorem expr_eq_emit (e : Expr) (r : Renderer ω) : expr e r = r.emit e.tokens := by
  cases e with
  | literal l => rw [expr, literal_eq_emit, Expr.tokens]
  | typeLiteral name => rfl
  | staticField owner name => rfl
  | var name => rfl
  | construct name args =>
    have hargs := fun r => separated_eq_emit args true r
    simp only [expr, hargs, Expr.tokens, emit_text, emit_type, emit_append, if_true]
    rfl
  | newArray component elements =>
    have helements := fun r => separated_eq_emit elements true r
    simp only [expr, helements, Expr.tokens, emit_text, emit_type, emit_append, if_true]
    rfl
  | staticCall owner method args =>
    rw [expr, separated_eq_emit args, Expr.tokens]
    simp only [emit_text, emit_type, emit_append]
    rfl
  | call receiver method args =>
    rw [expr, separated_eq_emit args, expr_eq_emit receiver, Expr.tokens]
    simp only [emit_text, emit_append]
    rfl
termination_by structural e

theorem separated_eq_emit (es : List Expr) (first : Bool) (r : Renderer ω) :
    separated first es r = r.emit (if first then listTokens es else tailTokens es) := by
  cases es with
  | nil => cases first <;> rfl
  | cons e es =>
    rw [separated, expr_eq_emit e, separated_eq_emit es]
    cases first with
    | true => simp [listTokens, emit_append]
    | false => simp [tailTokens, emit_append, emit_text]
termination_by structural es

end

theorem startLine_eq_emit [LawfulOutput ω] (r : Renderer ω) :
    r.startLine = r.emit (indentation r.depth) := by
  have htokens : indentation r.depth = (List.replicate r.depth indentUnit).map .text :=
    List.map_replicate.symm
  rw [startLine, emit, htokens, Imports.spellAll_text, LawfulOutput.startLine_eq]

theorem endLine_eq_emit [LawfulOutput ω] (r : Renderer ω) : r.endLine = r.emit [.text "\n"] := by
  rw [endLine, LawfulOutput.endLine_eq]
  rfl

/-- The end of a statement. -/
theorem finish_eq_emit [LawfulOutput ω] (r : Renderer ω) :
    (r.write ";").endLine = r.emit [.text ";", .text "\n"] := by
  rw [endLine_eq_emit]
  rfl

mutual

theorem stmt_eq_emit [LawfulOutput ω] (s : Stmt) (r : Renderer ω) :
    stmt s r = r.emit (s.tokens r.depth) := by
  cases s with
  | expr e =>
    rw [stmt, expr_eq_emit, startLine_eq_emit, finish_eq_emit, Stmt.tokens, emit_append,
      emit_append]
  | declare name x init =>
    rw [stmt, expr_eq_emit, startLine_eq_emit, finish_eq_emit, Stmt.tokens, emit_append,
      emit_append, emit_append]
    rfl
  | ret e =>
    rw [stmt, expr_eq_emit, startLine_eq_emit, finish_eq_emit, Stmt.tokens, emit_append,
      emit_append]
    rfl
  | nested body =>
    have hbody := fun r => block_eq_emit body r
    simp only [stmt, hbody, startLine_eq_emit, endLine_eq_emit, Stmt.tokens, emit_append]
    rfl
termination_by structural s

theorem block_eq_emit [LawfulOutput ω] (body : List Stmt) (r : Renderer ω) :
    block body r = r.emit (Block.tokens r.depth body) := by
  cases body with
  | nil => rfl
  | cons s rest =>
    rw [block, stmt_eq_emit s, block_eq_emit rest, Block.tokens, emit_append, depth_emit]
termination_by structural body

end

/-- Write a piece. -/
def piece (r : Renderer ω) : Piece → Renderer ω
  | .block b => block b r
  | .expr e => expr e r

/-- Write pieces in turn. -/
def pieces (r : Renderer ω) (ps : List Piece) : Renderer ω :=
  ps.foldl piece r

theorem pieces_eq_emit [LawfulOutput ω] {r : Renderer ω} (h : r.depth = 0) (ps : List Piece) :
    r.pieces ps = r.emit (ps.flatMap Piece.tokens) := by
  induction ps generalizing r with
  | nil => rfl
  | cons p ps ih =>
    have hpiece : r.piece p = r.emit p.tokens := by
      cases p with
      | block b => rw [piece, block_eq_emit, h, Piece.tokens]
      | expr e => exact expr_eq_emit e r
    rw [pieces, List.foldl_cons, hpiece, List.flatMap_cons, emit_append]
    exact ih h

end Renderer

/-! ### Three kinds of output -/

namespace Buffer

theorem foldl_write (buffer : Buffer) (fragments : List String) :
    fragments.foldl Output.write buffer = { text := buffer.text ++ String.join fragments } := by
  induction fragments generalizing buffer with
  | nil => simp
  | cons fragment rest ih =>
    rw [List.foldl_cons, ih, String.join_cons, ← String.append_assoc]
    rfl

instance : LawfulOutput Buffer where
  startLine_eq buffer _ := (foldl_write buffer _).symm
  endLine_eq buffer := by
    rw [Output.endLine, Output.write]
    rfl

end Buffer

/-- A buffer takes the texts of tokens after what is there. -/
theorem Renderer.text_emit (r : Renderer Buffer) (tokens : List Token) :
    (r.emit tokens).output.text
      = r.output.text ++ String.join (r.imports.spellAll tokens).1 :=
  congrArg Buffer.text (Buffer.foldl_write r.output _)

namespace Sink

instance : LawfulOutput Sink where
  startLine_eq sink depth := by
    induction depth generalizing sink with
    | zero => rfl
    | succ depth ih => exact ih (sink.write indentUnit)
  endLine_eq _ := rfl

end Sink

namespace Fragments

theorem foldl_write (fragments : Fragments) (more : List String) :
    more.foldl Output.write fragments = { list := fragments.list ++ more } := by
  induction more generalizing fragments with
  | nil => simp
  | cons fragment rest ih =>
    rw [List.foldl_cons, ih]
    simp [Output.write]

instance : LawfulOutput Fragments where
  startLine_eq fragments _ := (foldl_write fragments _).symm
  endLine_eq _ := rfl

end Fragments

/-! ### Limited outputs -/

namespace Sink

/-- A limited output takes the longest run of leading fragments that fits, and has refused one
exactly where not all of them fit. -/
theorem writeAll_spec {sink : Sink} {limit : Nat} (hlimit : sink.limit = some limit)
    (hrefused : sink.refused = false) (hsize : sink.text.utf8ByteSize ≤ limit)
    (fragments : List String) :
    ∃ k ≤ fragments.length,
      (∀ j ≤ fragments.length,
        (sink.text ++ String.join (fragments.take j)).utf8ByteSize ≤ limit ↔ j ≤ k) ∧
      (sink.writeAll fragments).text = sink.text ++ String.join (fragments.take k) ∧
      ((sink.writeAll fragments).refused = false ↔
        (sink.text ++ String.join fragments).utf8ByteSize ≤ limit) := by
  induction fragments generalizing sink with
  | nil => exact ⟨0, Nat.le_refl _, by simp [hsize], by simp, by simp [hsize, hrefused]⟩
  | cons fragment rest ih =>
    have hcons : ∀ more : List String, sink.text ++ String.join (fragment :: more)
        = sink.text ++ fragment ++ String.join more := fun more => by
      rw [String.join_cons, String.append_assoc]
    by_cases hfits : sink.text.utf8ByteSize + fragment.utf8ByteSize ≤ limit
    · let taken : Sink := { sink with text := sink.text ++ fragment }
      have hwrite : sink.write fragment = taken := by
        simp [write, taken, hrefused, fits, hlimit, hfits]
      have htaken : taken.limit = some limit := hlimit
      obtain ⟨k, hk, hlongest, htext, hall⟩ :=
        ih htaken hrefused (by rwa [String.utf8ByteSize_append])
      rw [writeAll_cons, hwrite, hcons]
      refine ⟨k + 1, Nat.succ_le_succ hk, fun j hj => ?_, ?_, hall⟩
      · cases j with
        | zero => simp [hsize]
        | succ j =>
          rw [List.take_succ_cons, hcons, hlongest j (Nat.le_of_succ_le_succ hj),
            Nat.succ_le_succ_iff]
      · rw [List.take_succ_cons, hcons, htext]
    · have hwrite : sink.write fragment = { sink with refused := true } := by
        simp [write, hrefused, fits, hlimit, hfits]
      -- whatever comes after the refused fragment, it does not fit either
      have hlarge : ∀ more : List String,
          ¬ (sink.text ++ String.join (fragment :: more)).utf8ByteSize ≤ limit := by
        intro more
        rw [hcons, String.utf8ByteSize_append, String.utf8ByteSize_append]
        omega
      rw [writeAll_cons, hwrite, writeAll_of_refused rfl]
      refine ⟨0, Nat.zero_le _, fun j _ => ?_, by simp, by simpa using hlarge rest⟩
      cases j with
      | zero => simp [hsize]
      | succ j => simpa using hlarge (rest.take j)

end Sink

/-! ### Renderings -/

namespace Renderer

/-- A renderer over an output, before it has written anything. -/
def fresh {ω : Type} (output : ω) : Renderer ω where
  output := output

/-- A renderer over a buffer, after it has written pieces. -/
def whole (ps : List Piece) : Renderer Buffer :=
  (fresh {}).pieces ps

/-- A renderer over an output with a limit, after it has written pieces. -/
def limited (limit : Option Nat) (ps : List Piece) : Renderer Sink :=
  (fresh { limit }).pieces ps

/-- The fragments that a renderer hands to its output while it writes pieces. -/
def fragments (ps : List Piece) : List String :=
  ((fresh ({} : Fragments)).pieces ps).output.list

theorem pieces_fresh {ω : Type} [Output ω] [LawfulOutput ω] (output : ω) (ps : List Piece) :
    (fresh output).pieces ps =
      { output := (Imports.spellAll [] (ps.flatMap Piece.tokens)).1.foldl Output.write output
        imports := (Imports.spellAll [] (ps.flatMap Piece.tokens)).2 } :=
  pieces_eq_emit rfl ps

theorem fragments_eq (ps : List Piece) :
    fragments ps = (Imports.spellAll [] (ps.flatMap Piece.tokens)).1 := by
  rw [fragments, pieces_fresh, Fragments.foldl_write]
  rfl

theorem text_whole (ps : List Piece) : (whole ps).output.text = String.join (fragments ps) := by
  rw [whole, pieces_fresh, ← fragments_eq, Buffer.foldl_write]
  exact String.empty_append

theorem output_limited (limit : Option Nat) (ps : List Piece) :
    (limited limit ps).output = Sink.writeAll { limit } (fragments ps) := by
  rw [limited, pieces_fresh, fragments_eq]
  rfl

/-- Whether the output takes what it is handed makes no difference to the claims. -/
theorem imports_limited (limit : Option Nat) (ps : List Piece) :
    (limited limit ps).imports = (whole ps).imports := by
  rw [limited, whole, pieces_fresh, pieces_fresh]

/-- After a refusal, further pieces change nothing in the output. -/
theorem output_limited_append {limit : Option Nat} {ps : List Piece}
    (h : (limited limit ps).output.refused = true) (more : List Piece) :
    (limited limit (ps ++ more)).output = (limited limit ps).output := by
  rw [output_limited] at h ⊢
  rw [output_limited, fragments_eq (ps ++ more), List.flatMap_append, Imports.spellAll_append,
    ← fragments_eq, Sink.writeAll_append, Sink.writeAll_of_refused h]

/-- Rendering from scratch is rendering to a buffer. -/
theorem finish_whole (ps : List Piece) :
    (whole ps).finish = Source.ofTokens (ps.flatMap Piece.tokens) := by
  rw [finish, text_whole, fragments_eq, whole, pieces_fresh]
  rfl

theorem finish_block (b : Block) : (block b (fresh {})).finish = Source.ofBlock b := by
  have h := finish_whole [.block b]
  rwa [List.flatMap_singleton] at h

theorem finish_expr (e : Expr) : (expr e (fresh {})).finish = Source.ofExpr e := by
  have h := finish_whole [.expr e]
  rwa [List.flatMap_singleton] at h

end Renderer

/-- A writer to an output is a renderer over it. -/
theorem Writer.pieces_eq_limited (limit : Option Nat) (ps : List Piece) :
    ({ sink := { limit } } : Writer).pieces ps =
      { imports := (Renderer.limited limit ps).imports
        sink := (Renderer.limited limit ps).output } := by
  rw [Writer.pieces_eq, Renderer.output_limited, Renderer.fragments_eq, Renderer.limited,
    Renderer.pieces_fresh]
  rfl

theorem Sink.isSome_finish?_iff {sink : Sink} : sink.finish?.isSome ↔ sink.refused = false := by
  rw [finish?]
  cases sink.refused <;> simp

namespace Renderer

/-- Step by step, a renderer over an output with a limit claims the same names as one over a buffer.
The limited output ends up with the longest run of leading fragments that fits, takes nothing any
more once it has refused a fragment, and is fine in the end exactly where the whole text fits. -/
theorem limited_eq_longest (ps : List Piece) (limit : Nat) :
    (∀ n, (limited limit (ps.take n)).imports = (whole (ps.take n)).imports) ∧
      (whole ps).finish.body = String.join (fragments ps) ∧
      (∃ k ≤ (fragments ps).length,
        (∀ j ≤ (fragments ps).length,
          (String.join ((fragments ps).take j)).utf8ByteSize ≤ limit ↔ j ≤ k) ∧
        (limited limit ps).output.text = String.join ((fragments ps).take k)) ∧
      (∀ n, (limited limit (ps.take n)).output.refused →
        (limited limit ps).output = (limited limit (ps.take n)).output) ∧
      ((limited limit ps).output.finish?.isSome ↔
        (whole ps).finish.body.utf8ByteSize ≤ limit) := by
  have hlimit : ({ limit := some limit } : Sink).limit = some limit := rfl
  obtain ⟨k, hk, hlongest, htext, hall⟩ :=
    Sink.writeAll_spec hlimit rfl (Nat.zero_le _) (fragments ps)
  simp only [String.empty_append] at hlongest htext hall
  have hbody : (whole ps).finish.body = String.join (fragments ps) := text_whole ps
  refine ⟨fun n => imports_limited _ _, hbody, ⟨k, hk, hlongest, ?_⟩, fun n h => ?_, ?_⟩
  · rw [output_limited, htext]
  · have hsplit := output_limited_append h (ps.drop n)
    rwa [List.take_append_drop] at hsplit
  · rw [Sink.isSome_finish?_iff, output_limited, hall, hbody]

/-- The output refuses a keyword, and what comes later and is shorter is lost as well. -/
theorem limited_eq_longest_keyword :
    let ps : List Piece := [.block [.nested [.ret (.var "x")]], .expr (.var "y")]
    (limited (some 8) (ps.take 1)).output.refused ∧
      (limited (some 8) ps).output.text = "\x7b\n    " ∧
      (whole ps).finish.body = "\x7b\n    return x;\n\x7d\ny" := by
  intro ps
  have hrefused : (limited (some 8) (ps.take 1)).output.refused := by decide
  refine ⟨hrefused, ?_, ?_⟩
  · rw [(limited_eq_longest ps 8).2.2.2.1 1 hrefused]
    decide
  · rw [(limited_eq_longest ps 8).2.1]
    decide

end Renderer

end BeanScript
