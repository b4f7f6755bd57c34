import BeanScript.Proofs.Source.Quoting
import BeanScript.Source.Lines

/-!
# One statement on a line

The claims that a renderer has in the end tell how it has written every type, so that what it has
written is known without following it: it is the text of expressions and the lines of statements,
spelled in that way. Nothing in these lines ends a line unless a name does. Numbers are written with
digits and signs, and what a literal holds is escaped.

## Main definitions

* `Token.written` — the text of a token where it is known how each type is written

## Main results

* `Imports.spellAll_eq_map` — the claims in the end tell what was written
* `Expr.join_tokens`, `Block.join_tokens` — the layout in tokens, by texts and lines
* `Block.onLine_lines` — lines are lines
* `Renderer.block_lines` — what a renderer writes for a block
-/

namespace BeanScript

/-! ### How tokens are written -/

/-- The text of a token where it is known how each type is written. -/
def Token.written (spell : ClassName → String) : Token → String
  | .text s => s
  | .type name => spell name

/-- The claims in the end tell what was written. -/
theorem Imports.spellAll_eq_map (imports : Imports) (tokens : List Token) :
    (imports.spellAll tokens).1
      = tokens.map (Token.written (imports.spellAll tokens).2.spelling) := by
  induction tokens generalizing imports with
  | nil => rfl
  | cons token tokens ih =>
    have hrest := ih (imports.spellToken token).2
    have htoken : (imports.spellToken token).1
        = token.written ((imports.spellToken token).2.spellAll tokens).2.spelling := by
      cases token with
      | text s => rfl
      | type name =>
        obtain ⟨-, hsettled, htext⟩ := imports.spell_spec name
        have hextends := ((imports.spell name).2.spellAll_spec tokens).1
        exact htext.trans (hsettled.spelling_eq hextends).symm
    exact congrArg₂ List.cons htoken hrest

/-- A separator goes before every text but the first. -/
theorem intercalate_cons_eq (separator s : String) (texts : List String) :
    separator.intercalate (s :: texts) = s ++ String.join (texts.map (separator ++ ·)) := by
  induction texts generalizing s with
  | nil => simp
  | cons t texts ih =>
    rw [String.intercalate_cons_cons, ih, List.map_cons, String.join_cons]
    simp only [String.append_assoc]

section Layout

variable (spell : ClassName → String)

mutual

/-- The tokens of an expression, written out. -/
theorem Expr.join_tokens (e : Expr) :
    String.join (e.tokens.map (Token.written spell)) = e.text spell := by
  cases e with
  | literal l =>
    rw [Expr.tokens, Expr.text, Literal.source, List.map_map]
    exact congrArg String.join (List.map_id _)
  | typeLiteral type => simp [Expr.tokens, Expr.text, Token.written]
  | staticField owner name => simp [Expr.tokens, Expr.text, Token.written, String.append_assoc]
  | var name => simp [Expr.tokens, Expr.text, Token.written]
  | construct type args =>
    simp [Expr.tokens, Expr.text, Token.written, join_listTokens args, String.append_assoc]
  | newArray component elements =>
    simp [Expr.tokens, Expr.text, Token.written, join_listTokens elements, String.append_assoc]
  | staticCall owner method args =>
    simp [Expr.tokens, Expr.text, Token.written, join_listTokens args, String.append_assoc]
  | call receiver method args =>
    simp [Expr.tokens, Expr.text, Token.written, Expr.join_tokens receiver,
      join_listTokens args, String.append_assoc]
termination_by structural e

/-- The tokens of arguments, written out. -/
theorem join_listTokens (es : List Expr) :
    String.join ((listTokens es).map (Token.written spell))
      = ", ".intercalate (argumentTexts spell es) := by
  cases es with
  | nil => rfl
  | cons e es =>
    rw [listTokens, argumentTexts, List.map_append, String.join_append, Expr.join_tokens e,
      join_tailTokens es, intercalate_cons_eq]
termination_by structural es

theorem join_tailTokens (es : List Expr) :
    String.join ((tailTokens es).map (Token.written spell))
      = String.join ((argumentTexts spell es).map (", " ++ ·)) := by
  cases es with
  | nil => rfl
  | cons e es =>
    simp [tailTokens, argumentTexts, Token.written, Expr.join_tokens e, join_tailTokens es,
      String.append_assoc]
termination_by structural es

end

theorem join_indentation (depth : Nat) :
    String.join ((indentation depth).map (Token.written spell)) = margin depth := by
  induction depth with
  | zero => rfl
  | succ depth ih =>
    have hmargin : margin (depth + 1) = indentUnit ++ margin depth := by
      apply String.toList_injective
      rw [margin, margin, String.toList_append, String.toList_ofList, String.toList_ofList,
        Nat.mul_succ, Nat.add_comm, List.replicate_add]
      rfl
    rw [hmargin, ← ih, indentation, List.replicate_succ, List.map_cons, String.join_cons]
    rfl

mutual

/-- The tokens of a statement, written out. -/
theorem Stmt.join_tokens (s : Stmt) (depth : Nat) :
    String.join ((s.tokens depth).map (Token.written spell))
      = String.join ((s.lines spell depth).map (· ++ "\n")) := by
  cases s with
  | expr e =>
    simp [Stmt.tokens, Stmt.lines, Token.written, Expr.join_tokens, join_indentation,
      String.append_assoc]
  | declare type name init =>
    simp [Stmt.tokens, Stmt.lines, Token.written, Expr.join_tokens, join_indentation,
      String.append_assoc]
  | ret e =>
    simp [Stmt.tokens, Stmt.lines, Token.written, Expr.join_tokens, join_indentation,
      String.append_assoc]
  | nested body =>
    simp [-String.reduceAppend, Stmt.tokens, Stmt.lines, Token.written,
      Block.join_tokens body (depth + 1), join_indentation, String.append_assoc]
termination_by structural s

/-- The tokens of statements, written out. -/
theorem Block.join_tokens (body : List Stmt) (depth : Nat) :
    String.join ((Block.tokens depth body).map (Token.written spell))
      = String.join ((Block.lines spell depth body).map (· ++ "\n")) := by
  cases body with
  | nil => rfl
  | cons s rest =>
    rw [Block.tokens, Block.lines, List.map_append, String.join_append, List.map_append,
      String.join_append, Stmt.join_tokens s depth, Block.join_tokens rest depth]
termination_by structural body

end

end Layout

/-! ### No line ends early -/

/-- Nothing in the text ends a line. -/
def Text.OnLine (s : String) : Prop :=
  '\n' ∉ s.toList

namespace Text.OnLine

instance : DecidablePred OnLine := fun s => inferInstanceAs (Decidable ('\n' ∉ s.toList))

variable {s t : String}

@[simp] theorem append_iff : OnLine (s ++ t) ↔ OnLine s ∧ OnLine t := by
  rw [OnLine, String.toList_append, List.mem_append, not_or]
  rfl

theorem intercalate {texts : List String} (hs : OnLine s) (h : ∀ t ∈ texts, OnLine t) :
    OnLine (s.intercalate texts) := by
  induction texts with
  | nil => exact List.not_mem_nil
  | cons t texts ih =>
    rw [List.forall_mem_cons] at h
    cases texts with
    | nil =>
      rw [String.intercalate_singleton]
      exact h.1
    | cons u texts =>
      rw [String.intercalate_cons_cons]
      simp [h.1, hs, ih h.2]

end Text.OnLine

open Text

theorem lineFeed_not_mem_toDigits (n : Nat) : '\n' ∉ Nat.toDigits 10 n := fun h => by
  have := Nat.isDigit_of_mem_toDigits (by decide) (by decide) h
  cases this

theorem onLine_int (n : Int) : OnLine (toString n) := by
  have hnat : ∀ n : Nat, OnLine n.repr := fun n => by
    rw [OnLine, Nat.repr, String.toList_ofList]
    exact lineFeed_not_mem_toDigits n
  cases n with
  | ofNat n => exact hnat n
  | negSucc n => exact OnLine.append_iff.mpr ⟨by decide, hnat _⟩

namespace Decimal.Layout

variable {digits : List Char}

theorem lineFeed_not_mem_trimZeros (h : '\n' ∉ digits) : '\n' ∉ trimZeros digits := by
  intro hmem
  rw [trimZeros, List.mem_reverse] at hmem
  exact h (List.mem_reverse.mp ((List.dropWhile_sublist _).subset hmem))

theorem lineFeed_not_mem_positional (h : '\n' ∉ digits) (point : Int) :
    '\n' ∉ positional digits point := by
  have htake : '\n' ∉ digits.take point.toNat := fun hmem => h (List.mem_of_mem_take hmem)
  have hdrop : '\n' ∉ digits.drop point.toNat := fun hmem => h (List.mem_of_mem_drop hmem)
  rw [positional]
  split
  · simp [h]
  · dsimp only
    split <;> simp [htake, hdrop]

theorem lineFeed_not_mem_exponential (h : '\n' ∉ digits) (exponent : Int) :
    '\n' ∉ exponential digits exponent := by
  have htake : '\n' ∉ digits.take 1 := fun hmem => h (List.mem_of_mem_take hmem)
  have hdrop : '\n' ∉ digits.drop 1 := fun hmem => h (List.mem_of_mem_drop hmem)
  have hexponent : '\n' ∉ exponent.repr.toList := onLine_int exponent
  rw [exponential]
  split
  · simp [htake, hexponent]
  · simp only [List.drop_one] at hdrop
    simp [htake, hdrop, hexponent]

theorem onLine_write (layout : Layout) (d : Digits) : OnLine (layout.write d) := by
  have hdigits := lineFeed_not_mem_trimZeros (lineFeed_not_mem_toDigits d.coefficient)
  rw [OnLine, write, String.toList_ofList]
  split
  · exact lineFeed_not_mem_positional hdigits _
  · exact lineFeed_not_mem_exponential hdigits _

theorem onLine_writeFinite (layout : Layout) (negative : Bool) (mantissa : Nat) (exponent : Int) :
    OnLine (layout.writeFinite negative mantissa exponent) := by
  rw [writeFinite, OnLine.append_iff]
  constructor
  · cases negative <;> decide
  · split
    · decide
    · exact layout.onLine_write _

end Decimal.Layout

namespace Literal

theorem onLine_doubleSource (bits : UInt64) : OnLine (doubleSource bits) := by
  rw [doubleSource]
  split
  · decide
  · decide
  · decide
  · exact OnLine.append_iff.mpr ⟨doubleLayout.onLine_writeFinite _ _ _, by decide⟩

/-- Nothing in a literal ends a line, whatever it holds. -/
theorem onLine_source (l : Literal) : OnLine l.source := by
  rw [source]
  cases l with
  | null => decide
  | bool b => cases b <;> decide
  | int n => simpa [fragments] using onLine_int n.toInt
  | long n => simpa [fragments] using ⟨onLine_int n.toInt, by decide⟩
  | double bits => simpa [fragments] using onLine_doubleSource bits
  | char c =>
    have hinner : OnLine (escape '\'' (String.singleton c)) :=
      (escape_readsBack (.inr rfl) _).1.lineFeed
    simp only [fragments, String.join_cons, String.join_nil, OnLine.append_iff]
    exact ⟨by decide, hinner, by decide, by decide⟩
  | string s =>
    have hinner : OnLine (escape '"' s) := (escape_readsBack (.inl rfl) s).1.lineFeed
    simp only [fragments, String.join_cons, String.join_nil, OnLine.append_iff]
    exact ⟨by decide, hinner, by decide, by decide⟩

end Literal

theorem ClassName.onLine_simpleName {type : ClassName} (h : OnLine type.text) :
    OnLine type.simpleName := by
  rw [simpleName]
  cases hpath : type.path? with
  | none => exact h
  | some path =>
    rw [← text_of_path? hpath] at h
    simp only [OnLine.append_iff] at h ⊢
    exact ⟨h.1.2, h.2⟩

theorem Imports.onLine_spelling (imports : Imports) {type : ClassName} (h : OnLine type.text) :
    OnLine (imports.spelling type) := by
  rw [spelling]
  split
  · exact type.onLine_simpleName h
  · exact h

section Names

variable {spell : ClassName → String}

mutual

/-- An expression is on one line unless a name in it is not. -/
theorem Expr.onLine_text (hspell : ∀ type : ClassName, OnLine type.text → OnLine (spell type))
    (e : Expr) (h : ∀ name ∈ e.names, OnLine name) : OnLine (e.text spell) := by
  cases e with
  | literal l => exact l.onLine_source
  | typeLiteral type =>
    have htype := hspell type (h _ List.mem_cons_self)
    simp +decide [Expr.text, htype]
  | staticField owner name =>
    simp only [Expr.names, List.forall_mem_cons] at h
    simp +decide [Expr.text, hspell owner h.1, h.2.1]
  | var name => exact h name List.mem_cons_self
  | construct type args =>
    rw [Expr.names, List.forall_mem_cons] at h
    have hargs := onLine_argumentTexts hspell args h.2
    simp +decide [Expr.text, hspell type h.1, OnLine.intercalate _ hargs]
  | newArray component elements =>
    rw [Expr.names, List.forall_mem_cons] at h
    have helements := onLine_argumentTexts hspell elements h.2
    simp +decide [Expr.text, hspell component h.1, OnLine.intercalate _ helements]
  | staticCall owner method args =>
    rw [Expr.names, List.forall_mem_cons, List.forall_mem_cons] at h
    have hargs := onLine_argumentTexts hspell args h.2.2
    simp +decide [Expr.text, hspell owner h.1, h.2.1, OnLine.intercalate _ hargs]
  | call receiver method args =>
    rw [Expr.names, List.forall_mem_append, List.forall_mem_cons] at h
    have hreceiver := Expr.onLine_text hspell receiver h.1
    have hargs := onLine_argumentTexts hspell args h.2.2
    simp +decide [Expr.text, hreceiver, h.2.1, OnLine.intercalate _ hargs]
termination_by structural e

theorem onLine_argumentTexts
    (hspell : ∀ type : ClassName, OnLine type.text → OnLine (spell type)) (es : List Expr)
    (h : ∀ name ∈ argumentNames es, OnLine name) : ∀ s ∈ argumentTexts spell es, OnLine s := by
  cases es with
  | nil => exact List.forall_mem_nil _
  | cons e es =>
    rw [argumentNames, List.forall_mem_append] at h
    exact List.forall_mem_cons.mpr
      ⟨Expr.onLine_text hspell e h.1, onLine_argumentTexts hspell es h.2⟩
termination_by structural es

end

theorem onLine_margin (depth : Nat) : OnLine (margin depth) := by
  rw [OnLine, margin, String.toList_ofList]
  exact fun h => absurd (List.eq_of_mem_replicate h) (by decide)

mutual

/-- The lines of a statement are lines unless a name in it is not on one. -/
theorem Stmt.onLine_lines (hspell : ∀ type : ClassName, OnLine type.text → OnLine (spell type))
    (s : Stmt) (depth : Nat) (h : ∀ name ∈ s.names, OnLine name) :
    ∀ line ∈ s.lines spell depth, OnLine line := by
  have hmargin := onLine_margin depth
  cases s with
  | expr e =>
    have he := e.onLine_text hspell h
    simp +decide [Stmt.lines, hmargin, he]
  | declare type name init =>
    simp only [Stmt.names, List.forall_mem_cons] at h
    have hinit := init.onLine_text hspell h.2.2
    simp +decide [Stmt.lines, hmargin, hspell type h.1, h.2.1, hinit]
  | ret e =>
    have he := e.onLine_text hspell h
    simp +decide [Stmt.lines, hmargin, he]
  | nested body =>
    have hbody := Block.onLine_lines hspell body (depth + 1) h
    have hopen : OnLine (margin depth ++ "\x7b") := OnLine.append_iff.mpr ⟨hmargin, by decide⟩
    have hclose : OnLine (margin depth ++ "\x7d") := OnLine.append_iff.mpr ⟨hmargin, by decide⟩
    rw [Stmt.lines, List.forall_mem_cons, List.forall_mem_append]
    exact ⟨hopen, hbody, List.forall_mem_singleton.mpr hclose⟩
termination_by structural s

theorem Block.onLine_lines (hspell : ∀ type : ClassName, OnLine type.text → OnLine (spell type))
    (body : List Stmt) (depth : Nat) (h : ∀ name ∈ Block.names body, OnLine name) :
    ∀ line ∈ Block.lines spell depth body, OnLine line := by
  cases body with
  | nil => exact List.forall_mem_nil _
  | cons s rest =>
    rw [Block.names, List.forall_mem_append] at h
    exact List.forall_mem_append.mpr
      ⟨s.onLine_lines hspell depth h.1, Block.onLine_lines hspell rest depth h.2⟩
termination_by structural body

end

end Names

/-! ### What a renderer writes -/

namespace Renderer

/-- Where no name ends a line, a renderer that is `depth` levels deep writes the lines of a block,
and is as deep afterwards. -/
theorem block_lines (r : Renderer Buffer) {b : Block} (h : ∀ name ∈ Block.names b, OnLine name) :
    let lines := Block.lines (block b r).imports.spelling r.depth b
    (block b r).output.text = r.output.text ++ String.join (lines.map (· ++ "\n")) ∧
      (∀ line ∈ lines, OnLine line) ∧ (block b r).depth = r.depth := by
  refine ⟨?_, Block.onLine_lines (fun type => (block b r).imports.onLine_spelling) b r.depth h, ?_⟩
  · rw [block_eq_emit, text_emit, Imports.spellAll_eq_map, Block.join_tokens]
    rfl
  · rw [block_eq_emit, depth_emit]

/-- Line feeds in literals are written by their letter, and an empty block is two lines. -/
theorem block_lines_literals :
    let b : Block := [.nested [.declare ⟨"a.Text"⟩ "x" (.literal (.string "1\n2")), .nested []],
      .expr (.staticCall ⟨"b.Text"⟩ "of" [.var "x", .newArray ⟨"char"⟩ [.literal (.char '\n')]])]
    (∀ name ∈ Block.names b, OnLine name) ∧
      (block b (fresh ({} : Buffer))).output.text = String.join ([
        "\x7b",
        "    Text x = \"1\\n2\";",
        "    \x7b",
        "    \x7d",
        "\x7d",
        "b.Text.of(x, new char[] \x7b'\\n'\x7d);"].map (· ++ "\n")) := by
  intro b
  have hnames : ∀ name ∈ Block.names b, OnLine name := by decide
  refine ⟨hnames, ?_⟩
  rw [(block_lines (fresh {}) hnames).1]
  decide

end Renderer

end BeanScript
