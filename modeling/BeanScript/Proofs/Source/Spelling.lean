import BeanScript.Proofs.Table
import BeanScript.Source.Writer

/-!
# Spelled names

A claimed simple name stays with the type that claimed it, so a writer spells a type in the same way
however often it comes, and how it does so is known from the claims in the end: short where the type
needs no import or owns its simple name, in full otherwise.

Two types that need an import are never spelled alike. A type that needs none claims nothing,
though, so it is spelled like the type that owns its simple name.

## Main definitions

* `Imports.owns`, `Imports.writesShort`, `Imports.spelling` — how a type is written under given
  claims
* `Piece`, `Writer.pieces`, `Writer.spelled` — a run of a writer, and the texts of its tokens

## Main results

* `Imports.spelling_eq_iff` — which types are spelled alike
* `Writer.mem_spelled` — the claims in the end tell how every type was written
* `Writer.spelled_eq_iff` — which types are spelled alike in a run
-/

namespace BeanScript

/-! ### The characters of a class name -/

namespace ClassName

variable {c d : ClassName} {p q : TypePath}

theorem eq_of_text (h : c.text = d.text) : c = d := by
  cases c
  cases d
  exact congrArg ClassName.mk h

/-- The type path begins with an upper-case character, and what stands before it does not. -/
theorem cutAtType_head {atStart : Bool} {cs before rest : List Char}
    (h : cutAtType atStart cs = some (before, rest)) :
    (∃ u us, rest = u :: us ∧ Text.isUppercase u) ∧
      (atStart → ∀ u us, before = u :: us → ¬ Text.isUppercase u) := by
  induction cs generalizing atStart before with
  | nil => cases h
  | cons c cs ih =>
    rw [cutAtType] at h
    split at h
    · next hcut =>
      cases h
      rw [Bool.and_eq_true] at hcut
      exact ⟨⟨c, cs, rfl, hcut.2⟩, fun _ _ _ hnil => by cases hnil⟩
    · next hgo =>
      obtain ⟨⟨before', rest'⟩, hrest, heq⟩ := Option.map_eq_some_iff.mp h
      cases heq
      refine ⟨(ih hrest).1, fun hstart u us hu => ?_⟩
      cases hu
      rw [Bool.and_eq_true, not_and] at hgo
      exact hgo hstart

theorem simpleName_of_path? (h : c.path? = some p) : c.simpleName = p.short ++ p.nested := by
  rw [simpleName, h]

/-- The simple name of a type begins with an upper-case character, and the name of its top-level
type is the first segment of it. -/
theorem simpleName_head (h : c.path? = some p) :
    (∃ u us, c.simpleName.toList = u :: us ∧ Text.isUppercase u) ∧
      p.short = String.ofList (c.simpleName.toList.takeWhile (· != '.')) := by
  rw [simpleName_of_path? h]
  obtain ⟨⟨before, rest⟩, hcut, rfl⟩ := Option.map_eq_some_iff.mp h
  obtain ⟨u, us, hrest, hu⟩ := (cutAtType_head hcut).1
  have hchars : (String.ofList (rest.takeWhile (· != '.')) ++
      String.ofList (rest.dropWhile (· != '.'))).toList = rest := by
    rw [String.toList_append, String.toList_ofList, String.toList_ofList,
      List.takeWhile_append_dropWhile]
  exact ⟨⟨u, us, hchars.trans hrest, hu⟩, congrArg String.ofList (by rw [hchars])⟩

/-- What stands before the type path begins with another character. -/
theorem text_head (h : c.path? = some p) (hlead : p.lead ≠ "") :
    ∃ u us, c.text.toList = u :: us ∧ ¬ Text.isUppercase u := by
  obtain ⟨⟨before, rest⟩, hcut, rfl⟩ := Option.map_eq_some_iff.mp h
  cases before with
  | nil => exact absurd rfl hlead
  | cons u us =>
    refine ⟨u, us ++ rest, ?_, (cutAtType_head hcut).2 rfl u us rfl⟩
    exact (cutAtType_append hcut).symm

/-- A type that needs an import is in a package. -/
theorem exists_path?_of_not_isImplicit (h : ¬ c.isImplicit) :
    ∃ p, c.path? = some p ∧ p.lead ≠ "" := by
  cases hpath : c.path? with
  | none => exact absurd (by simp [isImplicit, hpath]) h
  | some p =>
    refine ⟨p, rfl, fun hlead => h ?_⟩
    have hpackage : c.package = "" := by simp [package, hpath, hlead]
    simp [isImplicit, hpackage]

end ClassName

/-! ### Claims -/

namespace Imports

variable {imports later : Imports} {c d : ClassName}

/-- The top-level type of the type has claimed its simple name. -/
def owns (imports : Imports) (c : ClassName) : Bool :=
  match c.path? with
  | some path => Table.get? imports path.short == some (path.lead ++ path.short)
  | none => false

/-- Under these claims the type is written short. -/
def writesShort (imports : Imports) (c : ClassName) : Bool :=
  c.isImplicit || imports.owns c

/-- How the type is written under these claims. -/
def spelling (imports : Imports) (c : ClassName) : String :=
  if imports.writesShort c then c.simpleName else c.text

/-- All claims are still there later. -/
def Extends (imports later : Imports) : Prop :=
  ∀ short owner, Table.get? imports short = some owner → Table.get? later short = some owner

/-- The simple name of the type is claimed, if it has to be. -/
def Settled (imports : Imports) (c : ClassName) : Prop :=
  c.isImplicit ∨ ∃ path owner, c.path? = some path ∧ Table.get? imports path.short = some owner

theorem owns_iff {p : TypePath} (h : c.path? = some p) :
    imports.owns c ↔ Table.get? imports p.short = some (p.lead ++ p.short) := by
  rw [owns, h]
  exact beq_iff_eq

theorem writesShort_iff : imports.writesShort c ↔ c.isImplicit ∨ imports.owns c := by
  rw [writesShort, Bool.or_eq_true]

theorem Extends.refl (imports : Imports) : imports.Extends imports := fun _ _ h => h

theorem Extends.trans {final : Imports} (h : imports.Extends later) (h' : later.Extends final) :
    imports.Extends final := fun short owner hget => h' short owner (h short owner hget)

/-- Once its simple name is claimed, further claims do not change how a type is written. -/
theorem Settled.spelling_eq (hc : imports.Settled c) (h : imports.Extends later) :
    later.spelling c = imports.spelling c := by
  rcases hc with himplicit | ⟨path, owner, hpath, hget⟩
  · rw [spelling, spelling, writesShort, writesShort, himplicit, Bool.true_or, Bool.true_or]
  · have howns : later.owns c = imports.owns c := by
      rw [Bool.eq_iff_iff, owns_iff hpath, owns_iff hpath, hget, h _ _ hget]
    rw [spelling, spelling, writesShort, writesShort, howns]

/-- Writing a type settles how it is written, and takes no claim back. -/
theorem spell_spec (imports : Imports) (c : ClassName) :
    imports.Extends (imports.spell c).2 ∧ (imports.spell c).2.Settled c ∧
      (imports.spell c).1 = (imports.spell c).2.spelling c := by
  by_cases himplicit : c.isImplicit
  · have hspell : imports.spell c = (c.simpleName, imports) := by rw [spell, if_pos himplicit]
    rw [hspell]
    refine ⟨.refl imports, .inl himplicit, ?_⟩
    rw [spelling, if_pos (writesShort_iff.mpr (.inl himplicit))]
  · obtain ⟨p, hpath, -⟩ := ClassName.exists_path?_of_not_isImplicit himplicit
    have hshort : ∀ claims : Imports, claims.writesShort c ↔
        Table.get? claims p.short = some (p.lead ++ p.short) := fun claims => by
      rw [writesShort_iff, owns_iff hpath, or_iff_right himplicit]
    cases hget : Table.get? imports p.short with
    | none =>
      -- the type claims its simple name
      have hspell : imports.spell c
          = (c.simpleName, Table.put imports p.short (p.lead ++ p.short)) := by
        rw [spell, if_neg himplicit, hpath]
        simp only [hget]
      have hclaimed : Table.get? (Table.put imports p.short (p.lead ++ p.short)) p.short
          = some (p.lead ++ p.short) := by rw [Table.get?_put, if_pos (beq_self_eq_true _)]
      rw [hspell]
      refine ⟨fun short owner h => ?_, .inr ⟨p, _, hpath, hclaimed⟩, ?_⟩
      · have hne : ¬ p.short == short := by
          intro heq
          rw [← eq_of_beq heq, hget] at h
          cases h
        rw [Table.get?_put, if_neg hne, h]
      · rw [spelling, if_pos ((hshort _).mpr hclaimed)]
    | some owner =>
      have hspell : imports.spell c
          = (if owner = p.lead ++ p.short then c.simpleName else c.text, imports) := by
        rw [spell, if_neg himplicit, hpath]
        simp only [hget]
      rw [hspell]
      refine ⟨.refl imports, .inr ⟨p, owner, hpath, hget⟩, ?_⟩
      rw [spelling]
      simp only [hshort, hget, Option.some.injEq]

/-- Writing tokens takes no claim back, and the claims in the end tell how each type was written. -/
theorem spellAll_spec (imports : Imports) (tokens : List Token) :
    imports.Extends (imports.spellAll tokens).2 ∧
      ∀ x ∈ tokens.zip (imports.spellAll tokens).1, ∀ c, x.1 = .type c →
        x.2 = (imports.spellAll tokens).2.spelling c := by
  induction tokens generalizing imports with
  | nil => exact ⟨.refl imports, fun _ h => by cases h⟩
  | cons token tokens ih =>
    obtain ⟨hextends, htypes⟩ := ih (imports.spellToken token).2
    have hspell : imports.spellAll (token :: tokens)
        = ((imports.spellToken token).1 :: ((imports.spellToken token).2.spellAll tokens).1,
          ((imports.spellToken token).2.spellAll tokens).2) := rfl
    rw [hspell, List.zip_cons_cons]
    cases token with
    | text s =>
      refine ⟨hextends, fun x hx c hc => ?_⟩
      rcases List.mem_cons.mp hx with rfl | hx
      · cases hc
      · exact htypes x hx c hc
    | type name =>
      obtain ⟨hfirst, hsettled, htext⟩ := imports.spell_spec name
      refine ⟨hfirst.trans hextends, fun x hx c hc => ?_⟩
      rcases List.mem_cons.mp hx with rfl | hx
      · cases hc
        exact htext.trans (hsettled.spelling_eq hextends).symm
      · exact htypes x hx c hc

/-! ### Types that are spelled alike -/

/-- Two types that own one simple name and are written alike are the same type. -/
theorem eq_of_owns (hc : imports.owns c) (hd : imports.owns d)
    (h : c.simpleName = d.simpleName) : c = d := by
  cases hp : c.path? with
  | none => simp [owns, hp] at hc
  | some p =>
    cases hq : d.path? with
    | none => simp [owns, hq] at hd
    | some q =>
      rw [owns_iff hp] at hc
      rw [owns_iff hq] at hd
      have hshort : p.short = q.short := by
        rw [(ClassName.simpleName_head hp).2, (ClassName.simpleName_head hq).2, h]
      -- one name has one owner
      have hlead : p.lead = q.lead := by
        rw [hshort, hd, Option.some.injEq] at hc
        exact (String.append_left_inj _).mp hc.symm
      refine ClassName.eq_of_text ?_
      rw [← ClassName.text_of_path? hp, ← ClassName.text_of_path? hq, String.append_assoc,
        String.append_assoc, ← ClassName.simpleName_of_path? hp,
        ← ClassName.simpleName_of_path? hq, h, hlead]

/-- A type in a package is written in full like no other type is written short. -/
theorem eq_of_simpleName_eq_text (hd : ¬ d.isImplicit) (h : c.simpleName = d.text) : c = d := by
  obtain ⟨q, hq, hlead⟩ := ClassName.exists_path?_of_not_isImplicit hd
  cases hp : c.path? with
  | none =>
    refine ClassName.eq_of_text ?_
    rwa [ClassName.simpleName, hp] at h
  | some p =>
    obtain ⟨u, us, hu, hupper⟩ := (ClassName.simpleName_head hp).1
    obtain ⟨v, vs, hv, hlower⟩ := ClassName.text_head hq hlead
    rw [h, hv] at hu
    cases hu
    exact absurd hupper hlower

/-- Two types are spelled alike where both are written short by one simple name, of which at least
one was not claimed. -/
theorem spelling_eq_iff : imports.spelling c = imports.spelling d ↔
    c = d ∨ ((c.isImplicit ∨ d.isImplicit) ∧ imports.writesShort c ∧ imports.writesShort d ∧
      c.simpleName = d.simpleName) := by
  constructor
  · intro h
    by_cases hc : imports.writesShort c <;> by_cases hd : imports.writesShort d
    · rw [spelling, spelling, if_pos hc, if_pos hd] at h
      by_cases himplicit : c.isImplicit ∨ d.isImplicit
      · exact .inr ⟨himplicit, hc, hd, h⟩
      · rw [not_or] at himplicit
        exact .inl (eq_of_owns ((writesShort_iff.mp hc).resolve_left himplicit.1)
          ((writesShort_iff.mp hd).resolve_left himplicit.2) h)
    · rw [spelling, spelling, if_pos hc, if_neg hd] at h
      rw [writesShort_iff, not_or] at hd
      exact .inl (eq_of_simpleName_eq_text hd.1 h)
    · rw [spelling, spelling, if_neg hc, if_pos hd] at h
      rw [writesShort_iff, not_or] at hc
      exact .inl (eq_of_simpleName_eq_text hc.1 h.symm).symm
    · rw [spelling, spelling, if_neg hc, if_neg hd] at h
      exact .inl (ClassName.eq_of_text h)
  · rintro (rfl | ⟨-, hc, hd, h⟩)
    · rfl
    · rw [spelling, spelling, if_pos hc, if_pos hd, h]

end Imports

/-! ### Runs of a writer -/

/-- What a writer is given in one go. -/
inductive Piece
  | block (b : Block)
  | expr (e : Expr)

/-- The tokens of a piece, at depth zero. -/
def Piece.tokens : Piece → List Token
  | .block b => Block.tokens 0 b
  | .expr e => e.tokens

/-- Hand fragments to an output without a limit: it takes all of them. -/
theorem Sink.text_writeAll {sink : Sink} (hlimit : sink.limit = none)
    (hrefused : sink.refused = false) (fragments : List String) :
    (sink.writeAll fragments).text = fragments.foldl (· ++ ·) sink.text := by
  induction fragments generalizing sink with
  | nil => rfl
  | cons fragment fragments ih =>
    have hwrite : sink.write fragment = { sink with text := sink.text ++ fragment } := by
      simp [write, hrefused, fits, hlimit]
    rw [writeAll_cons, hwrite, List.foldl_cons]
    exact ih hlimit hrefused

namespace Writer

/-- A writer to an output without a limit, before it has written anything. -/
def fresh : Writer where
  sink := { limit := none }

/-- Write a piece. -/
def piece (w : Writer) : Piece → Writer
  | .block b => w.block b
  | .expr e => w.expr e

/-- Write pieces in turn. -/
def pieces (w : Writer) (ps : List Piece) : Writer :=
  ps.foldl piece w

/-- The tokens of pieces, each with the text written for it. -/
def spelled (w : Writer) (ps : List Piece) : List (Token × String) :=
  (ps.flatMap Piece.tokens).zip (w.imports.spellAll (ps.flatMap Piece.tokens)).1

theorem tokens_append (w : Writer) (first second : List Token) :
    w.tokens (first ++ second) = (w.tokens first).tokens second := by
  simp only [tokens, Imports.spellAll_append, Sink.writeAll_append]

/-- Writing pieces in turn is writing their tokens. -/
theorem pieces_eq (w : Writer) (ps : List Piece) :
    w.pieces ps = w.tokens (ps.flatMap Piece.tokens) := by
  have hpiece : ∀ (w : Writer) (p : Piece), w.piece p = w.tokens p.tokens := by
    rintro w (_ | _) <;> rfl
  rw [pieces]
  induction ps generalizing w with
  | nil => rfl
  | cons p ps ih => rw [List.foldl_cons, ih, List.flatMap_cons, tokens_append, hpiece]

theorem imports_pieces (w : Writer) (ps : List Piece) :
    (w.pieces ps).imports = (w.imports.spellAll (ps.flatMap Piece.tokens)).2 := by
  rw [pieces_eq]
  rfl

/-- The claims in the end tell how every type was written. -/
theorem mem_spelled {w : Writer} {ps : List Piece} {c : ClassName} {s : String}
    (h : (.type c, s) ∈ w.spelled ps) : s = (w.pieces ps).imports.spelling c := by
  rw [imports_pieces]
  exact (w.imports.spellAll_spec _).2 _ h c rfl

theorem length_spellAll (imports : Imports) (tokens : List Token) :
    (imports.spellAll tokens).1.length = tokens.length := by
  induction tokens generalizing imports with
  | nil => rfl
  | cons token tokens ih => exact congrArg (· + 1) (ih _)

/-- The body is made of the texts of the tokens. -/
theorem text_pieces_fresh (ps : List Piece) :
    (fresh.pieces ps).sink.text = String.join ((fresh.spelled ps).map Prod.snd) := by
  have htexts : (fresh.spelled ps).map Prod.snd
      = (fresh.imports.spellAll (ps.flatMap Piece.tokens)).1 :=
    List.map_snd_zip (Nat.le_of_eq (length_spellAll _ _))
  rw [pieces_eq, htexts]
  exact Sink.text_writeAll rfl rfl _

/-- In the body that a writer has written in the end, two types are spelled alike exactly where both
are written short by the same simple name and at least one of them needs no import. -/
theorem spelled_eq_iff (ps : List Piece) :
    (fresh.pieces ps).sink.text = String.join ((fresh.spelled ps).map Prod.snd) ∧
      ∀ c s d t, (.type c, s) ∈ fresh.spelled ps → (.type d, t) ∈ fresh.spelled ps →
        (s = t ↔ c = d ∨ ((c.isImplicit ∨ d.isImplicit) ∧
          (fresh.pieces ps).imports.writesShort c ∧ (fresh.pieces ps).imports.writesShort d ∧
          c.simpleName = d.simpleName)) := by
  refine ⟨text_pieces_fresh ps, fun c s d t hc hd => ?_⟩
  rw [mem_spelled hc, mem_spelled hd]
  exact Imports.spelling_eq_iff

/-- Two types of one simple name in packages of their own are told apart. -/
theorem spelled_eq_iff_packages :
    let ps : List Piece :=
      [.expr (.typeLiteral ⟨"a.Size"⟩), .block [.ret (.staticField ⟨"b.Size.Unit"⟩ "MM")]]
    (fresh.pieces ps).sink.text = "Size.classreturn b.Size.Unit.MM;\n" ∧
      ("Size" = "b.Size.Unit" ↔ (⟨"a.Size"⟩ : ClassName) = ⟨"b.Size.Unit"⟩ ∨
        (((⟨"a.Size"⟩ : ClassName).isImplicit ∨ (⟨"b.Size.Unit"⟩ : ClassName).isImplicit) ∧
          (fresh.pieces ps).imports.writesShort ⟨"a.Size"⟩ ∧
          (fresh.pieces ps).imports.writesShort ⟨"b.Size.Unit"⟩ ∧
          (⟨"a.Size"⟩ : ClassName).simpleName = (⟨"b.Size.Unit"⟩ : ClassName).simpleName)) := by
  intro ps
  have hspelled : fresh.spelled ps = [(.type ⟨"a.Size"⟩, "Size"), (.text ".class", ".class"),
      (.text "return ", "return "), (.type ⟨"b.Size.Unit"⟩, "b.Size.Unit"), (.text ".", "."),
      (.text "MM", "MM"), (.text ";", ";"), (.text "\n", "\n")] := by decide
  refine ⟨?_, (spelled_eq_iff ps).2 _ _ _ _ ?_ ?_⟩
  · rw [(spelled_eq_iff ps).1, hspelled]
    decide
  · simp [hspelled]
  · simp [hspelled]

/-- A type that needs no import is not told apart from one that owns its simple name. -/
theorem spelled_alike_string :
    let ps : List Piece := [.block
      [.expr (.typeLiteral ⟨"com.example.String"⟩), .expr (.typeLiteral ⟨"java.lang.String"⟩)]]
    (.type ⟨"com.example.String"⟩, "String") ∈ fresh.spelled ps ∧
      (.type ⟨"java.lang.String"⟩, "String") ∈ fresh.spelled ps ∧
      (⟨"com.example.String"⟩ : ClassName) ≠ ⟨"java.lang.String"⟩ ∧
      (fresh.pieces ps).sink.text = "String.class;\nString.class;\n" := by
  decide

end Writer

end BeanScript
