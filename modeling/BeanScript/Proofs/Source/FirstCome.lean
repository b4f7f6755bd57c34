import BeanScript.Proofs.Ascending
import BeanScript.Proofs.Source.Lines

/-!
# First come, first imported

Which types are imported can be told without following the claims of a renderer: in a first pass
over all that is to be written, the types that need an import are listed in text order; of the
top-level types with one simple name the first wins. A second pass then writes every type, knowing
the winners. The claims amount to this because a claim is never taken back, and because the claims
after some of the types are the winners among these.

## Main definitions

* `Piece.types` — the types that are referred to, in text order
* `Wins` — a top-level type is the first one with its simple name
* `firstComeSpelling` — how a type is written where the first one owns a simple name
* `Piece.text` — what is written where it is known how each type is written

## Main results

* `ClassName.isImplicit_topLevel`, `ClassName.lastSegment_topLevel` — top-level types
* `Imports.get?_spellAll` — the claims are the winners
* `Renderer.rendering_eq_firstCome` — a renderer does what the two passes do
-/

namespace BeanScript

/-! ### References in text order -/

mutual

/-- The types that an expression refers to, in text order. -/
def Expr.types : Expr → List ClassName
  | .literal _ => []
  | .typeLiteral type => [type]
  | .staticField owner _ => [owner]
  | .var _ => []
  | .construct type args => type :: argumentTypes args
  | .newArray component elements => component :: argumentTypes elements
  | .staticCall owner _ args => owner :: argumentTypes args
  | .call receiver _ args => receiver.types ++ argumentTypes args
termination_by structural e => e

/-- The types that expressions refer to, in text order. -/
def argumentTypes : List Expr → List ClassName
  | [] => []
  | e :: es => e.types ++ argumentTypes es
termination_by structural es => es

end

mutual

/-- The types that a statement refers to, in text order. -/
def Stmt.types : Stmt → List ClassName
  | .expr e => e.types
  | .declare type _ init => type :: init.types
  | .ret e => e.types
  | .nested body => Block.types body
termination_by structural s => s

/-- The types that statements refer to, in text order. -/
def Block.types : List Stmt → List ClassName
  | [] => []
  | s :: rest => s.types ++ Block.types rest
termination_by structural body => body

end

/-- The types that a piece refers to, in text order. -/
def Piece.types : Piece → List ClassName
  | .block b => Block.types b
  | .expr e => e.types

/-- The type that a token refers to. -/
def Token.type? : Token → Option ClassName
  | .text _ => none
  | .type name => some name

@[simp] theorem filterMap_text_cons (s : String) (tokens : List Token) :
    (Token.text s :: tokens).filterMap Token.type? = tokens.filterMap Token.type? := rfl

@[simp] theorem filterMap_type_cons (name : ClassName) (tokens : List Token) :
    (Token.type name :: tokens).filterMap Token.type? = name :: tokens.filterMap Token.type? := rfl

theorem filterMap_map_text (fragments : List String) :
    (fragments.map Token.text).filterMap Token.type? = [] := by
  rw [List.filterMap_map]
  exact List.filterMap_eq_nil_iff.mpr fun _ _ => rfl

mutual

theorem Expr.filterMap_tokens (e : Expr) : e.tokens.filterMap Token.type? = e.types := by
  cases e with
  | literal l => exact filterMap_map_text l.fragments
  | typeLiteral type => rfl
  | staticField owner name => rfl
  | var name => rfl
  | construct type args =>
    simp [Expr.tokens, Expr.types, filterMap_listTokens args]
  | newArray component elements =>
    simp [Expr.tokens, Expr.types, filterMap_listTokens elements]
  | staticCall owner method args =>
    simp [Expr.tokens, Expr.types, filterMap_listTokens args]
  | call receiver method args =>
    simp [Expr.tokens, Expr.types, Expr.filterMap_tokens receiver,
      filterMap_listTokens args]
termination_by structural e

theorem filterMap_listTokens (es : List Expr) :
    (listTokens es).filterMap Token.type? = argumentTypes es := by
  cases es with
  | nil => rfl
  | cons e es =>
    rw [listTokens, argumentTypes, List.filterMap_append, Expr.filterMap_tokens e,
      filterMap_tailTokens es]
termination_by structural es

theorem filterMap_tailTokens (es : List Expr) :
    (tailTokens es).filterMap Token.type? = argumentTypes es := by
  cases es with
  | nil => rfl
  | cons e es =>
    rw [tailTokens, argumentTypes, List.filterMap_cons_none rfl, List.filterMap_append,
      Expr.filterMap_tokens e, filterMap_tailTokens es]
termination_by structural es

end

theorem filterMap_indentation (depth : Nat) : (indentation depth).filterMap Token.type? = [] :=
  List.filterMap_eq_nil_iff.mpr fun token htoken => by
    rw [List.eq_of_mem_replicate htoken]
    rfl

mutual

theorem Stmt.filterMap_tokens (s : Stmt) (depth : Nat) :
    (s.tokens depth).filterMap Token.type? = s.types := by
  cases s with
  | expr e => simp [Stmt.tokens, Stmt.types, filterMap_indentation, e.filterMap_tokens]
  | declare type name init =>
    simp [Stmt.tokens, Stmt.types, filterMap_indentation, init.filterMap_tokens]
  | ret e => simp [Stmt.tokens, Stmt.types, filterMap_indentation, e.filterMap_tokens]
  | nested body =>
    simp [Stmt.tokens, Stmt.types, filterMap_indentation,
      Block.filterMap_tokens body (depth + 1)]
termination_by structural s

theorem Block.filterMap_tokens (body : List Stmt) (depth : Nat) :
    (Block.tokens depth body).filterMap Token.type? = Block.types body := by
  cases body with
  | nil => rfl
  | cons s rest =>
    rw [Block.tokens, Block.types, List.filterMap_append, Stmt.filterMap_tokens s depth,
      Block.filterMap_tokens rest depth]
termination_by structural body

end

theorem Piece.filterMap_tokens (p : Piece) : p.tokens.filterMap Token.type? = p.types := by
  cases p with
  | block b => exact Block.filterMap_tokens b 0
  | expr e => exact e.filterMap_tokens

/-! ### Top-level types -/

/-- The last segment of a name. -/
def lastSegment (name : String) : String :=
  String.ofList (name.toList.rtakeWhile (· != '.'))

namespace ClassName

variable {c : ClassName} {p : TypePath}

/-- The type path begins at the start of the name or after a dot. -/
theorem cutAtType_before {atStart : Bool} {cs before rest : List Char}
    (h : cutAtType atStart cs = some (before, rest)) :
    (before = [] ∧ atStart) ∨ ∃ lead, before = lead ++ ['.'] := by
  induction cs generalizing atStart before with
  | nil => cases h
  | cons c cs ih =>
    rw [cutAtType] at h
    split at h
    · next hcut =>
      cases h
      rw [Bool.and_eq_true] at hcut
      exact .inl ⟨rfl, hcut.1⟩
    · obtain ⟨⟨before', rest'⟩, hrest, heq⟩ := Option.map_eq_some_iff.mp h
      cases heq
      rcases ih hrest with ⟨rfl, hdot⟩ | ⟨lead, rfl⟩
      · exact .inr ⟨[], by rw [eq_of_beq hdot]; rfl⟩
      · exact .inr ⟨c :: lead, rfl⟩

/-- Where the type path begins does not depend on what follows its first character. -/
theorem cutAtType_of_append {atStart : Bool} {cs before us : List Char} {u : Char}
    (h : cutAtType atStart cs = some (before, u :: us)) (vs : List Char) :
    cutAtType atStart (before ++ u :: vs) = some (before, u :: vs) := by
  induction cs generalizing atStart before with
  | nil => cases h
  | cons c cs ih =>
    rw [cutAtType] at h
    split at h
    · next hcut =>
      cases h
      rw [List.nil_append, cutAtType, if_pos hcut]
    · next hgo =>
      obtain ⟨⟨before', rest'⟩, hrest, heq⟩ := Option.map_eq_some_iff.mp h
      cases heq
      rw [List.cons_append, cutAtType, if_neg hgo, ih hrest]
      rfl

theorem ne_dot_of_mem_takeWhile (cs : List Char) : ∀ x ∈ cs.takeWhile (· != '.'), x != '.' := by
  intro x hx
  have hne := List.mem_takeWhile_imp hx
  exact hne

/-- A top-level type is its own top-level type. -/
theorem path?_topLevel (h : c.path? = some p) :
    path? ⟨p.lead ++ p.short⟩ = some { p with nested := "" } := by
  obtain ⟨⟨before, rest⟩, hcut, rfl⟩ := Option.map_eq_some_iff.mp h
  obtain ⟨u, us, rfl, hu⟩ := (cutAtType_head hcut).1
  have hdot : u != '.' := by
    rw [bne_iff_ne]
    rintro rfl
    exact absurd hu (by decide)
  have hshort : (u :: us).takeWhile (· != '.') = u :: us.takeWhile (· != '.') :=
    List.takeWhile_cons_of_pos hdot
  have hall : ∀ x ∈ u :: us.takeWhile (· != '.'), x != '.' := by
    rw [← hshort]
    exact ne_dot_of_mem_takeWhile (u :: us)
  have hcut' := cutAtType_of_append hcut (us.takeWhile (· != '.'))
  have htake := List.takeWhile_eq_self_iff.mpr hall
  have hdrop := List.dropWhile_eq_nil_iff.mpr hall
  simp only [path?, hshort, String.toList_append, String.toList_ofList, hcut', Option.map_some,
    htake, hdrop, String.ofList_nil]

theorem package_eq (h : c.path? = some p) : c.package = String.ofList p.lead.toList.dropLast := by
  rw [package, h]

/-- A top-level type needs an import where its nested types do. -/
theorem isImplicit_topLevel (h : c.path? = some p) :
    isImplicit ⟨p.lead ++ p.short⟩ = c.isImplicit := by
  rw [isImplicit, isImplicit, package_eq h, package_eq (path?_topLevel h), path?_topLevel h, h]
  rfl

/-- The simple name of a top-level type is the last segment of its name. -/
theorem lastSegment_topLevel (h : c.path? = some p) :
    lastSegment (p.lead ++ p.short) = p.short := by
  obtain ⟨⟨before, rest⟩, hcut, rfl⟩ := Option.map_eq_some_iff.mp h
  have hshort : ∀ x ∈ (rest.takeWhile (· != '.')).reverse, x != '.' := fun x hx =>
    ne_dot_of_mem_takeWhile rest x (List.mem_reverse.mp hx)
  have hbefore : before.reverse.takeWhile (· != '.') = [] := by
    rcases cutAtType_before hcut with ⟨rfl, -⟩ | ⟨lead, rfl⟩
    · rfl
    · rw [List.reverse_concat]
      rfl
  rw [lastSegment, String.toList_append, String.toList_ofList, String.toList_ofList,
    List.rtakeWhile, List.reverse_append, List.takeWhile_append_of_pos hshort, hbefore,
    List.append_nil, List.reverse_reverse]

theorem topLevel?_of_path? (h : c.path? = some p) : c.topLevel? = some (p.lead ++ p.short) := by
  rw [topLevel?, h]
  rfl

end ClassName

/-! ### Winners -/

/-- The top-level types of those that need an import, in the same order. -/
def topLevels (types : List ClassName) : List String :=
  (types.filter (! ·.isImplicit)).filterMap ClassName.topLevel?

/-- The first of some names with the given last segment. -/
def winner? (names : List String) (segment : String) : Option String :=
  names.find? (lastSegment · == segment)

/-- A top-level type is the first one with its simple name among those that some types need. -/
def Wins (types : List ClassName) (topLevel : String) : Prop :=
  winner? (topLevels types) (lastSegment topLevel) = some topLevel

instance (types : List ClassName) : DecidablePred (Wins types) := fun topLevel =>
  inferInstanceAs (Decidable (winner? (topLevels types) (lastSegment topLevel) = some topLevel))

/-- How a type is written among some types, where the first one of them owns a simple name. -/
def firstComeSpelling (types : List ClassName) (c : ClassName) : String :=
  if c.isImplicit ∨ ∃ topLevel ∈ c.topLevel?, Wins types topLevel then c.simpleName else c.text

theorem winner?_append (first second : List String) (segment : String) :
    winner? (first ++ second) segment = (winner? first segment).or (winner? second segment) :=
  List.find?_append

theorem wins_iff {types : List ClassName} {topLevel : String} :
    Wins types topLevel ↔ ∃ segment, winner? (topLevels types) segment = some topLevel := by
  refine ⟨fun h => ⟨_, h⟩, ?_⟩
  rintro ⟨segment, h⟩
  have hsegment := List.find?_some h
  rw [beq_iff_eq] at hsegment
  rwa [Wins, hsegment]

theorem Wins.eq_of_lastSegment {types : List ClassName} {s t : String} (hs : Wins types s)
    (ht : Wins types t) (h : lastSegment s = lastSegment t) : s = t := by
  rw [Wins, h, ht] at hs
  exact (Option.some.inj hs).symm

/-- A winner needs an import itself. -/
theorem Wins.not_isImplicit {types : List ClassName} {topLevel : String}
    (h : Wins types topLevel) : ¬ (ClassName.mk topLevel).isImplicit := by
  obtain ⟨c, hc, htopLevel⟩ := List.mem_filterMap.mp (List.mem_of_find?_eq_some h)
  obtain ⟨-, hc⟩ := List.mem_filter.mp hc
  obtain ⟨path, hpath, rfl⟩ := Option.map_eq_some_iff.mp htopLevel
  rw [ClassName.isImplicit_topLevel hpath]
  simpa using hc

namespace Imports

/-- A type that is written claims its simple name if nothing else has done so. -/
theorem get?_spell (imports : Imports) (c : ClassName) (segment : String) :
    Table.get? (imports.spell c).2 segment
      = (Table.get? imports segment).or (winner? (topLevels [c]) segment) := by
  by_cases himplicit : c.isImplicit
  · have hnone : topLevels [c] = [] := by simp [topLevels, himplicit]
    rw [spell, if_pos himplicit, hnone, winner?, List.find?_nil, Option.or_none]
  · obtain ⟨p, hpath, -⟩ := ClassName.exists_path?_of_not_isImplicit himplicit
    have htopLevels : topLevels [c] = [p.lead ++ p.short] := by
      simp [topLevels, himplicit, ClassName.topLevel?_of_path? hpath]
    have hwinner : winner? (topLevels [c]) segment
        = if p.short = segment then some (p.lead ++ p.short) else none := by
      simp only [winner?, htopLevels, ← List.head?_filter, List.filter_cons, List.filter_nil,
        ClassName.lastSegment_topLevel hpath, beq_iff_eq]
      split <;> rfl
    rw [spell, if_neg himplicit, hpath, hwinner]
    cases hget : Table.get? imports p.short with
    | none =>
      simp only [hget, Table.get?_put, beq_iff_eq]
      by_cases hsegment : p.short = segment
      · rw [if_pos hsegment, if_pos hsegment, ← hsegment, hget, Option.none_or]
      · rw [if_neg hsegment, if_neg hsegment, Option.or_none]
    | some owner =>
      simp only [hget]
      by_cases hsegment : p.short = segment
      · rw [← hsegment, hget]
        rfl
      · rw [if_neg hsegment, Option.or_none]

/-- Claims stay, and of the further types of one simple name the first has it. -/
theorem get?_spellAll (imports : Imports) (tokens : List Token) (segment : String) :
    Table.get? (imports.spellAll tokens).2 segment
      = (Table.get? imports segment).or
          (winner? (topLevels (tokens.filterMap Token.type?)) segment) := by
  induction tokens generalizing imports with
  | nil => exact (Option.or_none).symm
  | cons token tokens ih =>
    have hrest := ih (imports.spellToken token).2
    cases token with
    | text s => exact hrest
    | type name =>
      have hcons : topLevels (name :: tokens.filterMap Token.type?)
          = topLevels [name] ++ topLevels (tokens.filterMap Token.type?) := by
        rw [topLevels, topLevels, topLevels, ← List.filterMap_append, ← List.filter_append]
        rfl
      have hname : Table.get? (imports.spellToken (.type name)).2 segment
          = (Table.get? imports segment).or (winner? (topLevels [name]) segment) :=
        imports.get?_spell name segment
      rw [hname, Option.or_assoc, ← winner?_append, ← hcons] at hrest
      exact hrest

theorem nodup_keys_spellAll {imports : Imports} (h : (Table.keys imports).Nodup)
    (tokens : List Token) : (Table.keys (imports.spellAll tokens).2).Nodup := by
  induction tokens generalizing imports with
  | nil => exact h
  | cons token tokens ih =>
    refine ih ?_
    cases token with
    | text s => exact h
    | type name =>
      show (Table.keys (imports.spell name).2).Nodup
      rw [spell]
      split
      · exact h
      · split
        · exact h
        · dsimp only
          split
          · exact Table.nodup_keys_put _ _ h
          · exact h

/-- The names to import are those of the owners of claimed simple names. -/
theorem mem_sorted_iff {imports : Imports} (h : (Table.keys imports).Nodup) {topLevel : String} :
    topLevel ∈ imports.sorted ↔ ∃ segment, Table.get? imports segment = some topLevel := by
  have hfold : ∀ names : List String,
      topLevel ∈ imports.foldl (fun names claim => Ascending.put id claim.2 names) names ↔
        topLevel ∈ names ∨ ∃ segment, (segment, topLevel) ∈ imports := by
    clear h
    induction imports with
    | nil => simp
    | cons claim imports ih =>
      intro names
      have hput :
          topLevel ∈ Ascending.put id claim.2 names ↔ topLevel = claim.2 ∨ topLevel ∈ names :=
        Ascending.mem_put_iff_of_unique fun _ _ hkey => hkey
      rw [List.foldl_cons, ih, hput]
      simp only [List.mem_cons, exists_or, Prod.ext_iff, exists_eq_left]
      tauto
  simp only [Table.get?_eq_some_iff h, sorted, hfold, List.not_mem_nil, false_or]

theorem pairwise_sorted (imports : Imports) : imports.sorted.Pairwise (· < ·) := by
  have hfold : ∀ names : List String, names.Pairwise (· < ·) →
      (imports.foldl (fun names claim => Ascending.put id claim.2 names) names).Pairwise
        (· < ·) := by
    induction imports with
    | nil => exact fun _ h => h
    | cons claim imports ih =>
      exact fun names h => ih _ (Ascending.pairwise_put claim.2 h)
  exact hfold [] .nil

/-- After all types were written, the claims tell that the first ones are written short. -/
theorem spelling_spellAll (tokens : List Token) :
    (spellAll [] tokens).2.spelling = firstComeSpelling (tokens.filterMap Token.type?) := by
  funext c
  have hclaims : ∀ segment, Table.get? (spellAll [] tokens).2 segment
      = winner? (topLevels (tokens.filterMap Token.type?)) segment := fun segment => by
    rw [get?_spellAll, Table.get?_nil, Option.none_or]
  have howns : (spellAll [] tokens).2.owns c ↔
      ∃ topLevel ∈ c.topLevel?, Wins (tokens.filterMap Token.type?) topLevel := by
    cases hpath : c.path? with
    | none => simp [owns, ClassName.topLevel?, hpath]
    | some p =>
      rw [owns_iff hpath, hclaims, ClassName.topLevel?_of_path? hpath]
      simp only [Option.mem_some_iff, exists_eq_left', Wins, ClassName.lastSegment_topLevel hpath]
  simp only [spelling, firstComeSpelling, writesShort_iff, howns]

end Imports

/-! ### Two passes -/

/-- What is written for a piece where it is known how each type is written. -/
def Piece.text (spell : ClassName → String) : Piece → String
  | .block b => String.join ((Block.lines spell 0 b).map (· ++ "\n"))
  | .expr e => e.text spell

theorem Piece.join_tokens (spell : ClassName → String) (ps : List Piece) :
    String.join ((ps.flatMap Piece.tokens).map (Token.written spell))
      = String.join (ps.map (Piece.text spell)) := by
  induction ps with
  | nil => rfl
  | cons p ps ih =>
    have hpiece : String.join (p.tokens.map (Token.written spell)) = p.text spell := by
      cases p with
      | block b => exact Block.join_tokens spell b 0
      | expr e => exact e.join_tokens spell
    rw [List.flatMap_cons, List.map_append, String.join_append, List.map_cons, String.join_cons, ih,
      hpiece]

theorem Piece.filterMap_tokens_flatMap (ps : List Piece) :
    (ps.flatMap Piece.tokens).filterMap Token.type? = ps.flatMap Piece.types := by
  rw [List.filterMap_flatMap]
  simp only [Piece.filterMap_tokens]

namespace Renderer

/-- What a renderer has written in the end, and what has to be imported, is what two passes lead to:
the first finds out which top-level types come first among those with their simple name, and the
second writes every type accordingly, whatever blocks and expressions the types stand in. -/
theorem rendering_eq_firstCome (ps : List Piece) :
    let types := ps.flatMap Piece.types
    let source := (whole ps).finish
    (∀ name, name ∈ source.imports ↔ Wins types name) ∧
      source.imports.Pairwise (· < ·) ∧
      source.imports.Pairwise (fun s t => lastSegment s ≠ lastSegment t) ∧
      (∀ name ∈ source.imports, ¬ (ClassName.mk name).isImplicit) ∧
      source.body = String.join (ps.map (Piece.text (firstComeSpelling types))) := by
  intro types source
  let tokens := ps.flatMap Piece.tokens
  have htypes : tokens.filterMap Token.type? = types := Piece.filterMap_tokens_flatMap ps
  have hsource : source = Source.ofTokens tokens := finish_whole ps
  have himports : source.imports = (Imports.spellAll [] tokens).2.sorted := by
    rw [hsource]
    rfl
  have hbody : source.body = String.join (Imports.spellAll [] tokens).1 := by
    rw [hsource]
    rfl
  have hempty : (Table.keys ([] : Imports)).Nodup := .nil
  have hkeys := Imports.nodup_keys_spellAll hempty tokens
  have hmem : ∀ name, name ∈ source.imports ↔ Wins types name := by
    intro name
    rw [himports, Imports.mem_sorted_iff hkeys, wins_iff]
    simp only [Imports.get?_spellAll, Table.get?_nil, Option.none_or, htypes]
  have hsorted : source.imports.Pairwise (· < ·) := by
    rw [himports]
    exact Imports.pairwise_sorted _
  refine ⟨hmem, hsorted, ?_, fun name hname => ((hmem name).mp hname).not_isImplicit, ?_⟩
  · refine hsorted.imp_of_mem fun {s t} hs ht hlt hsegment => ?_
    have heq := ((hmem s).mp hs).eq_of_lastSegment ((hmem t).mp ht) hsegment
    rw [heq] at hlt
    exact String.lt_irrefl t hlt
  · rw [hbody, Imports.spellAll_eq_map, Imports.spelling_spellAll, htypes, Piece.join_tokens]

example : (whole [.expr (.typeLiteral ⟨"a.Size.Unit"⟩),
    .block [.ret (.staticField ⟨"b.Size"⟩ "MAX"), .expr (.typeLiteral ⟨"a.Size"⟩)]]).finish
      = { imports := ["a.Size"]
          body := "Size.Unit.classreturn b.Size.MAX;\nSize.class;\n" } := by
  decide

end Renderer

end BeanScript
