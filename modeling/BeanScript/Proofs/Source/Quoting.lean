import BeanScript.Proofs.Source.Outputs
import BeanScript.Text.Unescape
import Mathlib.Data.List.DropRight

/-!
# Literals read back

A compiler that reads a written text or character gets what was written. Each character is written
in one of three forms: as itself, as a backslash and a letter, or by its code. The first pass
replaces codes only, since the backslashes of the other two forms come in pairs or stand before
another letter than `u`, so that it never meets one in the wrong place. What it leaves are the first
two forms, which the second pass reads.

Written literals stay on their line and end at their last quote, both before and after the first
pass: a control character may come out of the first pass, but none that ends a line.

## Main definitions

* `Text.FitsBetween` — characters that quotes can enclose
* `Text.Body` — the same, as a grammar
* `Text.Written` — characters, as they are written, and as the first pass leaves them

## Main results

* `Text.exists_written` — what escaping leads to
* `Text.Written.translate_eq`, `Text.Written.unescape?_eq` — the two passes
* `Renderer.literal_readsBack` — written texts and characters read back
-/

namespace BeanScript

namespace Text

variable {quote c : Char} {cs written translated : List Char}

/-! ### Between quotes -/

/-- The number of contiguous backslashes at the end. -/
def trailingSlashes (cs : List Char) : Nat :=
  (cs.rtakeWhile (· == '\\')).length

/-- Characters that quotes of the given kind can enclose: they end neither the line nor the literal,
as each quote among them stands after an odd number of backslashes. -/
structure FitsBetween (quote : Char) (cs : List Char) : Prop where
  lineFeed : '\n' ∉ cs
  carriageReturn : '\r' ∉ cs
  quotes : ∀ before after, cs = before ++ quote :: after → trailingSlashes before % 2 = 1

/-- Characters of which each stands for itself or after a backslash of its own. -/
inductive Body (quote : Char) : List Char → Prop
  | nil : Body quote []
  | plain {c : Char} {cs : List Char} (hc : c ∉ ['\n', '\r', '\\', quote]) (h : Body quote cs) :
    Body quote (c :: cs)
  | escaped {c : Char} {cs : List Char} (hc : c ∉ ['\n', '\r']) (h : Body quote cs) :
    Body quote ('\\' :: c :: cs)

theorem trailingSlashes_concat (cs : List Char) (c : Char) :
    trailingSlashes (cs ++ [c]) = if c = '\\' then trailingSlashes cs + 1 else 0 := by
  rw [trailingSlashes, List.rtakeWhile_concat]
  by_cases hc : c = '\\' <;> simp [hc, trailingSlashes]

namespace Body

theorem not_mem (h : Body quote cs) : '\n' ∉ cs ∧ '\r' ∉ cs := by
  induction h with
  | nil => simp
  | plain hc _ ih => simp_all [eq_comm]
  | escaped hc _ ih => simp_all [eq_comm]

/-- Where the backslashes right before are even in number, each quote is escaped. -/
theorem trailingSlashes_odd (h : Body quote cs) (hquote : quote ≠ '\\') {ahead : List Char}
    (hahead : trailingSlashes ahead % 2 = 0) {before after : List Char}
    (hcs : cs = before ++ quote :: after) : trailingSlashes (ahead ++ before) % 2 = 1 := by
  induction h generalizing ahead before with
  | nil => simp at hcs
  | @plain c cs hc _ ih =>
    cases before with
    | nil =>
      cases hcs
      simp at hc
    | cons _ before =>
      cases hcs
      have hslash : c ≠ '\\' := by rintro rfl; simp at hc
      have hnext : trailingSlashes (ahead ++ [c]) % 2 = 0 := by
        rw [trailingSlashes_concat, if_neg hslash]
      have := ih hnext rfl
      rwa [List.append_assoc] at this
  | @escaped c cs _ _ ih =>
    match before, hcs with
    | [], hcs =>
      cases hcs
      exact absurd rfl hquote
    | [_], hcs =>
      cases hcs
      rw [trailingSlashes_concat, if_pos rfl]
      omega
    | _ :: _ :: before, hcs =>
      cases hcs
      have hnext : trailingSlashes (ahead ++ ['\\'] ++ [c]) % 2 = 0 := by
        rw [trailingSlashes_concat, trailingSlashes_concat, if_pos rfl]
        split
        · omega
        · rfl
      have := ih hnext rfl
      rwa [List.append_assoc, List.append_assoc] at this

theorem fitsBetween (h : Body quote cs) (hquote : quote ≠ '\\') : FitsBetween quote cs where
  lineFeed := h.not_mem.1
  carriageReturn := h.not_mem.2
  quotes _ _ hcs := by
    have hstart : trailingSlashes [] % 2 = 0 := rfl
    exact h.trailingSlashes_odd hquote hstart hcs

end Body

/-! ### The forms of a character -/

/-- Characters, as they are written between quotes of the given kind, and as they are after unicode
escapes were replaced. -/
inductive Written (quote : Char) : List Char → List Char → List Char → Prop
  | nil : Written quote [] [] []
  | escaped {x c : Char} {cs written translated : List Char} (hx : escaped? x = some c)
    (h : Written quote cs written translated) :
    Written quote (c :: cs) ('\\' :: x :: written) ('\\' :: x :: translated)
  | code {c : Char} {cs written translated : List Char} (hcontrol : isControl c)
    (hc : c ∉ ['\n', '\r', '\\', quote]) (h : Written quote cs written translated) :
    Written quote (c :: cs) ('\\' :: 'u' :: (hexDigits c.toNat ++ written)) (c :: translated)
  | plain {c : Char} {cs written translated : List Char} (hc : c ∉ ['\n', '\r', '\\', quote])
    (h : Written quote cs written translated) :
    Written quote (c :: cs) (c :: written) (c :: translated)

theorem exists_written (hquote : quote = '"' ∨ quote = '\'') (cs : List Char) :
    ∃ translated, Written quote cs (cs.flatMap (escapeChar quote)) translated := by
  induction cs with
  | nil => exact ⟨[], .nil⟩
  | cons c cs ih =>
    obtain ⟨translated, h⟩ := ih
    rw [List.flatMap_cons, escapeChar]
    split
    · next hc => exact ⟨_, .escaped (by rw [hc]; rfl) h⟩
    split
    · next hc => exact ⟨_, .escaped (by rw [hc]; rfl) h⟩
    split
    · next hc => exact ⟨_, .escaped (by rw [hc]; rfl) h⟩
    split
    · next hc => exact ⟨_, .escaped (by rw [hc]; rfl) h⟩
    split
    · next hc =>
      refine ⟨_, .escaped ?_ h⟩
      rcases hquote with rfl | rfl <;> rw [hc] <;> rfl
    split
    · next hcontrol => exact ⟨_, .code hcontrol (by simp [*]) h⟩
    · exact ⟨_, .plain (by simp [*]) h⟩

/-! ### The first pass -/

theorem hexValue?_digitChar : ∀ n < 16, hexValue? n.digitChar = some n := by
  decide

theorem digitChar_not_mem : ∀ n < 16, n.digitChar ∉ ['\n', '\r', '\\', '"', '\''] := by
  decide

theorem toNat_lt_of_isControl (h : isControl c) : c.toNat < 65536 := by
  simp only [isControl, Bool.or_eq_true, Bool.and_eq_true, decide_eq_true_eq] at h
  omega

/-- The digits of a code read back. -/
theorem ofHexDigits?_hexDigits (h : c.toNat < 65536) :
    ofHexDigits? (hexDigits c.toNat) = some c := by
  have hvalues : (hexDigits c.toNat).mapM hexValue? = some [c.toNat / 4096 % 16,
      c.toNat / 256 % 16, c.toNat / 16 % 16, c.toNat % 16] := by
    simp [hexDigits, hexValue?_digitChar, Nat.mod_lt]
  have hcode : [c.toNat / 4096 % 16, c.toNat / 256 % 16, c.toNat / 16 % 16, c.toNat % 16].foldl
      (fun code value => 16 * code + value) 0 = c.toNat := by
    simp only [List.foldl_cons, List.foldl_nil]
    omega
  have hvalid : c.toNat.isValidChar := c.valid
  simp only [ofHexDigits?, hvalues, Option.bind_eq_bind, Option.bind_some, hcode, if_pos hvalid,
    Char.ofNat_toNat]

theorem translateAfter_of_ne (slashes : Nat) (hc : c ≠ '\\') (cs : List Char) :
    translateAfter slashes (c :: cs) = c :: translateAfter 0 cs := by
  rw [translateAfter, if_neg hc]
  exact fun _ _ _ _ _ h => absurd h hc

/-- A backslash stays before another character than `u`, and after an odd number of backslashes. -/
theorem translateAfter_slash {slashes : Nat} (h : slashes % 2 = 1 ∨ ∀ rest, cs ≠ 'u' :: rest) :
    translateAfter slashes ('\\' :: cs) = '\\' :: translateAfter (slashes + 1) cs := by
  by_cases hcode : ∃ a b c d rest, cs = 'u' :: a :: b :: c :: d :: rest
  · obtain ⟨a, b, c, d, rest, rfl⟩ := hcode
    have hodd : ¬ slashes % 2 = 0 := by
      rw [h.resolve_right fun hu => hu _ rfl]
      exact Nat.one_ne_zero
    rw [translateAfter, if_neg hodd]
  · rw [translateAfter, if_pos rfl]
    exact fun a b c d rest _ hcs => hcode ⟨a, b, c, d, rest, hcs⟩

/-- The code of a character is replaced where the backslashes before it are even in number. -/
theorem translateAfter_code {slashes : Nat} (heven : slashes % 2 = 0) (hc : c.toNat < 65536)
    (cs : List Char) : translateAfter slashes ('\\' :: 'u' :: (hexDigits c.toNat ++ cs))
      = c :: translateAfter 0 cs := by
  have hread := ofHexDigits?_hexDigits hc
  simp only [hexDigits, List.map_cons, List.map_nil] at hread
  simp only [hexDigits, List.map_cons, List.map_nil, List.cons_append, List.nil_append]
  rw [translateAfter, if_pos heven, hread]

theorem not_mem_of_escaped? {x : Char} (h : escaped? x = some c) : x ∉ ['u', '\n', '\r'] := by
  intro hx
  simp only [List.mem_cons, List.not_mem_nil, or_false] at hx
  rcases hx with rfl | rfl | rfl <;> cases h

namespace Written

/-- The first pass replaces the codes. -/
theorem translateAfter_eq (h : Written quote cs written translated) {slashes : Nat}
    (heven : slashes % 2 = 0) : translateAfter slashes written = translated := by
  induction h generalizing slashes with
  | nil => rfl
  | @escaped x c cs written translated hx _ ih =>
    have hu : ∀ rest, x :: written ≠ 'u' :: rest := by
      rintro rest ⟨⟩
      exact not_mem_of_escaped? hx List.mem_cons_self
    rw [translateAfter_slash (.inr hu)]
    by_cases hslash : x = '\\'
    · -- the second of two backslashes does not begin a unicode escape, whatever comes after it
      have hodd : (slashes + 1) % 2 = 1 := by omega
      rw [hslash, translateAfter_slash (.inl hodd), ih (by omega)]
    · rw [translateAfter_of_ne _ hslash, ih rfl]
  | @code c cs written translated hcontrol _ _ ih =>
    rw [translateAfter_code heven (toNat_lt_of_isControl hcontrol), ih rfl]
  | plain hc _ ih =>
    rw [translateAfter_of_ne _ (by rintro rfl; simp at hc), ih rfl]

/-- The second pass reads the other forms. -/
theorem unescape?_eq (h : Written quote cs written translated) :
    unescape? translated = some cs := by
  have hplain : ∀ {c : Char} {cs rest : List Char}, c ≠ '\\' → unescape? rest = some cs →
      unescape? (c :: rest) = some (c :: cs) := by
    intro c cs rest hc hrest
    rw [unescape?, hrest]
    · rfl
    · exact fun h => absurd h hc
    · exact fun _ _ h => absurd h hc
  induction h with
  | nil => rfl
  | escaped hx _ ih =>
    rw [unescape?, hx, ih]
    rfl
  | code _ hc _ ih => exact hplain (by rintro rfl; simp at hc) ih
  | plain hc _ ih => exact hplain (by rintro rfl; simp at hc) ih

theorem body_written (h : Written quote cs written translated)
    (hquote : quote = '"' ∨ quote = '\'') : Body quote written := by
  have hdigit : ∀ {n : Nat} {rest : List Char}, n < 16 → Body quote rest →
      Body quote (n.digitChar :: rest) := by
    intro n rest hn hrest
    refine .plain ?_ hrest
    have := digitChar_not_mem n hn
    rcases hquote with rfl | rfl <;> simp_all
  induction h with
  | nil => exact .nil
  | escaped hx _ ih => exact .escaped (by have := not_mem_of_escaped? hx; simp_all) ih
  | code _ _ _ ih =>
    refine .escaped (by simp) ?_
    exact hdigit (Nat.mod_lt _ (by decide)) (hdigit (Nat.mod_lt _ (by decide))
      (hdigit (Nat.mod_lt _ (by decide)) (hdigit (Nat.mod_lt _ (by decide)) ih)))
  | plain hc _ ih => exact .plain hc ih

theorem body_translated (h : Written quote cs written translated) : Body quote translated := by
  induction h with
  | nil => exact .nil
  | escaped hx _ ih => exact .escaped (by have := not_mem_of_escaped? hx; simp_all) ih
  | code _ hc _ ih => exact .plain hc ih
  | plain hc _ ih => exact .plain hc ih

end Written

/-- What is written between quotes stays there and reads back. -/
theorem escape_readsBack (hquote : quote = '"' ∨ quote = '\'') (s : String) :
    FitsBetween quote (escape quote s).toList ∧
      FitsBetween quote (translate (escape quote s).toList) ∧
      unquote? (escape quote s) = some s := by
  obtain ⟨translated, h⟩ := exists_written hquote s.toList
  have hchars : (escape quote s).toList = s.toList.flatMap (escapeChar quote) :=
    String.toList_ofList
  have htranslate : translate (escape quote s).toList = translated := by
    rw [hchars, translate, h.translateAfter_eq rfl]
  have hslash : quote ≠ '\\' := by rcases hquote with rfl | rfl <;> decide
  refine ⟨?_, ?_, ?_⟩
  · rw [hchars]
    exact (h.body_written hquote).fitsBetween hslash
  · rw [htranslate]
    exact h.body_translated.fitsBetween hslash
  · rw [unquote?, htranslate, h.unescape?_eq, Option.map_some, String.ofList_toList]

example : let s := "\\u0041\u0001"
    escape '"' s = "\\\\u0041\\u0001" ∧ unquote? (escape '"' s) = some s := by
  decide

end Text

namespace Renderer

theorem text_literal (r : Renderer Buffer) (l : Literal) :
    (r.literal l).output.text = r.output.text ++ l.source := by
  rw [literal_eq_emit, text_emit, Imports.spellAll_text, Literal.source]

/-- Wherever a renderer writes a text or a character, it writes quotes and between them characters
that end neither the line nor the literal, neither as they stand nor after unicode escapes were
replaced, and that read back as what was to be written. -/
theorem literal_readsBack (r : Renderer Buffer) :
    (∀ s : String, ∃ inner : String,
      (expr (.literal (.string s)) r).output.text = r.output.text ++ ("\"" ++ inner ++ "\"") ∧
        Text.FitsBetween '"' inner.toList ∧ Text.FitsBetween '"' (Text.translate inner.toList) ∧
        Text.unquote? inner = some s) ∧
      ∀ c : Char, ∃ inner : String,
        (expr (.literal (.char c)) r).output.text = r.output.text ++ ("'" ++ inner ++ "'") ∧
          Text.FitsBetween '\'' inner.toList ∧
          Text.FitsBetween '\'' (Text.translate inner.toList) ∧
          Text.unquote? inner = some (String.singleton c) := by
  refine ⟨fun s => ⟨Text.escape '"' s, ?_, Text.escape_readsBack (.inl rfl) s⟩,
    fun c => ⟨Text.escape '\'' (String.singleton c), ?_, Text.escape_readsBack (.inr rfl) _⟩⟩
  · rw [expr, text_literal]
    simp [Literal.source, Literal.fragments, String.join_cons, String.append_assoc]
  · rw [expr, text_literal]
    simp [Literal.source, Literal.fragments, String.join_cons, String.append_assoc]

end Renderer

end BeanScript
