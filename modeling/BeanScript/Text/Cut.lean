/-!
# Cutting texts at offsets

An offset into a text counts the bytes of its UTF-8 form. A text can be cut at its ends and between
two characters. It cannot be cut past its end, nor inside a character that takes several bytes, and
no offset lies before the start.

## Main definitions

* `CutFault` — why a text cannot be cut
* `Text.stepBack` — the offset a number of bytes earlier
* `Text.offsetOf?` — the offset of a character
* `Text.cutAt`, `Text.takeBytes`, `Text.dropBytes` — what stands before and after an offset

## Main results

* `Text.cutAt_eq_ok_iff` — which cuts there are
-/

namespace BeanScript

/-- Why a text cannot be cut at an offset. -/
inductive CutFault
  | beforeStart
  | pastEnd (offset : Nat)
  | insideCharacter (offset : Nat)
deriving DecidableEq

namespace Text

/-- The offset a number of bytes before another one. -/
def stepBack (offset bytes : Nat) : Except CutFault Nat :=
  if bytes ≤ offset then .ok (offset - bytes) else .error .beforeStart

/-- The offset of the first place where a character stands. -/
def offsetOf? (x : Char) (s : String) : Option Nat :=
  (s.find? x).map (·.offset.byteIdx)

/-- A text in two parts, cut at an offset. -/
def cutAt (s : String) (offset : Nat) : Except CutFault (String × String) :=
  if h : String.Pos.Raw.IsValid s ⟨offset⟩ then
    let p := s.pos ⟨offset⟩ h
    .ok ((s.sliceTo p).copy, (s.sliceFrom p).copy)
  else if s.utf8ByteSize < offset then .error (.pastEnd offset)
  else .error (.insideCharacter offset)

/-- The part of a text before an offset. -/
def takeBytes (s : String) (offset : Nat) : Except CutFault String :=
  (cutAt s offset).map Prod.fst

/-- The part of a text from an offset on. -/
def dropBytes (s : String) (offset : Nat) : Except CutFault String :=
  (cutAt s offset).map Prod.snd

@[simp] theorem stepBack_add (offset bytes : Nat) :
    stepBack (offset + bytes) bytes = .ok offset := by
  rw [stepBack, if_pos (Nat.le_add_left bytes offset), Nat.add_sub_cancel]

theorem offsetOf?_eq_none {x : Char} {s : String} (h : x ∉ s.toList) : offsetOf? x s = none := by
  rw [offsetOf?, Option.map_eq_none_iff, Option.eq_none_iff_forall_ne_some]
  intro p hp
  obtain ⟨t, u, hsplits, -⟩ := String.find?_char_eq_some_iff_splits.mp hp
  rw [hsplits.eq_append] at h
  simp at h

theorem offsetOf?_append {x : Char} {s : String} (h : x ∉ s.toList) (t : String) :
    offsetOf? x (s ++ (String.singleton x ++ t)) = some s.utf8ByteSize := by
  have hsplits := String.Pos.splits_ofEqAppend (s := s ++ (String.singleton x ++ t)) rfl
  rw [offsetOf?, String.find?_char_eq_some_iff_splits.mpr ⟨s, t, hsplits, h⟩, Option.map_some,
    hsplits.offset_eq_rawEndPos]
  rfl

/-- A text can be cut between any two parts of it, and nowhere else. -/
theorem cutAt_eq_ok_iff {s t u : String} {offset : Nat} :
    cutAt s offset = .ok (t, u) ↔ s = t ++ u ∧ offset = t.utf8ByteSize := by
  constructor
  · intro h
    rw [cutAt] at h
    split at h
    next hvalid =>
      cases h
      have hsplits := (s.pos ⟨offset⟩ hvalid).splits
      exact ⟨hsplits.eq_append, congrArg String.Pos.Raw.byteIdx hsplits.offset_eq_rawEndPos⟩
    next => split at h <;> cases h
  · rintro ⟨rfl, rfl⟩
    have hvalid : String.Pos.Raw.IsValid (t ++ u) ⟨t.utf8ByteSize⟩ :=
      String.Pos.Raw.isValid_iff_exists_append.mpr ⟨t, u, rfl, rfl⟩
    have hsplits : ((t ++ u).pos _ hvalid).Splits t u := ⟨rfl, rfl⟩
    rw [cutAt, dif_pos hvalid]
    exact congrArg Except.ok (Prod.ext hsplits.copy_sliceTo_eq hsplits.copy_sliceFrom_eq)

@[simp] theorem takeBytes_append (t u : String) :
    takeBytes (t ++ u) t.utf8ByteSize = .ok t := by
  rw [takeBytes, cutAt_eq_ok_iff.mpr ⟨rfl, rfl⟩]
  rfl

@[simp] theorem dropBytes_append (t u : String) :
    dropBytes (t ++ u) t.utf8ByteSize = .ok u := by
  rw [dropBytes, cutAt_eq_ok_iff.mpr ⟨rfl, rfl⟩]
  rfl

/-- The second character takes two bytes, and the text three. -/
example : cutAt "né" 2 = .error (.insideCharacter 2) ∧ cutAt "né" 4 = .error (.pastEnd 4) := by
  cbv

end Text

end BeanScript
