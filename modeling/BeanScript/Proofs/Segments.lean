import BeanScript.ClassName.Offsets

/-!
# Segments of class names

The type path of a class name begins with the first of its segments that begins with an upper-case
character. The parts of the name are known from that segment and those around it, and cutting at the
counted offset gives these parts: the offset is the size of the segments before, each with its dot,
so it always lies between two parts of the name.

## Main definitions

* `withDotsAfter`, `withDotsBefore` — segments as they stand before and after another one
* `ClassName.TypeSegment` — the first segment of a type, with those around it

## Main results

* `ClassName.TypeSegment.path?_eq` — the type path of a name, from its segments
* `ClassName.TypeSegment.typeOffset?_eq` — the offset is that of the type path
* `ClassName.cuts_eq_parts` — every name can be cut, and where
-/

namespace BeanScript

/-- What is between separators holds none. -/
theorem not_mem_of_mem_splitOn [BEq α] [LawfulBEq α] {a : α} {xs part : List α}
    (h : part ∈ xs.splitOn a) : a ∉ part := by
  induction xs generalizing part with
  | nil =>
    rw [List.splitOn_nil, List.mem_singleton] at h
    simp [h]
  | cons x xs ih =>
    obtain ⟨first, others, hsplit⟩ := List.exists_cons_of_ne_nil (List.splitOn_ne_nil a xs)
    rw [List.splitOn_cons_eq_if_modifyHead, hsplit] at h
    split at h
    next =>
      rcases List.mem_cons.mp h with rfl | h
      · exact List.not_mem_nil
      · exact ih (hsplit ▸ h)
    next hx =>
      rw [List.modifyHead_cons] at h
      rcases List.mem_cons.mp h with rfl | h
      · have hfirst : a ∉ first := ih (hsplit ▸ List.mem_cons_self)
        rw [List.mem_cons, not_or]
        exact ⟨fun ha => hx (beq_iff_eq.mpr ha.symm), hfirst⟩
      · exact ih (hsplit ▸ List.mem_cons_of_mem _ h)

/-! ### Segments and dots -/

/-- Segments as they stand before another one. -/
def withDotsAfter (segments : List String) : String :=
  String.join (segments.map (· ++ "."))

/-- Segments as they stand after another one. -/
def withDotsBefore (segments : List String) : String :=
  String.join (segments.map ("." ++ ·))

@[simp] theorem withDotsAfter_nil : withDotsAfter [] = "" := rfl

@[simp] theorem withDotsAfter_cons (segment : String) (segments : List String) :
    withDotsAfter (segment :: segments) = segment ++ "." ++ withDotsAfter segments :=
  String.join_cons

@[simp] theorem withDotsBefore_nil : withDotsBefore [] = "" := rfl

@[simp] theorem withDotsBefore_cons (segment : String) (segments : List String) :
    withDotsBefore (segment :: segments) = "." ++ segment ++ withDotsBefore segments :=
  String.join_cons

theorem intercalate_dot_cons (segment : String) (after : List String) :
    ".".intercalate (segment :: after) = segment ++ withDotsBefore after := by
  induction after generalizing segment with
  | nil => simp
  | cons next after ih => simp [ih, String.append_assoc]

theorem intercalate_dot_append (before : List String) (segment : String) (after : List String) :
    ".".intercalate (before ++ segment :: after) =
      withDotsAfter before ++ segment ++ withDotsBefore after := by
  induction before with
  | nil => simp [intercalate_dot_cons]
  | cons first before ih =>
    rw [List.cons_append, String.intercalate_cons_of_ne_nil (by simp), ih]
    simp [String.append_assoc]

/-- The dot after the last of some segments ends what stands before the next one. -/
theorem withDotsAfter_eq {segments : List String} (h : segments ≠ []) :
    withDotsAfter segments = ".".intercalate segments ++ "." := by
  induction segments with
  | nil => exact absurd rfl h
  | cons segment segments ih =>
    cases segments with
    | nil => simp
    | cons next segments =>
      rw [withDotsAfter_cons, ih (List.cons_ne_nil _ _), String.intercalate_cons_cons]
      simp [String.append_assoc]

namespace ClassName

variable {c : ClassName} {before : List String} {segment : String}

theorem segments_eq_splitOn (c : ClassName) :
    c.segments = (c.text.toList.splitOn '.').map String.ofList :=
  String.toList_split_char

theorem segments_ne_nil (c : ClassName) : c.segments ≠ [] := by
  simp [segments_eq_splitOn, List.splitOn_ne_nil]

theorem dot_not_mem (h : segment ∈ c.segments) : '.' ∉ segment.toList := by
  rw [segments_eq_splitOn] at h
  obtain ⟨part, hpart, rfl⟩ := List.mem_map.mp h
  rw [String.toList_ofList]
  exact not_mem_of_mem_splitOn hpart

/-- The segments of a name, with dots between them, make up the name. -/
theorem intercalate_segments (c : ClassName) : ".".intercalate c.segments = c.text := by
  apply String.toList_injective
  rw [String.toList_intercalate, segments_eq_splitOn, List.map_map]
  simp [Function.comp_def, List.intercalate_splitOn]

/-! ### Cutting character by character -/

/-- A type path does not begin where no upper-case character stands. -/
theorem cutAtType_of_lower {cs : List Char} (h : ¬ cs.head?.any Text.isUppercase) :
    cutAtType true cs = cutAtType false cs := by
  cases cs with
  | nil => rfl
  | cons x cs =>
    have hx : Text.isUppercase x = false := by simpa using h
    rw [cutAtType, cutAtType, hx, Bool.and_false, Bool.and_false]

/-- Nor does it begin inside a segment. -/
theorem cutAtType_inside {cs : List Char} (hdot : '.' ∉ cs) (rest : List Char) :
    cutAtType false (cs ++ rest) =
      (cutAtType false rest).map fun (lead, path) => (cs ++ lead, path) := by
  induction cs with
  | nil => simp
  | cons x cs ih =>
    rw [List.mem_cons, not_or] at hdot
    rw [List.cons_append, cutAtType, Bool.false_and, if_neg Bool.false_ne_true,
      beq_false_of_ne (Ne.symm hdot.1), ih hdot.2, Option.map_map]
    rfl

/-- A segment that does not begin with an upper-case character is passed over, with its dot. -/
theorem cutAtType_segment (hdot : '.' ∉ segment.toList) (hlower : ¬ beginsUppercase segment)
    (rest : List Char) :
    cutAtType true (segment.toList ++ '.' :: rest) =
      (cutAtType true rest).map fun (lead, path) => (segment.toList ++ '.' :: lead, path) := by
  have hhead : ¬ (segment.toList ++ '.' :: rest).head?.any Text.isUppercase := by
    cases hcs : segment.toList with
    | nil =>
      show ¬ Text.isUppercase '.'
      decide
    | cons x cs => simpa [beginsUppercase, hcs] using hlower
  have hstep : cutAtType false ('.' :: rest) =
      (cutAtType true rest).map fun (lead, path) => ('.' :: lead, path) := rfl
  rw [cutAtType_of_lower hhead, cutAtType_inside hdot, hstep, Option.map_map]
  rfl

theorem cutAtType_eq_none (hdot : '.' ∉ segment.toList) (hlower : ¬ beginsUppercase segment) :
    cutAtType true segment.toList = none := by
  have hinside := cutAtType_inside hdot []
  rw [List.append_nil] at hinside
  rw [cutAtType_of_lower hlower, hinside]
  rfl

/-- The type path begins where a segment begins with an upper-case character. -/
theorem cutAtType_of_beginsUppercase (h : beginsUppercase segment) (rest : List Char) :
    cutAtType true (segment.toList ++ rest) = some ([], segment.toList ++ rest) := by
  rw [beginsUppercase] at h
  cases hcs : segment.toList with
  | nil => simp [hcs] at h
  | cons x cs =>
    have hcut : (true && Text.isUppercase x) := by simpa [hcs] using h
    rw [List.cons_append, cutAtType, if_pos hcut]

theorem cutAtType_withDotsAfter (hdot : ∀ s ∈ before, '.' ∉ s.toList)
    (hlower : ∀ s ∈ before, ¬ beginsUppercase s) (rest : List Char) :
    cutAtType true ((withDotsAfter before).toList ++ rest) =
      (cutAtType true rest).map fun (lead, path) =>
        ((withDotsAfter before).toList ++ lead, path) := by
  induction before with
  | nil => simp
  | cons s before ih =>
    rw [List.forall_mem_cons] at hdot hlower
    have htext : (withDotsAfter (s :: before)).toList ++ rest =
        s.toList ++ '.' :: ((withDotsAfter before).toList ++ rest) := by
      simp
    rw [htext, cutAtType_segment hdot.1 hlower.1, ih hdot.2 hlower.2, Option.map_map]
    simp [Function.comp_def]

/-! ### The first segment of a type -/

/-- The first segment of a name that begins with an upper-case character, and those around it. -/
structure TypeSegment (c : ClassName) where
  before : List String
  segment : String
  after : List String
  segments_eq : c.segments = before ++ segment :: after
  lower : ∀ s ∈ before, ¬ beginsUppercase s
  upper : beginsUppercase segment

theorem exists_typeSegment (h : ∃ segment ∈ c.segments, beginsUppercase segment) :
    Nonempty c.TypeSegment := by
  obtain ⟨segment, hfound⟩ := Option.isSome_iff_exists.mp (List.find?_isSome.mpr h)
  obtain ⟨hupper, before, after, hsegments, hlower⟩ := List.find?_eq_some_iff_append.mp hfound
  exact ⟨{ before, segment, after, segments_eq := hsegments, upper := hupper
           lower := fun s hs => by simpa using hlower s hs }⟩

namespace TypeSegment

variable (t : c.TypeSegment)

/-- What stands before the segment. -/
def lead : String :=
  withDotsAfter t.before

/-- What stands after the segment. -/
def nested : String :=
  withDotsBefore t.after

theorem text_eq : c.text = t.lead ++ t.segment ++ t.nested := by
  rw [← intercalate_segments, t.segments_eq]
  exact intercalate_dot_append t.before t.segment t.after

theorem dot_not_mem_segment : '.' ∉ t.segment.toList := by
  have hmem : t.segment ∈ c.segments := by simp [t.segments_eq]
  exact dot_not_mem hmem

theorem dot_not_mem_before : ∀ s ∈ t.before, '.' ∉ s.toList := by
  intro s hs
  have hmem : s ∈ c.segments := by simp [t.segments_eq, hs]
  exact dot_not_mem hmem

/-- What stands after the segment begins with a dot. -/
theorem nested_eq : t.nested = "" ∨ ∃ rest, t.nested = "." ++ rest := by
  rw [nested]
  cases t.after with
  | nil => exact .inl rfl
  | cons s after => exact .inr ⟨_, by rw [withDotsBefore_cons, String.append_assoc]⟩

theorem path?_eq : c.path? = some { lead := t.lead, short := t.segment, nested := t.nested } := by
  have hcut : cutAtType true c.text.toList =
      some (t.lead.toList, t.segment.toList ++ t.nested.toList) := by
    rw [t.text_eq, String.toList_append, String.toList_append, List.append_assoc, lead,
      cutAtType_withDotsAfter t.dot_not_mem_before t.lower,
      cutAtType_of_beginsUppercase t.upper]
    simp
  have hsegment : ∀ x ∈ t.segment.toList, x != '.' := fun x hx =>
    bne_iff_ne.mpr fun hdot => t.dot_not_mem_segment (hdot ▸ hx)
  have hnested : t.nested.toList.takeWhile (· != '.') = [] ∧
      t.nested.toList.dropWhile (· != '.') = t.nested.toList := by
    rcases t.nested_eq with h | ⟨rest, h⟩ <;> rw [h] <;> simp
  simp only [path?, hcut, Option.map_some, List.takeWhile_append_of_pos hsegment,
    List.dropWhile_append_of_pos hsegment, hnested.1, hnested.2, List.append_nil,
    String.ofList_toList]

theorem simpleName_eq : c.simpleName = t.segment ++ t.nested := by
  rw [simpleName, t.path?_eq]

theorem topLevel?_eq : c.topLevel? = some (t.lead ++ t.segment) := by
  rw [topLevel?, t.path?_eq]
  rfl

/-- The package is what stands before the segment, without its final dot. -/
theorem lead_eq :
    if t.before = [] then t.lead = "" ∧ c.package = "" else t.lead = c.package ++ "." := by
  have hpackage : c.package = String.ofList t.lead.toList.dropLast := by rw [package, t.path?_eq]
  split
  next h =>
    have hlead : t.lead = "" := by rw [lead, h, withDotsAfter_nil]
    exact ⟨hlead, by simp [hpackage, hlead]⟩
  next h =>
    have hdrop : (withDotsAfter t.before).toList.dropLast = (".".intercalate t.before).toList := by
      rw [withDotsAfter_eq h, String.toList_append]
      exact List.dropLast_concat
    rw [hpackage, lead, hdrop, String.ofList_toList, withDotsAfter_eq h]

end TypeSegment

/-! ### Counting offsets -/

/-- Segments that do not begin with an upper-case character are passed over, with their dots. -/
theorem typeOffsetFrom?_append (hlower : ∀ s ∈ before, ¬ beginsUppercase s) (offset : Nat)
    (rest : List String) :
    typeOffsetFrom? offset (before ++ rest) =
      typeOffsetFrom? (offset + (withDotsAfter before).utf8ByteSize) rest := by
  induction before generalizing offset with
  | nil => rfl
  | cons s before ih =>
    rw [List.forall_mem_cons] at hlower
    have hsize : (withDotsAfter (s :: before)).utf8ByteSize =
        s.utf8ByteSize + 1 + (withDotsAfter before).utf8ByteSize := by
      rw [withDotsAfter_cons, String.utf8ByteSize_append, String.utf8ByteSize_append]
      rfl
    rw [List.cons_append, typeOffsetFrom?, if_neg hlower.1, ih hlower.2, hsize, Nat.add_assoc]

theorem TypeSegment.typeOffset?_eq (t : c.TypeSegment) :
    c.typeOffset? = some t.lead.utf8ByteSize := by
  rw [typeOffset?, t.segments_eq, typeOffsetFrom?_append t.lower, typeOffsetFrom?, if_pos t.upper,
    Nat.zero_add]
  rfl

theorem typeOffset?_eq_none (h : ∀ segment ∈ c.segments, ¬ beginsUppercase segment) :
    c.typeOffset? = none := by
  have happend := typeOffsetFrom?_append h 0 []
  rw [List.append_nil] at happend
  rw [typeOffset?, happend, typeOffsetFrom?]

theorem path?_eq_none (h : ∀ segment ∈ c.segments, ¬ beginsUppercase segment) :
    c.path? = none := by
  obtain ⟨before, last, hsegments⟩ :=
    (List.eq_nil_or_concat c.segments).resolve_left c.segments_ne_nil
  rw [List.concat_eq_append] at hsegments
  have htext : c.text = withDotsAfter before ++ last := by
    rw [← intercalate_segments, hsegments, intercalate_dot_append, withDotsBefore_nil,
      String.append_empty]
  have hdot : ∀ segment ∈ c.segments, '.' ∉ segment.toList := fun _ => dot_not_mem
  rw [hsegments, List.forall_mem_append, List.forall_mem_singleton] at h hdot
  rw [path?, htext, String.toList_append, cutAtType_withDotsAfter hdot.1 h.1,
    cutAtType_eq_none hdot.2 h.2]
  rfl

/-! ### Cutting at the offsets -/

namespace TypeSegment

variable (t : c.TypeSegment)

theorem dropBytes_lead :
    Text.dropBytes c.text t.lead.utf8ByteSize = .ok (t.segment ++ t.nested) := by
  rw [t.text_eq, String.append_assoc, Text.dropBytes_append]

theorem cutSimpleName_eq : c.cutSimpleName = .ok (t.segment ++ t.nested) := by
  rw [cutSimpleName, t.typeOffset?_eq]
  exact t.dropBytes_lead

/-- The segment ends before the first dot of the type path, or with the name. -/
theorem stop_eq :
    (Text.offsetOf? '.' (t.segment ++ t.nested)).elim c.text.utf8ByteSize
      (t.lead.utf8ByteSize + ·) = (t.lead ++ t.segment).utf8ByteSize := by
  rcases t.nested_eq with h | ⟨rest, h⟩
  · rw [h, String.append_empty, Text.offsetOf?_eq_none t.dot_not_mem_segment, Option.elim_none,
      t.text_eq, h, String.append_empty]
  · have hdot : Text.offsetOf? '.' (t.segment ++ ("." ++ rest)) = some t.segment.utf8ByteSize :=
      Text.offsetOf?_append t.dot_not_mem_segment rest
    rw [h, hdot, Option.elim_some, String.utf8ByteSize_append]

theorem cutTopLevel?_eq : c.cutTopLevel? = .ok (some (t.lead ++ t.segment)) := by
  have htake : Text.takeBytes c.text (t.lead ++ t.segment).utf8ByteSize =
      .ok (t.lead ++ t.segment) := by
    rw [t.text_eq, Text.takeBytes_append]
  rw [cutTopLevel?, t.typeOffset?_eq]
  show (Text.dropBytes c.text t.lead.utf8ByteSize >>= _) = _
  rw [t.dropBytes_lead]
  show (Text.takeBytes c.text _ >>= _) = _
  rw [t.stop_eq, htake]
  rfl

theorem cutPackage_eq (t : c.TypeSegment) : c.cutPackage = .ok c.package := by
  have hlead := t.lead_eq
  split at hlead
  next h =>
    rw [cutPackage, t.typeOffset?_eq, hlead.1, hlead.2]
    rfl
  next h =>
    have hsize : t.lead.utf8ByteSize = c.package.utf8ByteSize + 1 := by
      rw [hlead, String.utf8ByteSize_append]
      rfl
    have htext : c.text = c.package ++ ("." ++ t.segment ++ t.nested) := by
      rw [t.text_eq, hlead]
      simp [String.append_assoc]
    have htake : Text.takeBytes c.text c.package.utf8ByteSize = .ok c.package := by
      rw [htext, Text.takeBytes_append]
    rw [cutPackage, t.typeOffset?_eq, hsize]
    show (Text.stepBack (c.package.utf8ByteSize + 1) 1 >>= Text.takeBytes c.text) = _
    rw [Text.stepBack_add]
    exact htake

end TypeSegment

/-- Every name is cut within its bounds and between characters, and the cuts give its parts. Where
no segment begins with an upper-case character, there is nothing to cut. Otherwise the first one
that does begins the simple name and ends the top-level type, and the package is what stands before
it, without the dot between them. -/
theorem cuts_eq_parts (c : ClassName) :
    c.cutPackage = .ok c.package ∧ c.cutSimpleName = .ok c.simpleName ∧
      c.cutTopLevel? = .ok c.topLevel? ∧
    if ∃ segment ∈ c.segments, beginsUppercase segment then
      ∃ t : c.TypeSegment,
        c.typeOffset? = some t.lead.utf8ByteSize ∧
        c.text = t.lead ++ t.segment ++ t.nested ∧
        c.simpleName = t.segment ++ t.nested ∧
        c.topLevel? = some (t.lead ++ t.segment) ∧
        if t.before = [] then t.lead = "" ∧ c.package = "" else t.lead = c.package ++ "."
    else
      c.typeOffset? = none ∧ c.package = "" ∧ c.simpleName = c.text ∧ c.topLevel? = none := by
  split
  next h =>
    obtain ⟨t⟩ := exists_typeSegment h
    refine ⟨t.cutPackage_eq, ?_, ?_, t, t.typeOffset?_eq, t.text_eq, t.simpleName_eq,
      t.topLevel?_eq, t.lead_eq⟩
    · rw [t.cutSimpleName_eq, t.simpleName_eq]
    · rw [t.cutTopLevel?_eq, t.topLevel?_eq]
  next h =>
    have hlower : ∀ segment ∈ c.segments, ¬ beginsUppercase segment := fun segment hmem hupper =>
      h ⟨segment, hmem, hupper⟩
    have hoffset := typeOffset?_eq_none hlower
    have hpath := path?_eq_none hlower
    have hpackage : c.package = "" := by rw [package, hpath]
    have hsimple : c.simpleName = c.text := by rw [simpleName, hpath]
    have htop : c.topLevel? = none := by rw [topLevel?, hpath]; rfl
    refine ⟨?_, ?_, ?_, hoffset, hpackage, hsimple, htop⟩
    · rw [cutPackage, hoffset, hpackage]; rfl
    · rw [cutSimpleName, hoffset, hsimple]; rfl
    · rw [cutTopLevel?, hoffset, htop]; rfl

/-- The type path begins at offset 4: after a segment of two bytes, an empty one, and their dots. -/
example : (⟨"é..Ü.B"⟩ : ClassName).cutPackage = .ok "é." := by
  cbv

end ClassName

end BeanScript
