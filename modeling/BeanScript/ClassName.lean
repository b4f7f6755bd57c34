import BeanScript.Text.Uppercase

/-!
# Class names

A type is referred to by its canonical, dot-separated name. The type path starts at the first
segment that begins with an upper-case character; what comes before it is the package. Names
without such a segment are those of primitive types.

## Main definitions

* `ClassName`
* `ClassName.path?` — the name cut at the start and the end of its first type segment
* `ClassName.package`, `ClassName.simpleName`, `ClassName.topLevel?`, `ClassName.isImplicit`

## Main results

* `ClassName.text_of_path?` — the parts of a name make up the name
-/

namespace BeanScript

/-- A type, by its canonical name. -/
structure ClassName where
  text : String
deriving DecidableEq

/-- A name cut at its first type segment: `lead` is what stands before it, its dot included,
`short` the segment itself, and `nested` what follows, with its dot. -/
structure TypePath where
  lead : String
  short : String
  nested : String
deriving DecidableEq

namespace ClassName

/-- Cut the given characters before the first segment that begins with an upper-case character.
The flag says that a segment begins here. -/
def cutAtType : Bool → List Char → Option (List Char × List Char)
  | _, [] => none
  | atStart, c :: cs =>
    if atStart && Text.isUppercase c then some ([], c :: cs)
    else (cutAtType (c == '.') cs).map fun (before, rest) => (c :: before, rest)

/-- The parts of the name around its first type segment; `none` for a primitive type. -/
def path? (c : ClassName) : Option TypePath :=
  (cutAtType true c.text.toList).map fun (before, rest) =>
    { lead := String.ofList before
      short := String.ofList (rest.takeWhile (· != '.'))
      nested := String.ofList (rest.dropWhile (· != '.')) }

/-- The package: what stands before the type path, without its dot. -/
def package (c : ClassName) : String :=
  match c.path? with
  | some path => String.ofList path.lead.toList.dropLast
  | none => ""

/-- The name from the type path on, as written after an import; for a primitive type its whole
name. -/
def simpleName (c : ClassName) : String :=
  match c.path? with
  | some path => path.short ++ path.nested
  | none => c.text

/-- The top-level type, which an import names. -/
def topLevel? (c : ClassName) : Option String :=
  c.path?.map fun path => path.lead ++ path.short

/-- Whether the type needs no import: primitive types, types without a package, and those of
`java.lang`. -/
def isImplicit (c : ClassName) : Bool :=
  c.path?.isNone || c.package == "java.lang" || c.package == ""

theorem cutAtType_append {atStart : Bool} {cs before rest : List Char}
    (h : cutAtType atStart cs = some (before, rest)) : before ++ rest = cs := by
  induction cs generalizing atStart before with
  | nil => simp [cutAtType] at h
  | cons c cs ih =>
    simp only [cutAtType] at h
    split at h
    · cases h; rfl
    · obtain ⟨⟨before', rest'⟩, h', he⟩ := Option.map_eq_some_iff.1 h
      cases he
      simp [ih h']

/-- The parts of a name make up the name. -/
theorem text_of_path? {c : ClassName} {path : TypePath} (h : c.path? = some path) :
    path.lead ++ path.short ++ path.nested = c.text := by
  obtain ⟨⟨before, rest⟩, hcut, rfl⟩ := Option.map_eq_some_iff.1 h
  have := cutAtType_append hcut
  apply String.toList_injective
  simp [← this, List.append_assoc, List.takeWhile_append_dropWhile]

end ClassName

end BeanScript
