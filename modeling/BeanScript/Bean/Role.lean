/-!
# Roles

The role of a bean in an application: a number, with symbolic constants for the well-known ones.

## Main definitions

* `Role`, `Role.constant?`, `Role.ofConstant?`, `Role.display`

## Main results

* `Role.ofConstant?_eq_some_iff` — the constants name exactly the well-known roles
-/

namespace BeanScript

/-- The role of a bean. -/
structure Role where
  code : Int32
deriving DecidableEq

namespace Role

/-- A major part of the application. -/
def application : Role := ⟨0⟩

/-- A supporting part of some larger configuration. -/
def support : Role := ⟨1⟩

/-- Entirely background infrastructure. -/
def infrastructure : Role := ⟨2⟩

/-- The symbolic constant of a well-known role. -/
def constant? (r : Role) : Option String :=
  if r = application then some "ROLE_APPLICATION"
  else if r = support then some "ROLE_SUPPORT"
  else if r = infrastructure then some "ROLE_INFRASTRUCTURE"
  else none

/-- The role that a symbolic constant stands for. -/
def ofConstant? (name : String) : Option Role :=
  [application, support, infrastructure].find? (·.constant? == some name)

/-- The symbolic constant, or the number where there is none. -/
def display (r : Role) : String :=
  r.constant?.getD (toString r.code.toInt)

/-- A text stands for a role exactly if it is the constant of that role. -/
theorem ofConstant?_eq_some_iff {name : String} {r : Role} :
    ofConstant? name = some r ↔ r.constant? = some name := by
  constructor
  · intro h
    simpa using List.find?_some h
  · intro h
    have known : r = application ∨ r = support ∨ r = infrastructure := by
      rw [constant?] at h
      split at h
      · simp [*]
      · split at h
        · simp [*]
        · split at h
          · simp [*]
          · cases h
    rcases known with rfl | rfl | rfl <;> cases h <;> decide

end Role

end BeanScript
