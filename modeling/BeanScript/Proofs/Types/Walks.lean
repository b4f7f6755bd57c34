import BeanScript.Proofs.Histories
import BeanScript.Proofs.Loops
import BeanScript.Proofs.Types.Hierarchy

/-!
# The walk up the chain, turn by turn

`TypeSource.ancestry` knows how many types there are and goes no further than that. The walk that
collects methods turn by turn knows no such bound. It goes on from a type to its superclass and
remembers where it has been, and what makes it end is only that there are finitely many types: each
turn visits one more. Chains that turn back on themselves and chains that leave the known types are
all the same to this argument.

While it goes on, the walk keeps a declared method if it has kept none with the same signature. What
it has kept in the end is decided by the declarations alone: a method is there if none with the same
signature was declared before it.

## Main definitions

* `TypeSource.IsChain` — the types of a superclass chain, each of them once
* `Walk`, `Walk.next?` — how far a walk has come, and one more turn

## Main results

* `Registry.describe_ofList` — of the descriptions of a type the last one counts
* `TypeSource.isChain_ancestry`, `Walk.ends` — the chain, and the walk that ends at its end
* `Registry.visibleMethods_ofList` — the methods visible on a type of a registry
-/

namespace BeanScript

/-! ### Registries -/

/-- Of the descriptions of a type the last one counts. -/
theorem Registry.describe_ofList (types : List TypeDecl) (name : ClassName) :
    (ofList types).source.describe name = types.reverse.find? (·.type == name) := by
  change Table.get? (ofList types) name = _
  induction types using List.reverseRecOn with
  | nil => rfl
  | append_singleton types d ih =>
    rw [ofList, List.foldl_concat, ← ofList, register, Table.get?_put, ih, List.reverse_append,
      List.reverse_singleton, List.singleton_append, List.find?_cons]
    cases d.type == name <;> rfl

/-- A registry knows the types that were registered. -/
theorem Registry.exists_describe_ofList_iff {types : List TypeDecl} {name : ClassName} :
    (∃ d, (ofList types).source.describe name = some d) ↔ ∃ d ∈ types, d.type = name := by
  rw [describe_ofList, ← Option.isSome_iff_exists, List.find?_isSome]
  simp

/-- It knows no others. -/
theorem Registry.describe_ofList_eq_none_iff {types : List TypeDecl} {name : ClassName} :
    (ofList types).source.describe name = none ↔ ∀ d ∈ types, d.type ≠ name := by
  rw [describe_ofList, List.find?_eq_none]
  simp

namespace TypeSource

variable {source : TypeSource} {type : ClassName} {d : TypeDecl}

/-! ### The chain -/

/-- The types of a superclass chain, in order and each of them once: up to the last one before a
superclass that is not known, or before the chain comes back to one of them. -/
structure IsChain (source : TypeSource) (type : ClassName) (chain : List TypeDecl) : Prop where
  ancestor : ∀ i (hi : i < chain.length), source.ancestor? type i = some chain[i]
  nodup : (chain.map (·.type)).Nodup
  complete : ∀ n d, source.ancestor? type n = some d → d ∈ chain

/-- The walk visits no type twice, and none that was visited before. -/
theorem nodup_ancestryFrom (source : TypeSource) (n : Nat) (seen : List ClassName) (d : TypeDecl) :
    ((source.ancestryFrom n seen d).map (·.type)).Nodup ∧
      ∀ e ∈ source.ancestryFrom n seen d, e.type ∉ seen := by
  induction n generalizing seen d with
  | zero => exact ⟨.nil, List.forall_mem_nil _⟩
  | succ n ih =>
    rw [ancestryFrom]
    split
    · exact ⟨.nil, List.forall_mem_nil _⟩
    next hnew =>
    split
    · exact ⟨List.nodup_singleton _, List.forall_mem_singleton.mpr hnew⟩
    next parent _ =>
    obtain ⟨hnodup, hunseen⟩ := ih (d.type :: seen) parent
    refine ⟨List.nodup_cons.mpr ⟨fun hmem => ?_, hnodup⟩, List.forall_mem_cons.mpr ⟨hnew, ?_⟩⟩
    · obtain ⟨e, he, heq⟩ := List.mem_map.mp hmem
      exact hunseen e he (heq ▸ List.mem_cons_self)
    · exact fun e he hseen => hunseen e he (List.mem_cons_of_mem _ hseen)

theorem isChain_ancestry (hf : source.Faithful) (hd : source.describe type = some d) :
    source.IsChain type (source.ancestry d) where
  ancestor _ hi := ancestor?_of_ancestry hd (List.getElem?_eq_getElem hi)
  nodup := (nodup_ancestryFrom source _ _ d).1
  complete n _ hn := (mem_ancestry_iff hf hd).mpr ⟨n, hn⟩

/-- The methods of a type cannot be looked up if the type itself is not known. -/
theorem visibleMethods_eq_error_iff {e : UnknownType} :
    source.visibleMethods type = .error e ↔ e = { type } ∧ source.describe type = none := by
  rw [visibleMethods]
  cases source.describe type with
  | none => simp [eq_comm]
  | some d => simp

end TypeSource

/-! ### The walk -/

/-- How far a walk has come: the methods it has kept, the types it has been to, the latest first,
and the type it comes to next. -/
structure Walk where
  kept : List Member := []
  visited : List ClassName := []
  current : Option TypeDecl

namespace Walk

variable {source : TypeSource} {type : ClassName} {d : TypeDecl}

/-- A walk begins at a type. -/
def start (source : TypeSource) (type : ClassName) : Walk :=
  { current := source.describe type }

/-- One more turn: at a new type, keep the methods that have no kept one with the same signature,
and go on to the superclass if it is known. -/
def next? (source : TypeSource) (w : Walk) : Option Walk :=
  w.current.bind fun d =>
    if d.type ∈ w.visited then none
    else
      some
        { kept := (Member.ofType d).foldl (Distinct.add Member.sameSignature) w.kept
          visited := d.type :: w.visited
          current := source.parent? d }

/-- With enough types left to visit, a walk goes to the end of the chain and ends there. -/
theorem ends_from (hf : source.Faithful) {n : Nat} {seen : List ClassName}
    (hseen : TypeSource.Visited source n seen) (hd : source.describe d.type = some d)
    (kept : List Member) :
    ∃ current, Loop.Ends (next? source) { kept, visited := seen, current := some d }
      (source.ancestryFrom n seen d).length
      { kept := ((source.ancestryFrom n seen d).flatMap Member.ofType).foldl
          (Distinct.add Member.sameSignature) kept
        visited := ((source.ancestryFrom n seen d).map (·.type)).reverse ++ seen
        current } := by
  induction n generalizing seen d kept with
  | zero =>
    -- there is nothing left to visit, so the type has been visited
    have hvisited : d.type ∈ seen := by
      by_contra hnew
      exact List.not_mem_nil (hseen.mem_ancestryFrom hd hnew)
    exact ⟨some d, .refl (by simp [next?, hvisited])⟩
  | succ n ih =>
    rw [TypeSource.ancestryFrom]
    by_cases hvisited : d.type ∈ seen
    · rw [if_pos hvisited]
      exact ⟨some d, .refl (by simp [next?, hvisited])⟩
    rw [if_neg hvisited]
    have hnext : next? source { kept, visited := seen, current := some d } = some
        { kept := (Member.ofType d).foldl (Distinct.add Member.sameSignature) kept
          visited := d.type :: seen
          current := source.parent? d } := by
      simp [next?, hvisited]
    rw [TypeSource.parent?] at hnext
    cases hparent : d.superclass.bind source.describe with
    | none =>
      rw [hparent] at hnext
      exact ⟨none, by simpa using Loop.Ends.step hnext (.refl rfl)⟩
    | some parent =>
      rw [hparent] at hnext
      obtain ⟨_, -, hname⟩ := Option.bind_eq_some_iff.mp hparent
      obtain ⟨current, hends⟩ := ih (hseen.cons hd hvisited) (hf.describe_type hname)
        ((Member.ofType d).foldl (Distinct.add Member.sameSignature) kept)
      exact ⟨current, by simpa using hends.step hnext⟩

/-- A walk from a known type takes one turn for each type of the chain. -/
theorem ends (hf : source.Faithful) (hd : source.describe type = some d) :
    ∃ last : Walk, Loop.Ends (next? source) (start source type) (source.ancestry d).length last ∧
      last.visited = ((source.ancestry d).map (·.type)).reverse ∧
      last.kept = Distinct.ofList Member.sameSignature
        ((source.ancestry d).flatMap Member.ofType) := by
  obtain ⟨current, hends⟩ := ends_from hf (.nil source) (hf.describe_type hd) []
  rw [start, hd]
  exact ⟨_, hends, List.append_nil _, rfl⟩

end Walk

/-- The visible methods of a type are those that are declared along its chain without one of the
same signature before them, in order. -/
theorem Member.follows_ofList (declared : List Member) :
    Distinct.Follows Member.sameSignature (Distinct.ofList Member.sameSignature declared)
      declared :=
  Distinct.follows_ofList sameSignature_trans fun m _ => m.sameSignature_refl

/-- Looking up the methods of a type fails for the types that are not registered. For all others the
walk up the chain ends, after one turn for each type of the chain, and what it has kept are the
methods declared along the chain that have none with the same signature before them. -/
theorem Registry.visibleMethods_ofList (types : List TypeDecl) (type : ClassName) :
    let source := (Registry.ofList types).source
    (∀ e, source.visibleMethods type = .error e ↔ e = { type } ∧ ∀ d ∈ types, d.type ≠ type) ∧
    ((∃ d ∈ types, d.type = type) → ∃ (chain : List TypeDecl) (last : Walk),
      source.IsChain type chain ∧
      Loop.Ends (Walk.next? source) (Walk.start source type) chain.length last ∧
      last.visited = (chain.map (·.type)).reverse ∧
      source.visibleMethods type = .ok last.kept ∧
      Distinct.Follows Member.sameSignature last.kept (chain.flatMap Member.ofType) ∧
      last.kept.Pairwise fun m n =>
        ¬ (m.method.name = n.method.name ∧ m.method.parameterTypes = n.method.parameterTypes)) := by
  intro source
  refine ⟨fun e => ?_, fun hregistered => ?_⟩
  · rw [TypeSource.visibleMethods_eq_error_iff, describe_ofList_eq_none_iff]
  · obtain ⟨d, hd⟩ := exists_describe_ofList_iff.mpr hregistered
    have hf : source.Faithful := faithful_source types
    obtain ⟨last, hends, hvisited, hkept⟩ := Walk.ends hf hd
    have hmethods : source.visibleMethods type = .ok last.kept := by
      rw [TypeSource.visibleMethods, hd, hkept]
    refine ⟨source.ancestry d, last, TypeSource.isChain_ancestry hf hd, hends, hvisited, hmethods,
      hkept ▸ Member.follows_ofList _, ?_⟩
    simpa only [Member.sameSignature_iff] using TypeSource.pairwise_visibleMethods hmethods

/-- Two types that are each other's superclass, the first of them registered twice. A method that is
declared again under other access counts once, and one that is overridden counts where it is
nearer. -/
theorem Registry.visibleMethods_ofList_cycle :
    let child : TypeDecl :=
      { type := ⟨"Child"⟩, superclass := some ⟨"Parent"⟩
        methods := [.setter "size" ⟨"int"⟩, { name := "init" },
          { name := "init", visibility := .privateAccess }] }
    let parent : TypeDecl :=
      { type := ⟨"Parent"⟩, superclass := some ⟨"Child"⟩
        methods := [{ name := "init" }, { name := "init", parameterTypes := [⟨"int"⟩] }] }
    let types := [{ child with superclass := none }, parent, child]
    let source := (Registry.ofList types).source
    (∃ d ∈ types, d.type = child.type) ∧
      (∃ (chain : List TypeDecl) (last : Walk),
        source.IsChain child.type chain ∧
        Loop.Ends (Walk.next? source) (Walk.start source child.type) chain.length last ∧
        last.visited = (chain.map (·.type)).reverse ∧
        source.visibleMethods child.type = .ok last.kept ∧
        Distinct.Follows Member.sameSignature last.kept (chain.flatMap Member.ofType) ∧
        last.kept.Pairwise fun m n => ¬ (m.method.name = n.method.name ∧
          m.method.parameterTypes = n.method.parameterTypes)) ∧
      source.visibleMethods child.type = .ok
        [⟨⟨"Child"⟩, .setter "size" ⟨"int"⟩⟩, ⟨⟨"Child"⟩, { name := "init" }⟩,
          ⟨⟨"Parent"⟩, { name := "init", parameterTypes := [⟨"int"⟩] }⟩] := by
  intro child parent types source
  have hregistered : ∃ d ∈ types, d.type = child.type := ⟨child, by simp [types], rfl⟩
  exact ⟨hregistered, (visibleMethods_ofList types child.type).2 hregistered, by decide⟩

end BeanScript
