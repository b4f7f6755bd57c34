import BeanScript.Proofs.Script.Faults

/-!
# The first offence

Which definitions can be written, and what is reported of one that cannot, is said here without
writing anything. Writing a definition comes to its *sites* one after another: indices, the keys of
maps, values without parts and nested definitions. Whether a site offends is seen from the site
alone and from what the resolver supplies. There is a script when no site offends, and otherwise the
first that does is reported, under the name of the position it belongs to.

The order of the sites is part of the statement. The index of an argument comes before its value,
the primary value of a qualifier before its other attributes, and the kind of a key before what is
in the key. A nested definition is a single site, whatever it holds, and a rejected attribute has
none.

## Main definitions

* `Site`, `Site.offence?` — what writing comes to, and what is wrong there
* `Value.sites`, `Definition.traversal` — the sites in the order in which writing comes to them

## Main results

* `Value.faultOf?_encode_eq` — a value fails for its first offence
* `Generator.script_eq_firstOffence` — so does a script
-/

namespace BeanScript

/-- What writing comes to, besides the values whose parts it goes on to. -/
inductive Site
  | index (i : Nat)
  /-- The kind of a map key, not what is in it. -/
  | mapKey (key : Value)
  | atom (a : Atom)
  | bean (d : Definition)

/-- What is wrong at a site of the position `name`: an index beyond 32 bits, a collection as a map
key, a character beyond 16 bits, or something that only a resolver can supply, and it does not. -/
def Site.offence? (resolve : Resolver) (name : String) : Site → Option EncodeError
  | .index i => if 2 ^ 31 - 1 < i then some (.unsupportedValue name "argument index") else none
  | .mapKey key =>
    if key.isCollection then some (.unsupportedMapKey name key.kindName) else none
  | .atom (.literal (.char c)) =>
    if 0xFFFF < c.toNat then
      some (.unsupportedValue name "char outside the Basic Multilingual Plane")
    else none
  | .atom (.instanceOf type) =>
    if (resolve name (.atom (.instanceOf type))).isSome then none
    else some (.unsupportedValue name (Atom.instanceOf type).kindName)
  | .atom _ => none
  | .bean d => if (resolve name (.bean d)).isSome then none else some (.unresolvedBean name)

/-- The position that the fault is reported for. -/
def EncodeError.position : EncodeError → String
  | .unsupportedValue name _ | .unsupportedMapKey name _ | .unresolvedBean name => name

theorem Site.position_of_offence? {resolve : Resolver} {name : String} {s : Site} {e : EncodeError}
    (h : s.offence? resolve name = some e) : e.position = name := by
  cases s with
  | index | mapKey =>
    obtain ⟨-, ⟨⟩⟩ := Option.ite_none_right_eq_some.mp h
    rfl
  | atom a =>
    cases a with
    | literal l =>
      cases l with
      | char c =>
        obtain ⟨-, ⟨⟩⟩ := Option.ite_none_right_eq_some.mp h
        rfl
      | _ => cases h
    | instanceOf type =>
      obtain ⟨-, ⟨⟩⟩ := Option.ite_none_left_eq_some.mp h
      rfl
    | _ => cases h
  | bean d =>
    obtain ⟨-, ⟨⟩⟩ := Option.ite_none_left_eq_some.mp h
    rfl

mutual

/-- The sites of a value, from left to right. Nothing inside a nested definition is one. -/
def Value.sites : Value → List Site
  | .atom a => [.atom a]
  | .array _ vs | .list _ vs | .set _ vs => elementSites vs
  | .map _ es => entrySites es
  | .bean d => [.bean d]
termination_by structural v => v

/-- The sites of values in turn. -/
def elementSites : List Value → List Site
  | [] => []
  | v :: vs => v.sites ++ elementSites vs
termination_by structural vs => vs

/-- The sites of map entries in turn: the kind of the key, the key and the value. -/
def entrySites : List (Value × Value) → List Site
  | [] => []
  | (key, v) :: es => .mapKey key :: (key.sites ++ v.sites) ++ entrySites es
termination_by structural es => es

end

/-- The sites of a value at the position `name`. -/
def Value.sitesAt (name : String) (v : Value) : List (String × Site) :=
  v.sites.map (name, ·)

/-- The sites of a definition in the order in which writing comes to them, each with the name of the
argument, property or attribute that it belongs to. -/
def Definition.traversal (keep : KeyFilter) (d : Definition) : List (String × Site) :=
  (d.indexed.flatMap fun a =>
    ("arg" ++ toString a.1, .index a.1) :: a.2.value.sitesAt ("arg" ++ toString a.1)) ++
  (d.generic.zipIdx.flatMap fun a =>
    a.1.value.sitesAt (a.1.name.getD ("arg" ++ toString a.2))) ++
  (d.properties.flatMap fun e => e.2.sitesAt e.1) ++
  ((d.attributes.filter fun e => keep e.1).flatMap fun e => e.2.sitesAt e.1) ++
  (d.qualifierList.flatMap fun q => q.inOrder.flatMap fun e => e.2.sitesAt e.1)

/-- The first offence among the given sites. -/
def firstOffence? (resolve : Resolver) (sites : List (String × Site)) : Option EncodeError :=
  sites.findSome? fun s => s.2.offence? resolve s.1

/-! ### Values -/

section Sites

variable {resolve : Resolver} {name : String}

theorem findSome?_flatMap {α : Type u} {β : Type v} {γ : Type w} (l : List α) (g : α → List β)
    (f : β → Option γ) : (l.flatMap g).findSome? f = l.findSome? fun a => (g a).findSome? f := by
  induction l with
  | nil => rfl
  | cons a l ih =>
    rw [List.flatMap_cons, List.findSome?_append, List.findSome?_cons, ih]
    cases (g a).findSome? f <;> rfl

theorem elementSites_eq (vs : List Value) : elementSites vs = vs.flatMap Value.sites := by
  induction vs with
  | nil => rfl
  | cons v vs ih => rw [elementSites, ih, List.flatMap_cons]

theorem entrySites_eq (es : List (Value × Value)) :
    entrySites es = es.flatMap fun e => .mapKey e.1 :: (e.1.sites ++ e.2.sites) := by
  induction es with
  | nil => rfl
  | cons e es ih => rw [entrySites, ih, List.flatMap_cons]

theorem firstOffence?_cons (s : String × Site) (sites : List (String × Site)) :
    firstOffence? resolve (s :: sites)
      = (s.2.offence? resolve s.1).or (firstOffence? resolve sites) := by
  rw [firstOffence?, List.findSome?_cons]
  cases s.2.offence? resolve s.1 <;> rfl

theorem firstOffence?_sitesAt (v : Value) :
    firstOffence? resolve (v.sitesAt name) = v.sites.findSome? (Site.offence? resolve name) := by
  rw [firstOffence?, Value.sitesAt, List.findSome?_map]
  rfl

theorem Atom.faultOf?_encode_eq (a : Atom) :
    faultOf? (a.encode resolve name) = (Site.atom a).offence? resolve name := by
  cases a with
  | literal l =>
    cases l with
    | char c =>
      rw [encode, inBasicPlane, Site.offence?]
      by_cases hc : c.toNat ≤ 0xFFFF
      · rw [if_pos (decide_eq_true hc), if_neg (Nat.not_lt.mpr hc)]
        rfl
      · rw [if_neg (by simpa using hc), if_pos (Nat.not_le.mp hc)]
        rfl
    | _ => rfl
  | instanceOf type =>
    rw [encode, Site.offence?]
    cases resolve name (.atom (.instanceOf type)) <;> rfl
  | _ => rfl

/-- A value fails for its first offence. -/
theorem Value.faultOf?_encode_eq (v : Value) : faultOf? (v.encode resolve name)
    = v.sites.findSome? (Site.offence? resolve name) := by
  have helements : ∀ {vs : List Value},
      (∀ v ∈ vs, faultOf? (v.encode resolve name)
        = v.sites.findSome? (Site.offence? resolve name)) →
      (vs.findSome? fun v => faultOf? (v.encode resolve name))
        = (vs.flatMap Value.sites).findSome? (Site.offence? resolve name) := by
    intro vs ih
    rw [findSome?_flatMap]
    exact findSome?_congr_of_mem ih
  induction v with
  | atom a =>
    rw [encode, sites, List.findSome?_singleton]
    exact a.faultOf?_encode_eq
  | array c vs ih =>
    rw [encode_array, faultOf?_map, faultOf?_mapM, sites, elementSites_eq]
    exact helements ih
  | list k vs ih =>
    rw [encode_list, faultOf?_map, faultOf?_mapM, sites, elementSites_eq]
    exact helements ih
  | set k vs ih =>
    rw [encode_set, faultOf?_map, faultOf?_mapM, sites, elementSites_eq]
    exact helements ih
  | map k es ih =>
    rw [encode_map, faultOf?_map, faultOf?_mapM, sites, entrySites_eq, findSome?_flatMap]
    refine findSome?_congr_of_mem fun e he => ?_
    rw [faultOf?_encodeEntry, List.findSome?_cons, List.findSome?_append, (ih e he).1,
      (ih e he).2, Site.offence?]
    split <;> rfl
  | bean d =>
    rw [encode, sites, List.findSome?_singleton, Site.offence?]
    cases resolve name (.bean d) <;> rfl

end Sites

/-! ### Definitions -/

/-- The sites of a part: an index, where it has one, and then those of its values. -/
def Part.sites : Part → List (String × Site)
  | .indexed index argument => (NestedMethods.indexedPosition index, .index index) ::
    argument.value.sitesAt (NestedMethods.indexedPosition index)
  | p => p.values.flatMap fun e => e.2.sitesAt e.1

theorem Part.firstFault?_eq_firstOffence? (resolve : Resolver) (p : Part) :
    p.firstFault? resolve = firstOffence? resolve p.sites := by
  have hvalues : ∀ es : List (String × Value),
      (es.findSome? fun e => faultOf? (e.2.encode resolve e.1))
        = firstOffence? resolve (es.flatMap fun e => e.2.sitesAt e.1) := by
    intro es
    rw [firstOffence?, findSome?_flatMap]
    refine findSome?_congr_of_mem fun e _ => ?_
    rw [Value.faultOf?_encode_eq, ← firstOffence?_sitesAt]
    rfl
  cases p with
  | indexed index argument =>
    have hindex : (Part.indexed index argument).fault?
        = (Site.index index).offence? resolve (NestedMethods.indexedPosition index) := rfl
    rw [firstFault?, hvalues, sites, firstOffence?_cons, values, List.flatMap_singleton, hindex]
  | _ => exact (Option.none_or).trans (hvalues _)

theorem Definition.traversal_eq (keep : KeyFilter) (d : Definition) :
    d.traversal keep = (d.parts keep).flatMap Part.sites := by
  simp only [traversal, parts, List.flatMap_append, List.flatMap_map, Part.sites, Part.values,
    List.flatMap_singleton, NestedMethods.indexedPosition, NestedMethods.genericPosition]

/-- A script fails for the first offence of the definition. -/
theorem Script.Context.faultOf?_statements_eq_firstOffence? (c : Script.Context) (d : Definition) :
    faultOf? (c.statements d) = firstOffence? c.resolve (d.traversal c.keep) := by
  rw [faultOf?_statements_eq, Definition.traversal_eq, firstOffence?, findSome?_flatMap]
  exact findSome?_congr_of_mem fun p _ => p.firstFault?_eq_firstOffence? c.resolve

/-- There is a script of a definition when none of the sites that writing comes to offends.
Otherwise the first offence is reported, under the name of the position it belongs to. -/
theorem Generator.script_eq_firstOffence (g : Generator) (d : Definition) :
    ((∃ s, (g.script d).1 = .ok s) ↔
      ∀ t ∈ d.traversal g.keep, t.2.offence? g.resolve t.1 = none) ∧
    ∀ e, (g.script d).1 = .error e ↔
      ∃ before name site after, d.traversal g.keep = before ++ (name, site) :: after ∧
        (∀ t ∈ before, t.2.offence? g.resolve t.1 = none) ∧
        site.offence? g.resolve name = some e ∧ e.position = name := by
  have hfault : faultOf? (g.script d).1 = firstOffence? g.resolve (d.traversal g.keep) := by
    obtain ⟨hints, g', -, heq⟩ := g.scriptWith_eq g.resolve d
    rw [script, heq, faultOf?_map, Script.Context.faultOf?_statements_eq_firstOffence?]
    rfl
  refine ⟨?_, fun e => ?_⟩
  · rw [← faultOf?_eq_none_iff, hfault, firstOffence?, List.findSome?_eq_none_iff]
  · rw [← faultOf?_eq_some_iff, hfault, firstOffence?, List.findSome?_eq_some_iff]
    constructor
    · rintro ⟨before, t, after, hsplit, hoffence, hbefore⟩
      exact ⟨before, t.1, t.2, after, hsplit, hbefore, hoffence, Site.position_of_offence? hoffence⟩
    · rintro ⟨before, name, site, after, hsplit, hbefore, hoffence, -⟩
      exact ⟨before, (name, site), after, hsplit, hoffence, hbefore⟩

/-- The kind of a key is looked at before the key itself, and an index before its argument; what
comes after the first offence is not reported. -/
example :
    let d : Definition :=
      { indexed := [(2 ^ 31, { value := .map .plain [(.list .plain [.bean {}], .null)] })] }
    (({} : Generator).script d).1.map (fun _ => ())
        = .error (.unsupportedValue "arg2147483648" "argument index") ∧
      d.traversal .all = [("arg2147483648", .index (2 ^ 31)),
        ("arg2147483648", .mapKey (.list .plain [.bean {}])), ("arg2147483648", .bean {}),
        ("arg2147483648", .atom (.literal .null))] :=
  ⟨rfl, rfl⟩

end BeanScript
