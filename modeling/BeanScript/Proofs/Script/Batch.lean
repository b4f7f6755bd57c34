import BeanScript.Proofs.Script.Generation
import BeanScript.Proofs.Script.Scan
import BeanScript.Proofs.Script.Supply
import Mathlib.Logic.Relation

/-!
# Batches

A batch is written in two passes over the definition: a scan names the methods, and then every
definition is written, with the calls of methods in place of nested definitions. The two passes
agree. Every nested definition that is written has its method, every method is called from
somewhere, and since a method only calls methods for definitions that nest less deep, no calls go
round in a circle.

## Main definitions

* `Generator.method` — the method made for a definition from its statements
* `Method.statements`, `Batch.codes` — the code of a batch, read from the bodies of its methods
* `Generator.Calls` — a method calls another one for a nested definition
* `Generator.Complete` — the methods of a batch are exactly what its code calls

## Main results

* `Generator.exists_made`, `Generator.batch_eq_error` — what a batch is made of, why there is none
* `Generator.Made.linked` — in the code of a batch, nested definitions are calls of its methods
* `Generator.Made.called`, `Generator.Made.acyclic` — who calls the methods of a batch
-/

namespace BeanScript

/-- The call of a method. -/
def Method.call (m : Method) : Expr :=
  .staticCall m.owner m.name []

/-- What the body of a method does after it has created the definition and set its target type. -/
def Method.statements (m : Method) (d : Definition) : Block :=
  m.body.drop (1 + d.settings.targetType.toList.length)

/-- The code of a batch, piece by piece with the definition that each piece is for: the statements
for the definition of the batch, and those in the bodies of the methods. -/
def Batch.codes (batch : Batch) (d : Definition) (made : List (Method × Definition)) :
    List (Definition × Block) :=
  (d, batch.statements) :: made.map fun m => (m.2, m.1.statements m.2)

/-- The context makes the choices of the generator, with the given resolver. -/
structure Script.Context.Fits (c : Script.Context) (g : Generator) (resolve : Resolver) : Prop where
  style : c.style = g.style
  keep : c.keep = g.keep
  resolve : c.resolve = resolve

namespace Generator

variable {g g' : Generator} {resolve : Resolver}

/-- The method made for a nested definition from its statements. -/
def method (g : Generator) (m : NestedMethod × Block) : Method where
  owner := g.style.methodOwner
  name := m.1.name
  body := methodBody g.style m.1.definition m.2

theorem SameChoices.fits (h : SameChoices g g') (d : Definition) :
    (g'.context resolve d).Fits g resolve :=
  ⟨h.style, h.keep, rfl⟩

/-! ### Taking a batch apart -/

/-- The methods for nested definitions are made from their statements. -/
theorem methods_eq_ok {owner : ClassName} {hints hints' : Hints} {ns : List NestedMethod}
    {ms : List Method} (hg : SameChoices g g') (howner : owner = g.style.methodOwner)
    (h : (g'.methods resolve owner hints ns).1 = .ok (ms, hints')) :
    ∃ made : List (NestedMethod × Block), made.map Prod.fst = ns ∧ made.map g.method = ms ∧
      ∀ m ∈ made, ∃ c : Script.Context, c.Fits g resolve ∧
        c.statements m.1.definition = .ok m.2 := by
  induction ns generalizing g' hints ms hints' with
  | nil =>
    cases h
    exact ⟨[], rfl, rfl, List.forall_mem_nil _⟩
  | cons n ns ih =>
    obtain ⟨nhints, g'', hsame, heq⟩ := g'.scriptWith_eq resolve n.definition
    rw [methods, heq] at h
    cases hstatements : (g'.context resolve n.definition).statements n.definition with
    | error e =>
      rw [hstatements] at h
      cases h
    | ok s =>
      rw [hstatements] at h
      obtain ⟨⟨ms', hints''⟩, hms, hcons⟩ := map_eq_ok_iff.mp h
      cases hcons
      obtain ⟨made, hns, hmethods, hmade⟩ := ih (hg.trans hsame) hms
      refine ⟨(n, s) :: made, congrArg (n :: ·) hns, ?_, ?_⟩
      · rw [List.map_cons, hmethods, method, ← howner, hsame.style, hg.style]
      · rw [List.forall_mem_cons]
        exact ⟨⟨_, hg.fits n.definition, hstatements⟩, hmade⟩

/-- The methods for nested definitions are at fault where the statements of one are. -/
theorem methods_eq_error {owner : ClassName} {hints : Hints} {ns : List NestedMethod}
    {e : EncodeError} (hg : SameChoices g g')
    (h : (g'.methods resolve owner hints ns).1 = .error e) :
    ∃ n ∈ ns, ∃ c : Script.Context, c.Fits g resolve ∧ c.statements n.definition = .error e := by
  induction ns generalizing g' hints with
  | nil => cases h
  | cons n ns ih =>
    obtain ⟨nhints, g'', hsame, heq⟩ := g'.scriptWith_eq resolve n.definition
    rw [methods, heq] at h
    cases hstatements : (g'.context resolve n.definition).statements n.definition with
    | error e' =>
      rw [hstatements] at h
      cases h
      exact ⟨n, List.mem_cons_self, _, hg.fits n.definition, hstatements⟩
    | ok s =>
      rw [hstatements] at h
      obtain ⟨n', hn', hfault⟩ := ih (hg.trans hsame) (map_eq_error_iff.mp h)
      exact ⟨n', List.mem_cons_of_mem _ hn', hfault⟩

/-- The methods that a scan names for a definition. -/
def nested (g : Generator) (d : Definition) : NestedMethods :=
  NestedMethods.ofDefinition g.style.methodOwner g.keep d

/-- The resolver with which a batch is written. -/
def batchResolver (g : Generator) (d : Definition) : Resolver :=
  (g.nested d).resolver.orElse g.resolve

section Batch

variable {d : Definition}

/-- What a batch is made of: the statements of the definition, and the methods with the definitions
that they were made for and the statements of these. -/
structure Made (g : Generator) (d : Definition) (batch : Batch)
    (made : List (NestedMethod × Block)) : Prop where
  list : made.map Prod.fst = (g.nested d).list
  methods : made.map g.method = batch.methods
  root : ∃ c : Script.Context, c.Fits g (g.batchResolver d) ∧ c.statements d = .ok batch.statements
  inside : ∀ m ∈ made, ∃ c : Script.Context, c.Fits g (g.batchResolver d) ∧
    c.statements m.1.definition = .ok m.2

/-- A batch is made of the statements of the definition and of all definitions that a scan finds. -/
theorem exists_made (hd : d.WellFormed) {batch : Batch} (h : (g.batch d).1 = .ok batch) :
    ∃ made, g.Made d batch made := by
  obtain ⟨hints, g', hsame, heq⟩ := g.scriptWith_eq (g.batchResolver d) d
  rw [Generator.batch, ← nested, ← batchResolver, heq] at h
  cases hstatements : (g.context (g.batchResolver d) d).statements d with
  | error e =>
    rw [hstatements] at h
    cases h
  | ok s =>
    rw [hstatements] at h
    obtain ⟨⟨ms, hints'⟩, hms, rfl⟩ := map_eq_ok_iff.mp h
    obtain ⟨made, hlist, hmethods, hinside⟩ :=
      methods_eq_ok hsame (NestedMethods.owner_ofDefinition hd) hms
    exact ⟨made, hlist, hmethods, ⟨_, (SameChoices.refl g).fits d, hstatements⟩, hinside⟩

/-- A batch is at fault where the statements of one of these definitions are. -/
theorem batch_eq_error {e : EncodeError} (h : (g.batch d).1 = .error e) :
    ∃ b, (b = d ∨ ∃ n ∈ (g.nested d).list, n.definition = b) ∧
      ∃ c : Script.Context, c.Fits g (g.batchResolver d) ∧ c.statements b = .error e := by
  obtain ⟨hints, g', hsame, heq⟩ := g.scriptWith_eq (g.batchResolver d) d
  rw [Generator.batch, ← nested, ← batchResolver, heq] at h
  cases hstatements : (g.context (g.batchResolver d) d).statements d with
  | error e' =>
    rw [hstatements] at h
    cases h
    exact ⟨d, .inl rfl, _, (SameChoices.refl g).fits d, hstatements⟩
  | ok s =>
    rw [hstatements] at h
    obtain ⟨n, hn, hfault⟩ := methods_eq_error hsame (map_eq_error_iff.mp h)
    exact ⟨n.definition, .inr ⟨n, hn, rfl⟩, hfault⟩

end Batch

/-! ### The two passes agree -/

/-- A method of the batch is called for a nested definition in the body of another one. -/
def Calls (g : Generator) (made : List (Method × Definition)) (m m' : Method × Definition) : Prop :=
  m' ∈ made ∧ m'.1.call ∈ (m.2.supplied g.keep g.style (m.1.statements m.2)).map Prod.snd

/-- The methods of a batch, with the definitions nested in `d` that they are made for, are what the
code of the batch calls. -/
structure Complete (g : Generator) (d : Definition) (batch : Batch)
    (made : List (Method × Definition)) : Prop where
  methods : made.map Prod.fst = batch.methods
  owners : ∀ m ∈ batch.methods, m.owner = g.style.methodOwner
  names : (batch.methods.map Method.name).Nodup
  /-- The code for a definition begins with the script of that definition, in which the methods of
  the batch are looked up before the resolver of the generator is asked. -/
  written : ∀ u ∈ batch.codes d made, ∃ (c : Script.Context) (block : Block),
    c.Fits g (g.batchResolver d) ∧ c.statements u.1 = .ok block ∧ block <+: u.2
  /-- Every nested definition is written as the call of a method made for an equal one. -/
  supplied : ∀ u ∈ batch.codes d made,
    ((u.1.supplied g.keep g.style u.2).map Prod.fst).Perm (u.1.beans g.keep) ∧
      ∀ o ∈ u.1.supplied g.keep g.style u.2, ∃ m ∈ made, m.2 == o.1 ∧ o.2 = m.1.call
  /-- Every method is called by the code of the definition or by the body of another method. -/
  called : ∀ m ∈ made,
    m.1.call ∈ (d.supplied g.keep g.style batch.statements).map Prod.snd ∨
      ∃ m' ∈ made, m'.1.name ≠ m.1.name ∧ g.Calls made m' m
  /-- No calls lead back to where they began. -/
  acyclic : ∀ m ∈ made, ¬ Relation.TransGen (g.Calls made) m m

/-- A method with the definition that it is made for. -/
def built (g : Generator) (m : NestedMethod × Block) : Method × Definition :=
  (g.method m, m.1.definition)

/-- The body of a method holds the statements from which it is made. -/
theorem statements_prefix_method (g : Generator) (m : NestedMethod × Block) :
    m.2 <+: (g.method m).statements m.1.definition := by
  refine ⟨[.ret g.style.receiverExpr], Eq.symm ?_⟩
  rw [Method.statements, method, methodBody, List.append_assoc, Nat.add_comm, List.drop_succ_cons]
  exact List.drop_left' (List.length_map _)

section Complete

variable {d : Definition}

/-- A definition that has its method is supplied by the call of it. -/
theorem batchResolver_bean (hd : d.WellFormed) {b : Definition} {name : String}
    (h : (g.nested d).nameFor? b = some name) (position : String) :
    g.batchResolver d position (.bean b) = some (.staticCall g.style.methodOwner name []) := by
  have howner : (g.nested d).owner = g.style.methodOwner := NestedMethods.owner_ofDefinition hd
  have hresolver : (g.nested d).resolver position (.bean b)
      = some (.staticCall (g.nested d).owner name []) := congrArg (Option.map _) h
  rw [batchResolver, Resolver.orElse, hresolver, howner]
  rfl

/-- A batch is never at fault for a nested definition: the scan has found it. -/
theorem batch_ne_unresolvedBean (hd : d.WellFormed) (position : String) :
    (g.batch d).1 ≠ .error (.unresolvedBean position) := by
  intro h
  obtain ⟨u, hu, c, hc, hfault⟩ := batch_eq_error h
  obtain ⟨b, hb, position', hnone⟩ := Script.Context.not_supplied_of_statements hfault
  rw [hc.keep] at hb
  have hknows : (g.nested d).Knows b := by
    rcases hu with rfl | ⟨n, hn, rfl⟩
    · exact NestedMethods.knows_ofDefinition hd hb
    · exact NestedMethods.knows_of_mem_list hd hn hb
  obtain ⟨name, hname⟩ :=
    Option.isSome_iff_exists.mp (NestedMethods.isSome_nameFor?_iff.mpr hknows)
  rw [hc.resolve, batchResolver_bean hd hname] at hnone
  cases hnone

/-- In the code of `u`, every nested definition is written as the call of its method. -/
structure Linked (g : Generator) (d u : Definition) (block : Block) : Prop where
  perm : ((u.supplied g.keep g.style block).map Prod.fst).Perm (u.beans g.keep)
  call : ∀ o ∈ u.supplied g.keep g.style block, ∃ name,
    (g.nested d).nameFor? o.1 = some name ∧ o.2 = .staticCall g.style.methodOwner name []

theorem Linked.of_knows (hd : d.WellFormed) {c : Script.Context}
    (hc : c.Fits g (g.batchResolver d)) {u : Definition} (hu : u.WellFormed)
    (hknows : ∀ b ∈ u.beans g.keep, (g.nested d).Knows b) {block code : Block}
    (h : c.statements u = .ok block) (hcode : block <+: code) : g.Linked d u code := by
  obtain ⟨hperm, hsupplied⟩ :=
    Script.Context.supplied_of_statements (Definition.wellFormed_iff.mp hu).1 h hcode
  rw [hc.keep, hc.style] at hperm hsupplied
  refine ⟨hperm, fun o ho => ?_⟩
  have hknown := hknows o.1 (hperm.subset (List.mem_map_of_mem ho))
  obtain ⟨name, hname⟩ :=
    Option.isSome_iff_exists.mp (NestedMethods.isSome_nameFor?_iff.mpr hknown)
  obtain ⟨position, hresolve⟩ := hsupplied o ho
  rw [hc.resolve, batchResolver_bean hd hname] at hresolve
  exact ⟨name, hname, (Option.some.inj hresolve).symm⟩

/-- A definition nested in `u` has its call in the code of `u`. -/
theorem Linked.call_mem {u : Definition} {block : Block} (h : g.Linked d u block)
    {m : NestedMethod × Block}
    (hm : (g.nested d).nameFor? m.1.definition = some m.1.name)
    (hmem : m.1.definition ∈ u.beans g.keep) :
    (g.method m).call ∈ (u.supplied g.keep g.style block).map Prod.snd := by
  obtain ⟨o, ho, hdef⟩ := List.mem_map.mp (h.perm.symm.subset hmem)
  obtain ⟨name, hname, hcall⟩ := h.call o ho
  rw [hdef, hm] at hname
  cases hname
  exact List.mem_map.mpr ⟨o, ho, hcall⟩

namespace Made

variable {batch : Batch} {made : List (NestedMethod × Block)} {m m' : NestedMethod × Block}

theorem mem_list (h : g.Made d batch made) (hm : m ∈ made) : m.1 ∈ (g.nested d).list :=
  h.list ▸ List.mem_map_of_mem hm

theorem exists_mem (h : g.Made d batch made) {n : NestedMethod} (hn : n ∈ (g.nested d).list) :
    ∃ m ∈ made, m.1 = n :=
  List.mem_map.mp (h.list ▸ hn)

theorem nameFor? (h : g.Made d batch made) (hd : d.WellFormed) (hm : m ∈ made) :
    (g.nested d).nameFor? m.1.definition = some m.1.name :=
  NestedMethods.nameFor?_definition hd (h.mem_list hm)

theorem nodup (h : g.Made d batch made) (hd : d.WellFormed) :
    (made.map fun m => m.1.name).Nodup := by
  have hnames : (g.nested d).names.Nodup := (NestedMethods.sound_ofDefinition hd).names
  rwa [NestedMethods.names, ← h.list, List.map_map] at hnames

theorem wellFormed (h : g.Made d batch made) (hd : d.WellFormed) (hm : m ∈ made) :
    m.1.definition.WellFormed :=
  NestedMethods.wellFormed_of_mem_list hd (h.mem_list hm)

theorem eq_of_name_eq (h : g.Made d batch made) (hd : d.WellFormed) (hm : m ∈ made)
    (hm' : m' ∈ made) (hname : m.1.name = m'.1.name) : m = m' :=
  List.inj_on_of_nodup_map (h.nodup hd) hm hm' hname

theorem mem_codes_iff {u : Definition × Block} :
    u ∈ batch.codes d (made.map g.built) ↔ u = (d, batch.statements) ∨
      ∃ m ∈ made, (m.1.definition, (g.method m).statements m.1.definition) = u := by
  rw [Batch.codes, List.mem_cons, List.map_map, List.mem_map]
  rfl

/-- The code for a definition begins with its script. -/
theorem written (h : g.Made d batch made) {u : Definition × Block}
    (hu : u ∈ batch.codes d (made.map g.built)) :
    ∃ (c : Script.Context) (block : Block), c.Fits g (g.batchResolver d) ∧
      c.statements u.1 = .ok block ∧ block <+: u.2 := by
  rcases mem_codes_iff.mp hu with rfl | ⟨m, hm, rfl⟩
  · obtain ⟨c, hc, hs⟩ := h.root
    exact ⟨c, _, hc, hs, List.prefix_rfl⟩
  · obtain ⟨c, hc, hs⟩ := h.inside m hm
    exact ⟨c, _, hc, hs, g.statements_prefix_method m⟩

/-- In the code of a batch, every nested definition is written as the call of its method. -/
theorem linked (h : g.Made d batch made) (hd : d.WellFormed) {u : Definition × Block}
    (hu : u ∈ batch.codes d (made.map g.built)) : g.Linked d u.1 u.2 := by
  obtain ⟨c, block, hc, hs, hcode⟩ := h.written hu
  rcases mem_codes_iff.mp hu with rfl | ⟨m, hm, rfl⟩
  · exact .of_knows hd hc hd (fun _ hb => NestedMethods.knows_ofDefinition hd hb) hs hcode
  · exact .of_knows hd hc (h.wellFormed hd hm)
      (fun _ hb => NestedMethods.knows_of_mem_list hd (h.mem_list hm) hb) hs hcode

theorem linked_root (h : g.Made d batch made) (hd : d.WellFormed) :
    g.Linked d d batch.statements :=
  h.linked hd (mem_codes_iff.mpr (.inl rfl))

theorem linked_method (h : g.Made d batch made) (hd : d.WellFormed) (hm : m ∈ made) :
    g.Linked d m.1.definition ((g.method m).statements m.1.definition) :=
  h.linked hd (mem_codes_iff.mpr (.inr ⟨m, hm, rfl⟩))

/-- A nested definition is written as the call of a method made for an equal one. -/
theorem exists_call (h : g.Made d batch made) {u : Definition} {code : Block}
    (hu : g.Linked d u code) {o : Definition × Expr}
    (ho : o ∈ u.supplied g.keep g.style code) :
    ∃ m ∈ made, m.1.definition == o.1 ∧ o.2 = (g.method m).call := by
  obtain ⟨name, hname, hcall⟩ := hu.call o ho
  obtain ⟨n, hn, hno, rfl⟩ := NestedMethods.exists_of_nameFor? hname
  obtain ⟨m, hm, rfl⟩ := h.exists_mem hn
  exact ⟨m, hm, hno, hcall⟩

/-- Every method is called, since the scan has found its definition in the code that calls it. -/
theorem called (h : g.Made d batch made) (hd : d.WellFormed) (hm : m ∈ made) :
    (g.method m).call ∈ (d.supplied g.keep g.style batch.statements).map Prod.snd ∨
      ∃ m' ∈ made, m'.1.name ≠ m.1.name ∧ g.Calls (made.map g.built) (g.built m') (g.built m) := by
  rcases NestedMethods.origin_ofDefinition hd (h.mem_list hm) with horigin | ⟨n, hn, horigin⟩
  · exact .inl ((h.linked_root hd).call_mem (h.nameFor? hd hm) horigin)
  · obtain ⟨m', hm', rfl⟩ := h.exists_mem hn
    refine .inr ⟨m', hm', fun heq => ?_, List.mem_map_of_mem hm,
      (h.linked_method hd hm').call_mem (h.nameFor? hd hm) horigin⟩
    -- the two would be the same method, but a definition is not inside itself
    obtain rfl := h.eq_of_name_eq hd hm' hm heq
    exact Nat.lt_irrefl _ (Definition.sizeOf_lt_of_mem_beans horigin)

/-- A call leads to a definition that nests less deep. -/
theorem exists_nestsWithin_of_calls (h : g.Made d batch made) (hd : d.WellFormed)
    {b b' : Method × Definition} (hb : b ∈ made.map g.built)
    (hcalls : g.Calls (made.map g.built) b b') {k : Nat} (hk : b.2.nestsWithin g.keep k) :
    ∃ j < k, b'.2.nestsWithin g.keep j := by
  obtain ⟨m, hm, rfl⟩ := List.mem_map.mp hb
  obtain ⟨hb', hcall⟩ := hcalls
  obtain ⟨m', hm', rfl⟩ := List.mem_map.mp hb'
  obtain ⟨o, ho, hexpr⟩ := List.mem_map.mp hcall
  have hlinked := h.linked_method hd hm
  obtain ⟨m'', hm'', hequal, hexpr'⟩ := h.exists_call hlinked ho
  -- only one method has the name that is called
  have hname : m''.1.name = m'.1.name := (Expr.staticCall.inj (hexpr'.symm.trans hexpr)).2.1
  obtain rfl := h.eq_of_name_eq hd hm'' hm' hname
  have hbean : o.1 ∈ (g.built m).2.beans g.keep :=
    hlinked.perm.subset (List.mem_map_of_mem ho)
  have hequiv : m''.1.definition.Equiv o.1 :=
    ⟨h.wellFormed hd hm'', (h.wellFormed hd hm).of_mem_beans hbean, hequal⟩
  cases k with
  | zero =>
    rw [Definition.nestsWithin_zero_iff.mp hk] at hbean
    cases hbean
  | succ k =>
    exact ⟨k, Nat.lt_succ_self k,
      hequiv.nestsWithin.mpr (Definition.nestsWithin_succ_iff.mp hk o.1 hbean)⟩

/-- Along calls, definitions nest less and less deep. -/
theorem exists_nestsWithin_of_transGen (h : g.Made d batch made) (hd : d.WellFormed)
    {b b' : Method × Definition} (hb : b ∈ made.map g.built)
    (hcalls : Relation.TransGen (g.Calls (made.map g.built)) b b') {k : Nat}
    (hk : b.2.nestsWithin g.keep k) :
    b' ∈ made.map g.built ∧ ∃ j < k, b'.2.nestsWithin g.keep j := by
  induction hcalls with
  | single hcall => exact ⟨hcall.1, h.exists_nestsWithin_of_calls hd hb hcall hk⟩
  | tail _ hcall ih =>
    obtain ⟨hmem, j, hj, hnests⟩ := ih
    obtain ⟨i, hi, hnests'⟩ := h.exists_nestsWithin_of_calls hd hmem hcall hnests
    exact ⟨hcall.1, i, Nat.lt_trans hi hj, hnests'⟩

/-- Calls do not go round in a circle, since nesting ends. -/
theorem acyclic (h : g.Made d batch made) (hd : d.WellFormed) {b : Method × Definition}
    (hb : b ∈ made.map g.built) : ¬ Relation.TransGen (g.Calls (made.map g.built)) b b := by
  intro hcircle
  have hnever : ∀ k, ¬ b.2.nestsWithin g.keep k := by
    intro k
    induction k using Nat.strongRecOn with
    | ind k ih =>
      intro hk
      obtain ⟨-, j, hj, hnests⟩ := h.exists_nestsWithin_of_transGen hd hb hcircle hk
      exact ih j hj hnests
  obtain ⟨k, hk⟩ := b.2.exists_nestsWithin g.keep
  exact hnever k hk

/-- What a batch is made of is complete. -/
theorem complete (h : g.Made d batch made) (hd : d.WellFormed) :
    g.Complete d batch (made.map g.built) where
  methods := by
    rw [← h.methods, List.map_map]
    rfl
  owners := by
    rw [← h.methods, List.forall_mem_map]
    exact fun _ _ => rfl
  names := by
    rw [← h.methods, List.map_map]
    exact h.nodup hd
  written := fun _ hu => h.written hu
  supplied := fun u hu => by
    refine ⟨(h.linked hd hu).perm, fun o ho => ?_⟩
    obtain ⟨m, hm, hequal, hcall⟩ := h.exists_call (h.linked hd hu) ho
    exact ⟨g.built m, List.mem_map_of_mem hm, hequal, hcall⟩
  called := by
    rw [List.forall_mem_map]
    intro m hm
    rcases h.called hd hm with hroot | ⟨m', hm', hne, hcalls⟩
    · exact .inl hroot
    · exact .inr ⟨g.built m', List.mem_map_of_mem hm', hne, hcalls⟩
  acyclic := fun _ hb => h.acyclic hd hb

end Made

/-- The two passes agree: no nested definition is left without an expression, and the code of a
batch, read from its statements and from the bodies of its methods, calls exactly these methods. -/
theorem batch_complete (g : Generator) (hd : d.WellFormed) :
    (∀ position, (g.batch d).1 ≠ .error (.unresolvedBean position)) ∧
      ∀ batch, (g.batch d).1 = .ok batch → ∃ made, g.Complete d batch made := by
  refine ⟨batch_ne_unresolvedBean hd, fun batch h => ?_⟩
  obtain ⟨made, hmade⟩ := exists_made hd h
  exact ⟨made.map g.built, hmade.complete hd⟩

/-- Two equal definitions share a method, which calls another one. -/
theorem batch_complete_shared :
    let inner : Definition := { properties := [("size", .literal (.int 7))] }
    let outer : Definition := { generic := [{ value := .list .plain [.bean inner] }] }
    let d : Definition := { properties := [("first", .bean outer), ("second", .bean outer)] }
    d.WellFormed ∧ ∃ batch made, (({} : Generator).batch d).1 = .ok batch ∧
      batch.methods.map Method.name = ["getFirstBeanDefinition", "getArg0BeanDefinition"] ∧
      ({} : Generator).Complete d batch made := by
  intro inner outer d
  have hd : d.WellFormed := by decide
  obtain ⟨batch, hbatch, hnames⟩ : ∃ batch, (({} : Generator).batch d).1 = .ok batch ∧
      batch.methods.map Method.name = ["getFirstBeanDefinition", "getArg0BeanDefinition"] :=
    ⟨_, rfl, by decide⟩
  obtain ⟨made, hmade⟩ := (batch_complete {} hd).2 batch hbatch
  exact ⟨hd, batch, made, hbatch, hnames, hmade⟩

end Complete

end Generator

end BeanScript
