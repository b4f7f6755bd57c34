import BeanScript.Proofs.Replay.Methods
import BeanScript.Proofs.Replay.Rebuild
import BeanScript.Proofs.Script.Batch

/-!
# Batches, replayed

Replaying a batch rebuilds the definition that it was written for, up to what a script cannot say.
A nested definition comes back from the call of the method that was made for an equal one, and the
calls inside this method bring back the definitions nested deeper. Each level takes one more waiting
call, so a batch can be replayed exactly when the definitions nest no deeper than calls may.

## Main definitions

* `Generator.rebuild` — what the call for a nested definition gives

## Main results

* `Generator.Made.yields_call` — the calls in a batch give what `rebuild` says
* `Generator.readsBack_rebuild` — a nested definition is rebuilt when it does not nest too deep
-/

namespace BeanScript

/-- The name of a method for a nested definition is not that of a factory. -/
theorem Api.Factory.of?_numbered (owner : ClassName) (position : String) (n : Nat) :
    of? owner (numbered (methodName position) n) = none := by
  obtain ⟨rest, hname⟩ : ∃ rest, numbered (methodName position) n = "get" ++ rest := by
    cases n with
    | zero => exact ⟨_, String.append_assoc⟩
    | succ n => exact ⟨_, (congrArg (· ++ _) String.append_assoc).trans String.append_assoc⟩
  have hne : ∀ f : Factory, f.name ≠ "get" ++ rest := by
    intro f h
    have hchars := congrArg String.toList h
    cases f <;> simp [name] at hchars
  rw [of?, hname, List.find?_eq_none]
  intro f _
  simp [hne f]

/-- The definition that the method for `b` was made for, if `b` has its method. -/
def NestedMethods.madeFor (t : NestedMethods) (b : Definition) : Definition :=
  ((t.list.find? (·.definition == b)).map (·.definition)).getD b

theorem NestedMethods.exists_of_knows {t : NestedMethods} {b : Definition} (h : t.Knows b) :
    ∃ n ∈ t.list, n.definition == b ∧ t.nameFor? b = some n.name ∧
      t.madeFor b = n.definition := by
  obtain ⟨n, hn⟩ : ∃ n, t.list.find? (·.definition == b) = some n :=
    Option.isSome_iff_exists.mp (List.find?_isSome.mpr h)
  have heq := List.find?_some (p := fun n : NestedMethod => n.definition == b) hn
  refine ⟨n, List.mem_of_find?_eq_some hn, heq, ?_, ?_⟩
  · rw [nameFor?, hn, Option.map_some]
  · rw [madeFor, hn, Option.map_some, Option.getD_some]

/-- The methods of a batch by class and name. -/
def Batch.table (batch : Batch) : BeanScript.Methods :=
  batch.methods.map fun m => ((m.owner, m.name), m.body)

/-- The normal form of a definition is of the same types. -/
theorem Definition.withTypesOf_normal (keep : KeyFilter) (d : Definition) :
    (d.normal keep).withTypesOf d = d.normal keep := by
  rw [normal_eq]
  rfl

namespace Generator

variable {g : Generator} {d : Definition}

/-- What the call for a nested definition gives, where so many calls are still allowed: the edits of
the script in the method, made on a fresh definition. -/
def rebuild (g : Generator) (d : Definition) : Nat → Definition → Except Fault Value
  | 0, _ => .error (.recursionLimit maxCalls)
  | n + 1, b =>
    let made := (g.nested d).madeFor b
    (made.replayEdits g.keep g.style.receiver (g.rebuild d n)).map fun edits =>
      .bean ((({} : Definition).withTypesOf made).applyAll edits)

/-- A test of every value inside the definition holds inside the definitions of the methods. -/
theorem every_of_mem_list {p : Value → Bool} (hd : d.WellFormed) (h : d.every g.keep p)
    {n : NestedMethod} (hn : n ∈ (g.nested d).list) : n.definition.every g.keep p :=
  NestedMethods.inherits_ofDefinition hd (P := fun c => c.every g.keep p) h
    (fun _ hc _ hb => Definition.every_of_mem_beans hc hb) hn

/-! ### Calls of methods -/

section Calls

variable {batch : Batch} {made : List (NestedMethod × Block)} {methods : Methods}

/-- The calls for nested definitions give what `rebuild` says, where so many are still allowed. -/
def CallsRebuild (g : Generator) (d : Definition) (methods : Methods) (n : Nat) : Prop :=
  ∀ b name, (g.nested d).nameFor? b = some name →
    (Expr.staticCall g.style.methodOwner name []).Yields Machine.Grows
      (staticCall methods (runMethod methods n)) ((g.rebuild d n b).map .value)

/-- Code of the batch makes the edits of its script, when the calls in it rebuild the definitions
nested in it. -/
theorem CallsRebuild.performs {n : Nat} (hcalls : g.CallsRebuild d methods n) (hd : d.WellFormed)
    {c : Script.Context} (hc : c.Fits g (g.batchResolver d)) {u : Definition}
    (hwritten : u.every g.keep fun v => !v.isOpaque)
    (hknows : ∀ b ∈ u.beans g.keep, (g.nested d).Knows b) {block : Block}
    (h : c.statements u = .ok block) :
    Block.Performs (staticCall methods (runMethod methods n)) g.style.receiver block
      (u.replayEdits g.keep g.style.receiver (g.rebuild d n)) := by
  rw [← hc.keep] at hwritten hknows
  rw [← hc.keep, ← hc.style]
  refine Script.Context.performs (buildsCollections_staticCall _ _) hwritten ?_ h
  intro b hb position e he
  obtain ⟨m, -, -, hname, -⟩ := NestedMethods.exists_of_knows (hknows b hb)
  rw [hc.resolve, batchResolver_bean hd hname] at he
  cases he
  exact hcalls b m.name hname

/-- A name that the scan has given leads to the body of its method. -/
theorem Made.get?_method (hmade : g.Made d batch made)
    (hmethods : ∀ m ∈ batch.methods, Table.get? methods (m.owner, m.name) = some m.body)
    {b : Definition} {name : String} (h : (g.nested d).nameFor? b = some name) :
    ∃ m ∈ made, (g.nested d).madeFor b = m.1.definition ∧
      Table.get? methods (g.style.methodOwner, name)
        = some (methodBody g.style m.1.definition m.2) := by
  have hknows : (g.nested d).Knows b :=
    NestedMethods.isSome_nameFor?_iff.mp (Option.isSome_iff_exists.mpr ⟨name, h⟩)
  obtain ⟨n, hn, -, hname, hmadeFor⟩ := NestedMethods.exists_of_knows hknows
  obtain ⟨m, hm, rfl⟩ := hmade.exists_mem hn
  rw [h] at hname
  cases hname
  refine ⟨m, hm, hmadeFor, hmethods (g.method m) ?_⟩
  rw [← hmade.methods]
  exact List.mem_map_of_mem hm

/-- No call of a method is taken for that of a factory. -/
theorem factory_eq_none_of_nameFor? (hd : d.WellFormed) {b : Definition} {name : String}
    (h : (g.nested d).nameFor? b = some name) :
    Api.Factory.of? g.style.methodOwner name = none := by
  obtain ⟨n, hn, -, rfl⟩ := NestedMethods.exists_of_nameFor? h
  have hsound : (g.nested d).Sound := NestedMethods.sound_ofDefinition hd
  obtain ⟨position, k, hname⟩ := hsound.numbered n hn
  rw [hname]
  exact Api.Factory.of?_numbered _ position k

/-- A batch has one method for each name, so a table can hold all of them. -/
theorem Made.get?_table (hmade : g.Made d batch made) (hd : d.WellFormed) :
    ∀ m ∈ batch.methods, Table.get? batch.table (m.owner, m.name) = some m.body := by
  have hkeys : (Table.keys batch.table).Nodup := by
    refine List.Nodup.of_map Prod.snd ?_
    rw [Table.keys, Batch.table, ← hmade.methods]
    simpa [Function.comp_def, method] using hmade.nodup hd
  exact fun m hm => (Table.get?_eq_some_iff hkeys).mpr (List.mem_map_of_mem hm)

/-- With the methods of the batch, calls rebuild nested definitions. -/
theorem Made.callsRebuild (hmade : g.Made d batch made) (hd : d.WellFormed)
    (hwritten : d.every g.keep fun v => !v.isOpaque)
    (hmethods : ∀ m ∈ batch.methods, Table.get? methods (m.owner, m.name) = some m.body)
    (n : Nat) : g.CallsRebuild d methods n := by
  induction n with
  | zero =>
    intro b name hname
    obtain ⟨m, -, -, hget⟩ := hmade.get?_method hmethods hname
    exact .recursionLimit (factory_eq_none_of_nameFor? hd hname) hget
  | succ n ih =>
    intro b name hname
    obtain ⟨m, hm, hmadeFor, hget⟩ := hmade.get?_method hmethods hname
    obtain ⟨c, hc, hs⟩ := hmade.inside m hm
    have hlist := hmade.mem_list hm
    have hperforms := ih.performs hd hc (every_of_mem_list hd hwritten hlist)
      (fun _ hb => NestedMethods.knows_of_mem_list hd hlist hb) hs
    have hcall := Expr.Yields.methodCall (factory_eq_none_of_nameFor? hd hname) hget hperforms
    rwa [rebuild, hmadeFor, map_map_eq]

end Calls

/-! ### What is rebuilt -/

/-- A nested definition is rebuilt exactly when less levels are below it than calls are allowed. -/
theorem readsBack_rebuild (hd : d.WellFormed) (hplain : d.every g.keep Value.isPlain)
    (hreceiver : g.style.receiver ≠ Script.Context.qualifierLocal) (n : Nat) {b : Definition}
    (hb : b.WellFormed) (hknows : (g.nested d).Knows b) :
    ReadsBack (· = .recursionLimit maxCalls) (b.nestsBelow g.keep n) (g.rebuild d n b) ∧
      ∀ x, g.rebuild d n b = .ok x → x.Equiv (.bean (b.normal g.keep)) := by
  induction n generalizing b with
  | zero => exact ⟨.inr ⟨id, _, rfl, rfl⟩, fun x hx => by cases hx⟩
  | succ n ih =>
    obtain ⟨m, hm, hmb, -, hmadeFor⟩ := NestedMethods.exists_of_knows hknows
    have hwf : m.definition.WellFormed := NestedMethods.wellFormed_of_mem_list hd hm
    have hequiv : m.definition.Equiv b := ⟨hwf, hb, hmb⟩
    have hmplain := every_of_mem_list hd hplain hm
    have hinside : ∀ b ∈ m.definition.beans g.keep,
        ReadsBack (· = .recursionLimit maxCalls) (b.nestsBelow g.keep n) (g.rebuild d n b) ∧
          ∀ x, g.rebuild d n b = .ok x → x.Equiv (.bean (b.normal g.keep)) :=
      fun b hb => ih (hwf.of_mem_beans hb) (NestedMethods.knows_of_mem_list hd hm hb)
    rw [rebuild, hmadeFor]
    constructor
    · refine ((Definition.readsBack_replayEdits (Definition.wellFormed_iff.mp hwf).1
        (Definition.every_mono Value.not_isUnknownRole_of_isPlain hmplain) hreceiver
        fun b hb => (hinside b hb).1).map _).congr ?_
      rw [← Definition.nestsWithin_iff, hequiv.nestsWithin]
      exact Iff.rfl
    · intro x hx
      obtain ⟨edits, hedits, rfl⟩ := map_eq_ok_iff.mp hx
      have hnormal := Definition.equiv_normal_of_replayEdits hwf
        (Definition.every_mono Value.not_isRoleConstant_of_isPlain hmplain)
        (fun b hb => (hinside b hb).2) hedits m.definition
      rw [Definition.withTypesOf_normal] at hnormal
      exact hnormal.trans (hequiv.normal g.keep)

/-- Replaying a batch, with its methods, rebuilds the normal form of the definition, though not its
types, as long as the definitions nest no deeper than calls may. -/
theorem execute_batch (hd : d.WellFormed) (hplain : d.every g.keep Value.isPlain)
    (hreceiver : g.style.receiver ≠ Script.Context.qualifierLocal) {batch : Batch}
    (h : (g.batch d).1 = .ok batch) {methods : Methods}
    (hmethods : ∀ m ∈ batch.methods, Table.get? methods (m.owner, m.name) = some m.body) :
    (d.nestsWithin g.keep maxCalls → ∃ r,
        execute methods batch.statements g.style.receiver = .ok r ∧
          r == (d.normal g.keep).withoutTypes) ∧
      (¬ d.nestsWithin g.keep maxCalls →
        execute methods batch.statements g.style.receiver = .error (.recursionLimit maxCalls)) := by
  have hwritten := Definition.every_mono Value.not_isOpaque_of_isPlain hplain
  obtain ⟨made, hmade⟩ := exists_made hd h
  obtain ⟨c, hc, hs⟩ := hmade.root
  have hknows : ∀ b ∈ d.beans g.keep, (g.nested d).Knows b :=
    fun b hb => NestedMethods.knows_ofDefinition hd hb
  have hperforms : Block.Performs (staticCallsAt methods 0) g.style.receiver batch.statements
      (d.replayEdits g.keep g.style.receiver (g.rebuild d maxCalls)) :=
    (hmade.callsRebuild hd hwritten hmethods maxCalls).performs hd hc hwritten hknows hs
  have hinside := fun b hb =>
    readsBack_rebuild hd hplain hreceiver maxCalls (hd.of_mem_beans hb) (hknows b hb)
  have hback := Definition.readsBack_replayEdits (Definition.wellFormed_iff.mp hd).1
    (Definition.every_mono Value.not_isUnknownRole_of_isPlain hplain) hreceiver
    fun b hb => (hinside b hb).1
  rw [← Definition.nestsWithin_iff] at hback
  rw [execute_eq hperforms]
  rcases hback with ⟨hnests, edits, hedits⟩ | ⟨hnests, fault, rfl, hfault⟩
  · refine ⟨fun _ => ⟨_, congrArg _ hedits, ?_⟩, fun h => absurd hnests h⟩
    exact (Definition.equiv_normal_of_replayEdits hd
      (Definition.every_mono Value.not_isRoleConstant_of_isPlain hplain)
      (fun b hb => (hinside b hb).2) hedits {}).beq
  · exact ⟨fun h => absurd h hnests, fun _ => congrArg _ hfault⟩

/-- A definition with two equal nested ones, which are rebuilt by calls of one method. -/
theorem execute_batch_pair :
    let g : Generator := { style := { receiver := "part" } }
    let inner : Definition := { properties := [("size", .literal (.int 7))] }
    let d : Definition :=
      { settings := { scope := singletonScope }
        generic := [{ value := .set .plain [.bean inner] }]
        attributes := [("spare", .bean inner)] }
    ∃ batch, (g.batch d).1 = .ok batch ∧ batch.methods.length = 1 ∧ d.nestsWithin g.keep maxCalls ∧
      ∃ r, execute batch.table batch.statements "part" = .ok r ∧
        r == (d.normal g.keep).withoutTypes := by
  intro g inner d
  have hd : d.WellFormed := by decide
  have hnests : d.nestsWithin g.keep maxCalls := by decide
  obtain ⟨batch, hbatch, hlength⟩ : ∃ batch, (g.batch d).1 = .ok batch ∧
      batch.methods.length = 1 := ⟨_, rfl, by decide⟩
  obtain ⟨made, hmade⟩ := exists_made hd hbatch
  exact ⟨batch, hbatch, hlength, hnests,
    (execute_batch hd (by decide) (by decide) hbatch (hmade.get?_table hd)).1 hnests⟩

end Generator

end BeanScript
