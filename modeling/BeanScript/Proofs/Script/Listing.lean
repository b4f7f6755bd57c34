import BeanScript.Proofs.Distinct
import BeanScript.Proofs.Script.ScanRuns
import Mathlib.Data.Nat.Find
import Mathlib.Logic.Relation

/-!
# Scanning and listing

A scan does not go inside a definition that has its method already. The plain listing does: it has
every occurrence of a nested definition, each before the occurrences inside it, however often equal
definitions come. A scan names methods just for the first occurrences in the listing.

What makes this true is that definitions nest to a finite depth. While a definition is being
scanned, it has its method, but the definitions inside it need not have theirs. Only definitions
that are nested less deep come up inside it, and equal definitions nest equally deep, so a
definition that comes up and is known is not one of those being scanned. It is done, and everything
inside it is known.

## Main definitions

* `Definition.listing` — all occurrences of nested definitions, each before those inside it
* `Definition.Contains` — a definition is nested in another at some depth, or is the other
* `NestedMethods.record` — name a method for an occurrence without going inside
* `NestedMethods.ClosedBelow` — the known definitions that nest less deep are done

## Main results

* `Definition.mem_listing_iff` — the listing has all definitions that are nested at some depth
* `NestedMethods.scan_eq_listing` — a scan records the listing
* `NestedMethods.foldl_record` — recording names methods for first occurrences
* `NestedMethods.scanAll_eq_listing` — the methods after a run with one filter
-/

namespace BeanScript

namespace Definition

variable {keep : KeyFilter} {d : Definition} {m n : Nat}

/-! ### The listing -/

/-- All occurrences of definitions nested at any depth, each before those inside it. -/
def listing (keep : KeyFilter) (d : Definition) : List (String × Definition) :=
  (d.occurrences keep).attach.flatMap fun o => o.1 :: listing keep o.1.2
termination_by sizeOf d
decreasing_by exact sizeOf_lt_of_mem_beans (mem_beans_of_mem_occurrences o.2)

theorem listing_eq :
    d.listing keep = (d.occurrences keep).flatMap fun o => o :: o.2.listing keep := by
  rw [listing, List.flatMap_subtype (g := fun o => o :: o.2.listing keep) fun _ _ => rfl,
    List.unattach_attach]

/-- The second definition is the first, or is nested in it at some depth. -/
def Contains (keep : KeyFilter) : Definition → Definition → Prop :=
  Relation.ReflTransGen fun c b => b ∈ c.beans keep

theorem Contains.wellFormed {u : Definition} (h : d.Contains keep u) (hd : d.WellFormed) :
    u.WellFormed := by
  induction h with
  | refl => exact hd
  | tail _ hmem ih => exact ih.of_mem_beans hmem

/-- The listing has every definition that is nested at some depth. -/
theorem mem_listing_iff {d u : Definition} :
    u ∈ d :: (d.listing keep).map Prod.snd ↔ d.Contains keep u := by
  have hlisting : (d.listing keep).map Prod.snd
      = (d.occurrences keep).flatMap fun o => o.2 :: (o.2.listing keep).map Prod.snd := by
    rw [listing_eq, List.map_flatMap]
    simp
  rw [List.mem_cons, hlisting, List.mem_flatMap, Contains, Relation.ReflTransGen.cases_head_iff,
    eq_comm (a := u)]
  refine or_congr_right ?_
  rw [← Contains]
  constructor
  · rintro ⟨o, ho, hu⟩
    have hb := mem_beans_of_mem_occurrences ho
    have hsize := sizeOf_lt_of_mem_beans hb
    exact ⟨o.2, hb, mem_listing_iff.mp hu⟩
  · rintro ⟨b, hb, hu⟩
    have hsize := sizeOf_lt_of_mem_beans hb
    obtain ⟨o, ho, rfl⟩ := List.mem_map.mp (map_snd_occurrences (d := d) ▸ hb)
    exact ⟨o, ho, mem_listing_iff.mpr hu⟩
termination_by sizeOf d

/-! ### Depth -/

theorem nestsWithin_succ_of_nestsWithin (h : d.nestsWithin keep n) :
    d.nestsWithin keep (n + 1) := by
  induction n generalizing d with
  | zero =>
    rw [nestsWithin_zero_iff] at h
    rw [nestsWithin_succ_iff, h]
    exact List.forall_mem_nil _
  | succ n ih =>
    rw [nestsWithin_succ_iff] at h ⊢
    exact fun b hb => ih (h b hb)

theorem nestsBelow_mono (hmn : m ≤ n) (h : d.nestsBelow keep m) : d.nestsBelow keep n := by
  induction n, hmn using Nat.le_induction with
  | base => exact h
  | succ n _ ih =>
    cases n with
    | zero => exact ih.elim
    | succ n => exact nestsWithin_succ_of_nestsWithin ih

/-- The depth of nesting. -/
theorem exists_depth (keep : KeyFilter) (d : Definition) :
    ∃ n, d.nestsWithin keep n ∧ ¬ d.nestsBelow keep n := by
  classical
  have hex := exists_nestsWithin keep d
  refine ⟨Nat.find hex, Nat.find_spec hex, ?_⟩
  cases hn : Nat.find hex with
  | zero => exact id
  | succ n => exact Nat.find_min hex (by omega)

end Definition

namespace NestedMethods

variable {keep : KeyFilter} {t : NestedMethods} {d : Definition} {n : Nat}

theorem Knows.of_equiv {e : Definition} (hwf : ∀ m ∈ t.list, m.definition.WellFormed)
    (h : t.Knows d) (hde : d.Equiv e) : t.Knows e := by
  obtain ⟨m, hm, hmd⟩ := h
  have hequiv : m.definition.Equiv d := ⟨hwf m hm, hde.left, Value.bean_beq.mpr ⟨d, rfl, hmd⟩⟩
  exact ⟨m, hm, (hequiv.trans hde).beq⟩

/-! ### Recording -/

/-- Name a method for an occurrence, unless the definition has one. -/
def record (t : NestedMethods) (o : String × Definition) : NestedMethods :=
  if (t.nameFor? o.2).isSome then t else t.assign o.1 o.2

theorem record_of_knows {o : String × Definition} (h : t.Knows o.2) : t.record o = t :=
  if_pos (isSome_nameFor?_iff.mpr h)

theorem record_of_not_knows {o : String × Definition} (h : ¬ t.Knows o.2) :
    t.record o = t.assign o.1 o.2 :=
  if_neg (isSome_nameFor?_iff.not.mpr h)

theorem foldl_record_eq_self {os : List (String × Definition)} (h : ∀ o ∈ os, t.Knows o.2) :
    os.foldl record t = t := by
  induction os with
  | nil => rfl
  | cons o os ih =>
    rw [List.forall_mem_cons] at h
    rw [List.foldl_cons, record_of_knows h.1, ih h.2]

/-- Methods for occurrences in turn, whether or not the definitions have one. -/
def assignAll (t : NestedMethods) (os : List (String × Definition)) : NestedMethods :=
  os.foldl (fun t o => t.assign o.1 o.2) t

theorem definitions_assignAll (owner : ClassName) (os : List (String × Definition)) :
    (assignAll { owner } os).list.map NestedMethod.definition = os.map Prod.snd := by
  have hfold : ∀ t : NestedMethods, (t.assignAll os).list.map NestedMethod.definition
      = t.list.map NestedMethod.definition ++ os.map Prod.snd := by
    induction os with
    | nil => exact fun t => (List.append_nil _).symm
    | cons o os ih =>
      intro t
      have hstep : t.assignAll (o :: os) = (t.assign o.1 o.2).assignAll os := rfl
      rw [hstep, ih]
      simp [assign]
  simpa using hfold { owner }

/-- The first occurrences, one for every group of equal definitions. -/
def firsts (os : List (String × Definition)) : List (String × Definition) :=
  Distinct.ofList (fun o p => o.2 == p.2) os

/-- Recording names methods for the first occurrences. -/
theorem foldl_record (owner : ClassName) (os : List (String × Definition)) :
    os.foldl record { owner } = assignAll { owner } (firsts os) := by
  have hstep : ∀ (s : List (String × Definition)) (o : String × Definition),
      (assignAll { owner } s).record o
        = assignAll { owner } (Distinct.add (fun o p => o.2 == p.2) s o) := by
    intro s o
    have hknows : (assignAll { owner } s).Knows o.2 ↔ s.any fun p => p.2 == o.2 := by
      have hmap : (assignAll { owner } s).Knows o.2 ↔
          ((assignAll { owner } s).list.map NestedMethod.definition).any (· == o.2) := by
        simp [Knows]
      rw [hmap, definitions_assignAll, List.any_map]
      rfl
    by_cases hany : s.any fun p => p.2 == o.2
    · rw [record_of_knows (hknows.mpr hany), Distinct.add_of_any hany]
    · rw [record_of_not_knows (hknows.not.mpr hany), Distinct.add_of_not_any hany, assignAll,
        assignAll, List.foldl_append]
      rfl
  have hfold : ∀ s : List (String × Definition), os.foldl record (assignAll { owner } s)
      = assignAll { owner } (os.foldl (Distinct.add fun o p => o.2 == p.2) s) := by
    induction os with
    | nil => exact fun _ => rfl
    | cons o os ih =>
      intro s
      rw [List.foldl_cons, List.foldl_cons, hstep, ih]
  exact hfold []

/-! ### Scanning records the listing -/

/-- The methods are sound and made for well-formed definitions, and every definition that has one
and that nests less than `n` levels deep is done: the definitions in it have their methods. -/
structure ClosedBelow (keep : KeyFilter) (n : Nat) (t : NestedMethods) : Prop where
  sound : t.Sound
  wellFormed : ∀ m ∈ t.list, m.definition.WellFormed
  closed : ∀ m ∈ t.list, m.definition.nestsBelow keep n → ∀ b ∈ m.definition.beans keep, t.Knows b

namespace ClosedBelow

theorem of_le {m : Nat} (h : t.ClosedBelow keep n) (hmn : m ≤ n) : t.ClosedBelow keep m where
  sound := h.sound
  wellFormed := h.wellFormed
  closed k hk hm := h.closed k hk (Definition.nestsBelow_mono hmn hm)

/-- A definition that is known and nests less deep is done, all the way down. -/
theorem knows_listing {d : Definition} (h : t.ClosedBelow keep n) (hd : d.WellFormed)
    (hn : d.nestsBelow keep n) (hknown : t.Knows d) : ∀ o ∈ d.listing keep, t.Knows o.2 := by
  obtain ⟨m, hm, hmd⟩ := hknown
  have hequiv : m.definition.Equiv d := ⟨h.wellFormed m hm, hd, Value.bean_beq.mpr ⟨d, rfl, hmd⟩⟩
  have hbelow : m.definition.nestsBelow keep n := by
    cases n with
    | zero => exact hn.elim
    | succ n => exact hequiv.nestsWithin.mpr hn
  rw [Definition.listing_eq]
  intro o ho
  obtain ⟨p, hp, ho⟩ := List.mem_flatMap.mp ho
  have hb := Definition.mem_beans_of_mem_occurrences hp
  obtain ⟨c, hc, hpc⟩ := hequiv.symm.exists_mem_beans hb
  have hknown : t.Knows p.2 := (h.closed m hm hbelow c hc).of_equiv h.wellFormed hpc.symm
  rcases List.mem_cons.mp ho with rfl | ho
  · exact hknown
  · have hbelow : p.2.nestsBelow keep n := by
      cases n with
      | zero => exact hn.elim
      | succ n =>
        have hwithin := Definition.nestsWithin_succ_of_nestsWithin hn
        exact Definition.nestsWithin_succ_iff.mp hwithin p.2 hb
    have hsize := Definition.sizeOf_lt_of_mem_beans hb
    exact h.knows_listing (hd.of_mem_beans hb) hbelow hknown o ho
termination_by sizeOf d

/-- Naming a method for a new definition spoils nothing less deep than that definition. -/
theorem assign {position : String} (h : t.ClosedBelow keep n) (hd : d.WellFormed)
    (hnew : ¬ t.Knows d) (hdepth : ¬ d.nestsBelow keep n) :
    (t.assign position d).ClosedBelow keep n where
  sound := h.sound.assign position hnew
  wellFormed m hm := by
    rcases mem_assign.mp hm with hm | rfl
    · exact h.wellFormed m hm
    · exact hd
  closed m hm hbelow b hb := by
    rcases mem_assign.mp hm with hm | rfl
    · exact (h.closed m hm hbelow b hb).mono (List.prefix_append _ _)
    · exact absurd hbelow hdepth

/-- A whole scan leaves nothing undone. -/
theorem of_scans {t' : NestedMethods} {bs : List Definition} (h : t.ClosedBelow keep n)
    (hbs : ∀ b ∈ bs, b.WellFormed) (hsound : t'.Sound) (hscans : Scans keep bs t t') :
    t'.ClosedBelow keep n where
  sound := hsound
  wellFormed := hscans.inherits Definition.WellFormed (fun _ hc _ hb => hc.of_mem_beans hb) hbs
    h.wellFormed
  closed m hm hbelow b hb := by
    rcases hscans.closed m hm with hm | hclosed
    · exact (h.closed m hm hbelow b hb).mono hscans.grows
    · exact hclosed b hb

/-- So does a visit. -/
theorem visit {o : String × Definition} (h : t.ClosedBelow keep n) (ho : o.2.WellFormed) :
    (visit keep t o).ClosedBelow keep n := by
  rw [NestedMethods.visit]
  split
  · exact h
  · next hnew =>
    rw [isSome_nameFor?_iff] at hnew
    obtain ⟨hsound, hscans⟩ : _ ∧ Scans keep (o.2.beans keep) (t.assign o.1 o.2) _ :=
      scan_spec ho (h.sound.assign o.1 hnew)
    exact h.of_scans (List.forall_mem_singleton.mpr ho) hsound (.of_assign ho hscans)

end ClosedBelow

/-- A scan records the listing, as long as everything less deep is done that is known. -/
theorem scan_eq_listing (hd : d.WellFormed) (hn : d.nestsWithin keep n)
    (ht : t.ClosedBelow keep n) : scan keep d t = (d.listing keep).foldl record t := by
  induction n using Nat.strongRecOn generalizing d t with
  | ind n ih =>
    have hvisit : ∀ o ∈ d.occurrences keep, ∀ t : NestedMethods, t.ClosedBelow keep n →
        visit keep t o = (o :: o.2.listing keep).foldl record t := by
      intro o ho t ht
      have hb := Definition.mem_beans_of_mem_occurrences ho
      have hwf := hd.of_mem_beans hb
      have hbelow := Definition.nestsWithin_iff.mp hn o.2 hb
      rw [List.foldl_cons]
      by_cases hknown : t.Knows o.2
      · rw [record_of_knows hknown, visit, if_pos (isSome_nameFor?_iff.mpr hknown),
          foldl_record_eq_self (ht.knows_listing hwf hbelow hknown)]
      · obtain ⟨m, hwithin, hdepth⟩ := Definition.exists_depth keep o.2
        have hmn : m < n := Nat.lt_of_not_le fun hle =>
          hdepth (Definition.nestsBelow_mono hle hbelow)
        rw [record_of_not_knows hknown, visit, if_neg (isSome_nameFor?_iff.not.mpr hknown)]
        exact ih m hmn hwf hwithin ((ht.of_le (Nat.le_of_lt hmn)).assign hwf hknown hdepth)
    have hoccurrences : ∀ o ∈ d.occurrences keep, o.2.WellFormed := fun o ho =>
      hd.of_mem_beans (Definition.mem_beans_of_mem_occurrences ho)
    rw [scan_eq, Definition.listing_eq, List.foldl_flatMap]
    clear hn
    generalize d.occurrences keep = os at hvisit hoccurrences
    induction os generalizing t with
    | nil => rfl
    | cons o os ihos =>
      rw [List.forall_mem_cons] at hvisit hoccurrences
      rw [List.foldl_cons, List.foldl_cons, ← hvisit.1 t ht]
      exact ihos (ht.visit hoccurrences.1) hvisit.2 hoccurrences.2

/-- The methods for one definition are those of the first occurrences in its listing. -/
theorem map_definition_ofDefinition (owner : ClassName) (hd : d.WellFormed) :
    (ofDefinition owner keep d).list.map NestedMethod.definition
      = (firsts (d.listing keep)).map Prod.snd := by
  obtain ⟨n, hn⟩ := Definition.exists_nestsWithin keep d
  have hempty : ({ owner } : NestedMethods).ClosedBelow keep n :=
    { sound := .of_list_eq_nil rfl
      wellFormed := List.forall_mem_nil _
      closed := List.forall_mem_nil _ }
  rw [ofDefinition, scan_eq_listing hd hn hempty, foldl_record, definitions_assignAll]

/-- The methods after a run of scans with one filter are those of the first occurrences in the
listings of the definitions, named in this order. -/
theorem scanAll_eq_listing (owner : ClassName) {ds : List Definition}
    (hds : ∀ d ∈ ds, d.WellFormed) :
    scanAll { owner } (ds.map (keep, ·))
      = assignAll { owner } (firsts (ds.flatMap (Definition.listing keep))) := by
  have hrun : ∀ t : NestedMethods, (∀ n, t.ClosedBelow keep n) →
      scanAll t (ds.map (keep, ·)) = (ds.flatMap (Definition.listing keep)).foldl record t := by
    induction ds with
    | nil => exact fun _ _ => rfl
    | cons d ds ih =>
      rw [List.forall_mem_cons] at hds
      intro t ht
      obtain ⟨n, hn⟩ := Definition.exists_nestsWithin keep d
      obtain ⟨hsound, hscans⟩ : _ ∧ Scans keep (d.beans keep) t _ := scan_spec hds.1 (ht n).sound
      have hbeans : ∀ b ∈ d.beans keep, b.WellFormed := fun b hb => hds.1.of_mem_beans hb
      rw [List.flatMap_cons, List.foldl_append, ← scan_eq_listing hds.1 hn (ht n)]
      exact ih hds.2 _ fun n => (ht n).of_scans hbeans hsound hscans
  have hempty : ∀ n, ({ owner } : NestedMethods).ClosedBelow keep n := fun n =>
    { sound := .of_list_eq_nil rfl
      wellFormed := List.forall_mem_nil _
      closed := List.forall_mem_nil _ }
  rw [hrun _ hempty, foldl_record]

/-- A definition that comes up again inside a new one, and one below a dropped attribute. -/
theorem scanAll_eq_listing_again :
    let keep : KeyFilter := fun key => key != "note"
    let leaf : Definition := { properties := [("size", .literal (.int 1))] }
    let inner : Definition :=
      { generic := [{ value := .bean leaf }], attributes := [("note", .bean {})] }
    let ds : List Definition :=
      [{ properties := [("first", .bean inner), ("second", .bean inner)] },
        { properties := [("last", .list .plain [.bean {}, .bean leaf])] }]
    (∀ d ∈ ds, d.WellFormed) ∧
      scanAll { owner := ⟨"Methods"⟩ } (ds.map (keep, ·))
        = assignAll { owner := ⟨"Methods"⟩ } (firsts (ds.flatMap (Definition.listing keep))) ∧
      (assignAll { owner := ⟨"Methods"⟩ } (firsts (ds.flatMap (Definition.listing keep)))).names
        = ["getFirstBeanDefinition", "getArg0BeanDefinition", "getLastBeanDefinition"] := by
  intro keep leaf inner ds
  have hds : ∀ d ∈ ds, d.WellFormed := by decide
  have hscan : scanAll _ (ds.map (keep, ·)) = _ := scanAll_eq_listing ⟨"Methods"⟩ hds
  exact ⟨hds, hscan, hscan ▸ by decide⟩

end NestedMethods

end BeanScript
