import BeanScript.Proofs.Script.Scan

/-!
# Runs of scans

Definitions can be scanned one after the other, with one filter or with several, into the same
methods. Whatever is scanned, methods are only added at the end, names are not given twice, and no
two methods are made for equal definitions. So the method of a definition stays the same once it is
there, and scanning a definition again adds nothing.

The names are made of free text, but only of the letters and digits in it.

## Main definitions

* `IsMethodName` — the form of the name of a method
* `NestedMethods.scanAll` — a run of scans
* `NestedMethods.Covers` — what holds of the methods after a run

## Main results

* `isMethodName_numbered` — the names given have this form
* `NestedMethods.Covers.scan`, `NestedMethods.covers_scanAll` — what one scan keeps, and a run
* `NestedMethods.scanAll_spec` — the laws of a run
-/

namespace BeanScript

/-! ### The form of names -/

/-- The form of the name of a method: `get`, letters and digits, `BeanDefinition`, and perhaps a
decimal number. -/
def IsMethodName (name : String) : Prop :=
  ∃ word number : String, name = "get" ++ word ++ "BeanDefinition" ++ number ∧
    word ≠ "" ∧ (∀ c ∈ word.toList, c.isAlphanum) ∧ (number = "" ∨ ∃ n : Nat, number = toString n)

theorem isLower_iff {c : Char} : c.isLower ↔ 'a' ≤ c ∧ c ≤ 'z' :=
  Bool.and_eq_true_iff.trans (and_congr decide_eq_true_iff decide_eq_true_iff)

theorem isUpper_iff {c : Char} : c.isUpper ↔ 'A' ≤ c ∧ c ≤ 'Z' :=
  decide_eq_true_iff

theorem isUpper_toUpper {c : Char} (h : c.isLower) : c.toUpper.isUpper := by
  obtain ⟨ha, hz⟩ := isLower_iff.mp h
  have hupper : c.toUpper = ⟨c.val + ('A'.val - 'a'.val), _⟩ := dif_pos ⟨ha, hz⟩
  have hlow : 97 ≤ c.val.toNat := ha
  have hhigh : c.val.toNat ≤ 122 := hz
  -- the distance between the cases is added modulo the size of a character
  have hnat : c.toUpper.val.toNat = c.val.toNat - 32 := by
    rw [hupper, UInt32.toNat_add, show ('A'.val - 'a'.val).toNat = 2 ^ 32 - 32 from rfl]
    omega
  exact isUpper_iff.mpr ⟨show 65 ≤ c.toUpper.val.toNat by omega,
    show c.toUpper.val.toNat ≤ 90 by omega⟩

theorem isAlphanum_toUpper {c : Char} (h : c.isAlphanum) : c.toUpper.isAlphanum := by
  by_cases hlower : c.isLower
  · have hupper : c.toUpper.isUpper = true := isUpper_toUpper hlower
    change (c.toUpper.isUpper || _ || _) = true
    rw [hupper, Bool.true_or, Bool.true_or]
  · have hsame : c.toUpper = c := dif_neg (mt isLower_iff.mpr hlower)
    rwa [hsame]

theorem isAlphanum_of_mem_joinWords {atStart : Bool} {cs : List Char} {c : Char}
    (h : c ∈ joinWords atStart cs) : c.isAlphanum := by
  induction cs generalizing atStart with
  | nil => cases h
  | cons a cs ih =>
    rw [joinWords] at h
    split at h
    · next ha =>
      rcases List.mem_cons.mp h with rfl | h
      · split
        · exact isAlphanum_toUpper ha
        · exact ha
      · exact ih h
    · exact ih h

/-- Camel case consists of letters and digits, at least one. -/
theorem pascalCase_spec (name : String) :
    pascalCase name ≠ "" ∧ ∀ c ∈ (pascalCase name).toList, c.isAlphanum := by
  rw [pascalCase]
  split
  · exact ⟨by decide, List.all_eq_true.mp (by decide)⟩
  · next hne =>
    refine ⟨fun hempty => hne ?_, fun c hc => ?_⟩
    · simpa using congrArg String.toList hempty
    · rw [String.toList_ofList] at hc
      exact isAlphanum_of_mem_joinWords hc

/-- The names that are given to methods have the form of method names. -/
theorem isMethodName_numbered (position : String) (n : Nat) :
    IsMethodName (numbered (methodName position) n) := by
  obtain ⟨hne, halnum⟩ := pascalCase_spec position
  cases n with
  | zero => exact ⟨pascalCase position, "", by simp [numbered, methodName], hne, halnum, .inl rfl⟩
  | succ n => exact ⟨pascalCase position, toString (n + 1), rfl, hne, halnum, .inr ⟨_, rfl⟩⟩

namespace NestedMethods

variable {keep : KeyFilter} {t t' : NestedMethods} {d : Definition}

/-! ### What is there already -/

/-- A scan of a definition in which every nested definition has its method adds nothing. -/
theorem scan_eq_self (h : ∀ b ∈ d.beans keep, t.Knows b) : scan keep d t = t := by
  have hvisit : ∀ o ∈ d.occurrences keep, visit keep t o = t := fun o ho => by
    have hknown := h o.2 (Definition.mem_beans_of_mem_occurrences ho)
    rw [visit, if_pos (isSome_nameFor?_iff.mpr hknown)]
  rw [scan_eq]
  generalize d.occurrences keep = os at hvisit
  induction os with
  | nil => rfl
  | cons o os ih =>
    rw [List.forall_mem_cons] at hvisit
    rw [List.foldl_cons, hvisit.1, ih hvisit.2]

/-- The method of a definition stays the same when methods are added at the end. -/
theorem nameFor?_of_prefix {name : String} (h : t.nameFor? d = some name)
    (hlist : t.list <+: t'.list) : t'.nameFor? d = some name := by
  obtain ⟨added, hadded⟩ := hlist
  obtain ⟨n, hn, rfl⟩ := Option.map_eq_some_iff.mp h
  rw [nameFor?, ← hadded, List.find?_append, hn, Option.some_or, Option.map_some]

/-! ### Runs -/

/-- Scan definitions in turn, each with a filter of its own. -/
def scanAll (t : NestedMethods) (calls : List (KeyFilter × Definition)) : NestedMethods :=
  calls.foldl (fun t call => scan call.1 call.2 t) t

/-- The methods are sound, made for well-formed definitions, and sufficient for the scanned ones. -/
structure Covers (t : NestedMethods) (calls : List (KeyFilter × Definition)) : Prop where
  sound : t.Sound
  wellFormed : ∀ n ∈ t.list, n.definition.WellFormed
  knows : ∀ call ∈ calls, ∀ b ∈ call.2.beans call.1, t.Knows b

variable {calls more : List (KeyFilter × Definition)}

theorem Covers.empty (owner : ClassName) : Covers { owner } [] where
  sound := .of_list_eq_nil rfl
  wellFormed := List.forall_mem_nil _
  knows := List.forall_mem_nil _

/-- Another scan only adds methods at the end, which are sufficient for one more definition. -/
theorem Covers.scan (h : t.Covers calls) (hd : d.WellFormed) :
    t.list <+: (scan keep d t).list ∧ (scan keep d t).Covers (calls ++ [(keep, d)]) := by
  obtain ⟨hsound, hscans⟩ : _ ∧ Scans keep (d.beans keep) t _ := scan_spec hd h.sound
  refine ⟨hscans.grows, hsound, ?_, fun call hcall b hb => ?_⟩
  · exact hscans.inherits Definition.WellFormed (fun _ hc _ hb => hc.of_mem_beans hb)
      (fun _ hb => hd.of_mem_beans hb) h.wellFormed
  · rcases List.mem_append.mp hcall with hcall | hcall
    · exact (h.knows call hcall b hb).mono hscans.grows
    · obtain rfl := List.mem_singleton.mp hcall
      exact hscans.knows b hb

/-- So does a run of scans. -/
theorem Covers.scanAll (h : t.Covers calls) (hmore : ∀ call ∈ more, call.2.WellFormed) :
    t.list <+: (t.scanAll more).list ∧ (t.scanAll more).Covers (calls ++ more) := by
  induction more generalizing t calls with
  | nil => exact ⟨List.prefix_refl _, by rwa [List.append_nil]⟩
  | cons call more ih =>
    rw [List.forall_mem_cons] at hmore
    obtain ⟨hgrows, hcovers⟩ : _ ∧ NestedMethods.Covers _ (calls ++ [call]) := h.scan hmore.1
    obtain ⟨hgrows', hcovers'⟩ := ih hcovers hmore.2
    rw [List.append_assoc] at hcovers'
    exact ⟨hgrows.trans hgrows', hcovers'⟩

theorem covers_scanAll (owner : ClassName) (hcalls : ∀ call ∈ calls, call.2.WellFormed) :
    (scanAll { owner } calls).Covers calls :=
  ((Covers.empty owner).scanAll hcalls).2

/-- In sound methods made for well-formed definitions, no definition is equal to another one, on
whichever side it stands. -/
theorem Covers.pairwise (h : t.Covers calls) : t.list.Pairwise fun n m =>
    ¬ n.definition == m.definition ∧ ¬ m.definition == n.definition := by
  refine h.sound.definitions.imp_of_mem fun {n m} hn hm hnm => ⟨hnm, fun hmn => hnm ?_⟩
  exact Definition.Equiv.beq
    (Definition.Equiv.symm ⟨h.wellFormed m hm, h.wellFormed n hn, Value.bean_beq.mpr ⟨_, rfl, hmn⟩⟩)

/-- After any run of scans: names are different and well-formed, definitions are unequal, further
scans only add methods at the end and so leave every known definition its method, and scanning a
definition again with the same filter adds nothing. -/
theorem scanAll_spec (owner : ClassName) (hcalls : ∀ call ∈ calls, call.2.WellFormed) :
    ((scanAll { owner } calls).names.Nodup ∧
        ∀ name ∈ (scanAll { owner } calls).names, IsMethodName name) ∧
      ((scanAll { owner } calls).list.Pairwise fun n m =>
        ¬ n.definition == m.definition ∧ ¬ m.definition == n.definition) ∧
      (∀ more, (∀ call ∈ more, call.2.WellFormed) →
        (scanAll { owner } calls).list <+: (scanAll { owner } (calls ++ more)).list ∧
        ∀ d name, (scanAll { owner } calls).nameFor? d = some name →
          (scanAll { owner } (calls ++ more)).nameFor? d = some name) ∧
      ∀ call ∈ calls, scan call.1 call.2 (scanAll { owner } calls) = scanAll { owner } calls := by
  have hcovers := covers_scanAll owner hcalls
  refine ⟨⟨hcovers.sound.names, fun name hname => ?_⟩, hcovers.pairwise, fun more hmore => ?_,
    fun call hcall => scan_eq_self (hcovers.knows call hcall)⟩
  · obtain ⟨n, hn, rfl⟩ := List.mem_map.mp hname
    obtain ⟨position, k, hnumbered⟩ := hcovers.sound.numbered n hn
    exact hnumbered ▸ isMethodName_numbered position k
  · have hrun : scanAll { owner } (calls ++ more) = (scanAll { owner } calls).scanAll more :=
      List.foldl_append
    have hgrows := (hcovers.scanAll hmore).1
    rw [hrun]
    exact ⟨hgrows, fun d name hname => nameFor?_of_prefix hname hgrows⟩

/-- Two filters, two definitions at positions that ask for one name, and one definition that comes
again below an attribute that only the first filter keeps. -/
theorem scanAll_spec_filters :
    let small : Definition := { properties := [("size", .literal (.int 1))] }
    let large : Definition := { properties := [("size", .literal (.int 2)), ("part", .bean small)] }
    let calls : List (KeyFilter × Definition) :=
      [(fun _ => true, { attributes := [("left-side", .bean small)] }),
        (fun key => key != "left-side",
          { properties := [("left side", .bean large)]
            attributes := [("left-side", .bean large)] })]
    (∀ call ∈ calls, call.2.WellFormed) ∧
      (scanAll { owner := ⟨"Methods"⟩ } calls).names
        = ["getLeftSideBeanDefinition", "getLeftSideBeanDefinition1"] ∧
      IsMethodName "getLeftSideBeanDefinition1" ∧
      ∀ call ∈ calls, scan call.1 call.2 (scanAll { owner := ⟨"Methods"⟩ } calls)
        = scanAll { owner := ⟨"Methods"⟩ } calls := by
  intro small large calls
  have hcalls : ∀ call ∈ calls, call.2.WellFormed := by decide
  have hnames : (scanAll { owner := ⟨"Methods"⟩ } calls).names
      = ["getLeftSideBeanDefinition", "getLeftSideBeanDefinition1"] := by decide
  obtain ⟨⟨-, hform⟩, -, -, hagain⟩ := scanAll_spec ⟨"Methods"⟩ hcalls
  exact ⟨hcalls, hnames, hform _ (hnames ▸ by decide), hagain⟩

end NestedMethods

end BeanScript
