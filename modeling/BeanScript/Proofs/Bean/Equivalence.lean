import BeanScript.Bean.Collection
import BeanScript.Proofs.Bean.WellFormed
import BeanScript.Proofs.Pointwise

/-!
# Equality of values is an equivalence

Equality of values is computed by going through both values at once. Here it is read as a relation:
equal values have the same outermost form and equal parts, and equal definitions have parts that are
equal position by position and key by key. On well-formed values it is an equivalence.

## Main definitions

* `Definition.Related` — definitions with the same settings and related values
* `Value.Equiv`, `Definition.Equiv` — equality of well-formed values and definitions

## Main results

* `Definition.beq_iff` — equal definitions are those whose values are equal
* `Value.beq_self`, `Value.beq_symm`, `Value.beq_trans` — the laws of an equivalence
* `Definition.Related.holds` — a value held by one definition has its counterpart in the other
-/

namespace BeanScript

/-! ### Related definitions -/

/-- Arguments with the same hints and related values. -/
def Holder.Related (R : Value → Value → Prop) (g h : Holder) : Prop :=
  R g.value h.value ∧ g.typeName = h.typeName ∧ g.name = h.name

/-- Definitions with the same settings, whose values are related position by position and key by
key. -/
structure Definition.Related (R : Value → Value → Prop) (d e : Definition) : Prop where
  settings : d.settings = e.settings
  indexed : List.Forall₂ (fun a b => a.1 = b.1 ∧ a.2.Related R b.2) d.indexed e.indexed
  generic : List.Forall₂ (Holder.Related R) d.generic e.generic
  properties : Table.Same R d.properties e.properties
  attributes : Table.Same R d.attributes e.attributes
  qualifiers : Table.Same (Table.Same R) d.qualifiers e.qualifiers

/-- A value held by one definition has its counterpart in the other. -/
theorem Definition.Related.holds {R : Value → Value → Prop} {d e : Definition}
    (h : d.Related R e) {keep : KeyFilter} {v : Value} (hv : d.Holds keep v) :
    ∃ w, e.Holds keep w ∧ R v w := by
  have htable : ∀ {s t : Table String Value}, Table.Same R s t → ∀ p ∈ s, ∃ q ∈ t,
      q.1 = p.1 ∧ R p.2 q.2 := by
    rintro s t ⟨-, hst⟩ p hp
    obtain ⟨w, hw, hR⟩ := hst p hp
    exact ⟨(p.1, w), Table.mem_of_get? hw, rfl, hR⟩
  simp only [Definition.holds_iff] at hv ⊢
  rcases hv with ⟨a, ha, rfl⟩ | ⟨g, hg, rfl⟩ | ⟨p, hp, rfl⟩ | ⟨p, hp, hkeep, rfl⟩ |
    ⟨q, hq, p, hp, rfl⟩
  · obtain ⟨b, hb, -, hR, -⟩ := exists_of_forall₂ h.indexed ha
    exact ⟨_, .inl ⟨b, hb, rfl⟩, hR⟩
  · obtain ⟨b, hb, hR, -⟩ := exists_of_forall₂ h.generic hg
    exact ⟨_, .inr (.inl ⟨b, hb, rfl⟩), hR⟩
  · obtain ⟨q, hq, -, hR⟩ := htable h.properties p hp
    exact ⟨_, .inr (.inr (.inl ⟨q, hq, rfl⟩)), hR⟩
  · obtain ⟨q, hq, hkey, hR⟩ := htable h.attributes p hp
    exact ⟨_, .inr (.inr (.inr (.inl ⟨q, hq, hkey ▸ hkeep, rfl⟩))), hR⟩
  · obtain ⟨es, hes, hR⟩ := h.qualifiers.2 q hq
    obtain ⟨r, hr, -, hR⟩ := htable hR p hp
    exact ⟨_, .inr (.inr (.inr (.inr ⟨_, Table.mem_of_get? hes, r, hr, rfl⟩))), hR⟩

section Related

variable {R S T : Value → Value → Prop} {d e f : Definition}

/-- Where a definition holds the value of a part. -/
theorem Definition.holds_indexed {a : Nat × Holder} (h : a ∈ d.indexed) :
    d.Holds .all a.2.value :=
  holds_iff.mpr (.inl ⟨a, h, rfl⟩)

theorem Definition.holds_generic {g : Holder} (h : g ∈ d.generic) : d.Holds .all g.value :=
  holds_iff.mpr (.inr (.inl ⟨g, h, rfl⟩))

theorem Definition.holds_property {p : String × Value} (h : p ∈ d.properties) :
    d.Holds .all p.2 :=
  holds_iff.mpr (.inr (.inr (.inl ⟨p, h, rfl⟩)))

theorem Definition.holds_attribute {p : String × Value} (h : p ∈ d.attributes) :
    d.Holds .all p.2 :=
  holds_iff.mpr (.inr (.inr (.inr (.inl ⟨p, h, rfl, rfl⟩))))

theorem Definition.holds_qualifier {q : String × List (String × Value)} (h : q ∈ d.qualifiers)
    {p : String × Value} (hp : p ∈ q.2) : d.Holds .all p.2 :=
  holds_iff.mpr (.inr (.inr (.inr (.inr ⟨q, h, p, hp, rfl⟩))))

namespace Definition.Related

/-- A relation between definitions depends only on how the values that they hold are related. -/
theorem imp_of_holds (h : d.Related R e)
    (hRS : ∀ v, d.Holds .all v → ∀ w, e.Holds .all w → R v w → S v w) : d.Related S e where
  settings := h.settings
  indexed := forall₂_imp_of_mem h.indexed fun _ ha _ hb ⟨hi, hR, hh⟩ =>
    ⟨hi, hRS _ (holds_indexed ha) _ (holds_indexed hb) hR, hh⟩
  generic := forall₂_imp_of_mem h.generic fun _ ha _ hb ⟨hR, hh⟩ =>
    ⟨hRS _ (holds_generic ha) _ (holds_generic hb) hR, hh⟩
  properties := h.properties.imp_of_mem fun _ ha _ hb =>
    hRS _ (holds_property ha) _ (holds_property hb)
  attributes := h.attributes.imp_of_mem fun _ ha _ hb =>
    hRS _ (holds_attribute ha) _ (holds_attribute hb)
  qualifiers := h.qualifiers.imp_of_mem fun _ hq _ hr hR => hR.imp_of_mem fun _ ha _ hb =>
    hRS _ (holds_qualifier hq ha) _ (holds_qualifier hr hb)

theorem flip_of_holds (hd : d.Distinct) (he : e.Distinct) (h : d.Related R e)
    (hRS : ∀ v, d.Holds .all v → ∀ w, e.Holds .all w → R v w → S w v) : e.Related S d where
  settings := h.settings.symm
  indexed := forall₂_flip_of_mem h.indexed fun _ ha _ hb ⟨hi, hR, ht, hn⟩ =>
    ⟨hi.symm, hRS _ (holds_indexed ha) _ (holds_indexed hb) hR, ht.symm, hn.symm⟩
  generic := forall₂_flip_of_mem h.generic fun _ ha _ hb ⟨hR, ht, hn⟩ =>
    ⟨hRS _ (holds_generic ha) _ (holds_generic hb) hR, ht.symm, hn.symm⟩
  properties := h.properties.flip_of_mem hd.properties he.properties fun _ ha _ hb =>
    hRS _ (holds_property ha) _ (holds_property hb)
  attributes := h.attributes.flip_of_mem hd.attributes he.attributes fun _ ha _ hb =>
    hRS _ (holds_attribute ha) _ (holds_attribute hb)
  qualifiers := h.qualifiers.flip_of_mem hd.qualifiers he.qualifiers fun q hq r hr hR =>
    hR.flip_of_mem (hd.qualifierAttributes q hq) (he.qualifierAttributes r hr) fun _ ha _ hb =>
      hRS _ (holds_qualifier hq ha) _ (holds_qualifier hr hb)

theorem trans_of_holds (h : d.Related R e) (h' : e.Related S f)
    (hT : ∀ v, d.Holds .all v → ∀ w x, R v w → S w x → T v x) : d.Related T f where
  settings := h.settings.trans h'.settings
  indexed := forall₂_trans_of h.indexed h'.indexed
    fun _ ha _ _ _ _ ⟨hi, hR, ht, hn⟩ ⟨hi', hS, ht', hn'⟩ =>
      ⟨hi.trans hi', hT _ (holds_indexed ha) _ _ hR hS, ht.trans ht', hn.trans hn'⟩
  generic := forall₂_trans_of h.generic h'.generic
    fun _ ha _ _ _ _ ⟨hR, ht, hn⟩ ⟨hS, ht', hn'⟩ =>
      ⟨hT _ (holds_generic ha) _ _ hR hS, ht.trans ht', hn.trans hn'⟩
  properties := h.properties.trans_of_mem h'.properties fun _ ha _ _ _ _ =>
    hT _ (holds_property ha) _ _
  attributes := h.attributes.trans_of_mem h'.attributes fun _ ha _ _ _ _ =>
    hT _ (holds_attribute ha) _ _
  qualifiers := h.qualifiers.trans_of_mem h'.qualifiers fun _ hq _ _ _ _ hR hS =>
    hR.trans_of_mem hS fun _ ha _ _ _ _ => hT _ (holds_qualifier hq ha) _ _

theorem refl_of_holds (hd : d.Distinct) (hR : ∀ v, d.Holds .all v → R v v) : d.Related R d where
  settings := rfl
  indexed := List.forall₂_same.mpr fun _ ha => ⟨rfl, hR _ (holds_indexed ha), rfl, rfl⟩
  generic := List.forall₂_same.mpr fun _ ha => ⟨hR _ (holds_generic ha), rfl, rfl⟩
  properties := Table.same_self hd.properties fun _ ha => hR _ (holds_property ha)
  attributes := Table.same_self hd.attributes fun _ ha => hR _ (holds_attribute ha)
  qualifiers := Table.same_self hd.qualifiers fun q hq =>
    Table.same_self (hd.qualifierAttributes q hq) fun _ ha => hR _ (holds_qualifier hq ha)

end Definition.Related

end Related

/-! ### Equality -/

theorem valuesSame_iff {vs ws : List Value} :
    valuesSame vs ws ↔ List.Forall₂ (fun v w => v == w) vs ws := by
  induction vs generalizing ws with
  | nil => cases ws <;> simp [valuesSame]
  | cons v vs ih =>
    cases ws with
    | nil => simp [valuesSame]
    | cons w ws =>
      rw [valuesSame, Bool.and_eq_true, ih, List.forall₂_cons]
      exact Iff.rfl

theorem entriesSame_iff {es fs : List (Value × Value)} :
    entriesSame es fs ↔ List.Forall₂ (fun e f => e.1 == f.1 ∧ e.2 == f.2) es fs := by
  induction es generalizing fs with
  | nil => cases fs <;> simp [entriesSame]
  | cons e es ih =>
    obtain ⟨j, v⟩ := e
    cases fs with
    | nil => simp [entriesSame]
    | cons f fs =>
      rw [entriesSame, Bool.and_eq_true, Bool.and_eq_true, ih, List.forall₂_cons]
      exact Iff.rfl

theorem Holder.beq_iff {g h : Holder} : g == h ↔ g.Related (fun v w => v == w) h := by
  obtain ⟨v, t, n⟩ := g
  obtain ⟨w, u, m⟩ := h
  change (v.same w && t == u && n == m) = true ↔ _
  rw [Bool.and_eq_true, Bool.and_eq_true, beq_iff_eq, beq_iff_eq, and_assoc]
  exact Iff.rfl

theorem indexedSame_iff {as bs : List (Nat × Holder)} :
    indexedSame as bs ↔
      List.Forall₂ (fun a b => a.1 = b.1 ∧ a.2.Related (fun v w => v == w) b.2) as bs := by
  induction as generalizing bs with
  | nil => cases bs <;> simp [indexedSame]
  | cons a as ih =>
    obtain ⟨i, g⟩ := a
    cases bs with
    | nil => simp [indexedSame]
    | cons b bs =>
      obtain ⟨j, h⟩ := b
      rw [indexedSame, Bool.and_eq_true, Bool.and_eq_true, ih, List.forall₂_cons, beq_iff_eq,
        ← Holder.beq_iff]
      exact Iff.rfl

theorem holdersSame_iff {gs hs : List Holder} :
    holdersSame gs hs ↔ List.Forall₂ (Holder.Related fun v w => v == w) gs hs := by
  induction gs generalizing hs with
  | nil => cases hs <;> simp [holdersSame]
  | cons g gs ih =>
    cases hs with
    | nil => simp [holdersSame]
    | cons h hs =>
      rw [holdersSame, Bool.and_eq_true, ih, List.forall₂_cons, ← Holder.beq_iff]
      exact Iff.rfl

theorem tableWithin_iff {es fs : List (String × Value)} :
    tableWithin es fs ↔ Table.Within (fun v w => v == w) es fs := by
  induction es with
  | nil => simp [tableWithin, Table.Within]
  | cons e es ih =>
    obtain ⟨k, v⟩ := e
    rw [tableWithin, Bool.and_eq_true, ih, Table.Within, Table.Within, List.forall_mem_cons]
    refine and_congr_left fun _ => ?_
    cases Table.get? fs k with
    | none => simp
    | some w =>
      simp only [Option.some.injEq, exists_eq_left']
      exact Iff.rfl

theorem qualifiersWithin_iff {qs rs : List (String × List (String × Value))} :
    qualifiersWithin qs rs ↔ Table.Within (Table.Same fun v w => v == w) qs rs := by
  induction qs with
  | nil => simp [qualifiersWithin, Table.Within]
  | cons q qs ih =>
    obtain ⟨t, es⟩ := q
    rw [qualifiersWithin, Bool.and_eq_true, ih, Table.Within, Table.Within, List.forall_mem_cons]
    refine and_congr_left fun _ => ?_
    cases Table.get? rs t with
    | none => simp
    | some fs =>
      simp only [Option.some.injEq, exists_eq_left', Bool.and_eq_true, beq_iff_eq, tableWithin_iff]
      exact Iff.rfl

/-- Equal definitions are those whose values are equal. -/
theorem Definition.beq_iff {d e : Definition} : d == e ↔ d.Related (fun v w => v == w) e := by
  obtain ⟨s, i, g, p, a, q⟩ := d
  obtain ⟨s', i', g', p', a', q'⟩ := e
  change (s == s' && indexedSame i i' && holdersSame g g' &&
    (p.length == p'.length && tableWithin p p') && (a.length == a'.length && tableWithin a a') &&
    (q.length == q'.length && qualifiersWithin q q')) = true ↔ _
  simp only [Bool.and_eq_true, beq_iff_eq, indexedSame_iff, holdersSame_iff, tableWithin_iff,
    qualifiersWithin_iff]
  constructor
  · rintro ⟨⟨⟨⟨⟨hs, hi⟩, hg⟩, hp⟩, ha⟩, hq⟩
    exact ⟨hs, hi, hg, hp, ha, hq⟩
  · rintro ⟨hs, hi, hg, hp, ha, hq⟩
    exact ⟨⟨⟨⟨⟨hs, hi⟩, hg⟩, hp⟩, ha⟩, hq⟩

namespace Value

/-! What a value is equal to, by its form. -/

@[simp] theorem atom_beq {a : Atom} {w : Value} : (Value.atom a == w) ↔ w = .atom a := by
  cases w with
  | atom b =>
    change (a == b) = true ↔ _
    rw [beq_iff_eq, Value.atom.injEq]
    exact eq_comm
  | _ => exact ⟨fun h => (by cases h), fun h => (by cases h)⟩

@[simp] theorem array_beq {c : ClassName} {vs : List Value} {w : Value} :
    (Value.array c vs == w) ↔ ∃ ws, w = .array c ws ∧ List.Forall₂ (fun v w => v == w) vs ws := by
  cases w with
  | array c' ws =>
    change (c == c' && valuesSame vs ws) = true ↔ _
    rw [Bool.and_eq_true, beq_iff_eq, valuesSame_iff]
    constructor
    · rintro ⟨rfl, h⟩
      exact ⟨ws, rfl, h⟩
    · rintro ⟨_, heq, h⟩
      cases heq
      exact ⟨rfl, h⟩
  | _ => exact ⟨fun h => (by cases h), fun ⟨_, h, _⟩ => (by cases h)⟩

@[simp] theorem list_beq {k : Kind} {vs : List Value} {w : Value} :
    (Value.list k vs == w) ↔ ∃ ws, w = .list k ws ∧ List.Forall₂ (fun v w => v == w) vs ws := by
  cases w with
  | list l ws =>
    change (k == l && valuesSame vs ws) = true ↔ _
    rw [Bool.and_eq_true, beq_iff_eq, valuesSame_iff]
    constructor
    · rintro ⟨rfl, h⟩
      exact ⟨ws, rfl, h⟩
    · rintro ⟨_, heq, h⟩
      cases heq
      exact ⟨rfl, h⟩
  | _ => exact ⟨fun h => (by cases h), fun ⟨_, h, _⟩ => (by cases h)⟩

@[simp] theorem set_beq {k : Kind} {vs : List Value} {w : Value} :
    (Value.set k vs == w) ↔ ∃ ws, w = .set k ws ∧ List.Forall₂ (fun v w => v == w) vs ws := by
  cases w with
  | set l ws =>
    change (k == l && valuesSame vs ws) = true ↔ _
    rw [Bool.and_eq_true, beq_iff_eq, valuesSame_iff]
    constructor
    · rintro ⟨rfl, h⟩
      exact ⟨ws, rfl, h⟩
    · rintro ⟨_, heq, h⟩
      cases heq
      exact ⟨rfl, h⟩
  | _ => exact ⟨fun h => (by cases h), fun ⟨_, h, _⟩ => (by cases h)⟩

@[simp] theorem map_beq {k : Kind} {es : List (Value × Value)} {w : Value} :
    (Value.map k es == w) ↔
      ∃ fs, w = .map k fs ∧ List.Forall₂ (fun e f => e.1 == f.1 ∧ e.2 == f.2) es fs := by
  cases w with
  | map l fs =>
    change (k == l && entriesSame es fs) = true ↔ _
    rw [Bool.and_eq_true, beq_iff_eq, entriesSame_iff]
    constructor
    · rintro ⟨rfl, h⟩
      exact ⟨fs, rfl, h⟩
    · rintro ⟨_, heq, h⟩
      cases heq
      exact ⟨rfl, h⟩
  | _ => exact ⟨fun h => (by cases h), fun ⟨_, h, _⟩ => (by cases h)⟩

@[simp] theorem bean_beq {d : Definition} {w : Value} :
    (Value.bean d == w) ↔ ∃ e, w = .bean e ∧ d == e := by
  cases w with
  | bean e =>
    refine ⟨fun h => ⟨e, rfl, h⟩, ?_⟩
    rintro ⟨_, heq, h⟩
    cases heq
    exact h
  | _ => exact ⟨fun h => (by cases h), fun ⟨_, h, _⟩ => (by cases h)⟩

/-! ### The laws -/

/-- A well-formed value is equal to itself. -/
theorem beq_self {v : Value} (hv : v.WellFormed) : v == v := by
  induction v with
  | atom a => exact atom_beq.mpr rfl
  | array c vs ih =>
    rw [wellFormed_array] at hv
    exact array_beq.mpr ⟨vs, rfl, List.forall₂_same.mpr fun v hmem => ih v hmem (hv v hmem)⟩
  | list k vs ih =>
    rw [wellFormed_list] at hv
    exact list_beq.mpr ⟨vs, rfl, List.forall₂_same.mpr fun v hmem => ih v hmem (hv v hmem)⟩
  | set k vs ih =>
    rw [wellFormed_set] at hv
    exact set_beq.mpr ⟨vs, rfl, List.forall₂_same.mpr fun v hmem => ih v hmem (hv.2 v hmem)⟩
  | map k es ih =>
    rw [wellFormed_map] at hv
    exact map_beq.mpr ⟨es, rfl, List.forall₂_same.mpr fun e hmem =>
      ⟨(ih e hmem).1 (hv.2 e hmem).1, (ih e hmem).2 (hv.2 e hmem).2⟩⟩
  | bean d ih =>
    obtain ⟨hd, hheld⟩ := Definition.wellFormed_iff.mp (wellFormed_bean.mp hv)
    exact bean_beq.mpr ⟨d, rfl, Definition.beq_iff.mpr
      (Definition.Related.refl_of_holds hd fun w hw => ih w hw (hheld w hw))⟩

/-- Equality of well-formed values does not depend on the side. -/
theorem beq_symm {v w : Value} (hv : v.WellFormed) (hw : w.WellFormed) (h : v == w) : w == v := by
  induction v generalizing w with
  | atom a => obtain rfl := atom_beq.mp h; exact h
  | array c vs ih =>
    obtain ⟨ws, rfl, hs⟩ := array_beq.mp h
    rw [wellFormed_array] at hv hw
    exact array_beq.mpr ⟨vs, rfl, forall₂_flip_of_mem hs fun v hv' w hw' =>
      ih v hv' (hv v hv') (hw w hw')⟩
  | list k vs ih =>
    obtain ⟨ws, rfl, hs⟩ := list_beq.mp h
    rw [wellFormed_list] at hv hw
    exact list_beq.mpr ⟨vs, rfl, forall₂_flip_of_mem hs fun v hv' w hw' =>
      ih v hv' (hv v hv') (hw w hw')⟩
  | set k vs ih =>
    obtain ⟨ws, rfl, hs⟩ := set_beq.mp h
    rw [wellFormed_set] at hv hw
    exact set_beq.mpr ⟨vs, rfl, forall₂_flip_of_mem hs fun v hv' w hw' =>
      ih v hv' (hv.2 v hv') (hw.2 w hw')⟩
  | map k es ih =>
    obtain ⟨fs, rfl, hs⟩ := map_beq.mp h
    rw [wellFormed_map] at hv hw
    exact map_beq.mpr ⟨es, rfl, forall₂_flip_of_mem hs fun e he f hf ⟨hkey, hvalue⟩ =>
      ⟨(ih e he).1 (hv.2 e he).1 (hw.2 f hf).1 hkey,
        (ih e he).2 (hv.2 e he).2 (hw.2 f hf).2 hvalue⟩⟩
  | bean d ih =>
    obtain ⟨e, rfl, hs⟩ := bean_beq.mp h
    obtain ⟨hd, hdv⟩ := Definition.wellFormed_iff.mp (wellFormed_bean.mp hv)
    obtain ⟨he, hev⟩ := Definition.wellFormed_iff.mp (wellFormed_bean.mp hw)
    exact bean_beq.mpr ⟨d, rfl, Definition.beq_iff.mpr
      ((Definition.beq_iff.mp hs).flip_of_holds hd he fun v hv' w hw' =>
        ih v hv' (hdv v hv') (hev w hw'))⟩

/-- Equality is transitive, on all values. -/
theorem beq_trans {v w x : Value} (h : v == w) (h' : w == x) : v == x := by
  induction v generalizing w x with
  | atom a => obtain rfl := atom_beq.mp h; exact h'
  | array c vs ih =>
    obtain ⟨ws, rfl, hs⟩ := array_beq.mp h
    obtain ⟨xs, rfl, hs'⟩ := array_beq.mp h'
    exact array_beq.mpr ⟨xs, rfl, forall₂_trans_of hs hs' fun v hv _ _ _ _ => ih v hv⟩
  | list k vs ih =>
    obtain ⟨ws, rfl, hs⟩ := list_beq.mp h
    obtain ⟨xs, rfl, hs'⟩ := list_beq.mp h'
    exact list_beq.mpr ⟨xs, rfl, forall₂_trans_of hs hs' fun v hv _ _ _ _ => ih v hv⟩
  | set k vs ih =>
    obtain ⟨ws, rfl, hs⟩ := set_beq.mp h
    obtain ⟨xs, rfl, hs'⟩ := set_beq.mp h'
    exact set_beq.mpr ⟨xs, rfl, forall₂_trans_of hs hs' fun v hv _ _ _ _ => ih v hv⟩
  | map k es ih =>
    obtain ⟨fs, rfl, hs⟩ := map_beq.mp h
    obtain ⟨gs, rfl, hs'⟩ := map_beq.mp h'
    exact map_beq.mpr ⟨gs, rfl, forall₂_trans_of hs hs' fun e he _ _ _ _ hef hfg =>
      ⟨(ih e he).1 hef.1 hfg.1, (ih e he).2 hef.2 hfg.2⟩⟩
  | bean d ih =>
    obtain ⟨e, rfl, hs⟩ := bean_beq.mp h
    obtain ⟨f, rfl, hs'⟩ := bean_beq.mp h'
    have hrelated := (Definition.beq_iff.mp hs).trans_of_holds (Definition.beq_iff.mp hs')
      fun v hv _ _ => ih v hv
    exact bean_beq.mpr ⟨f, rfl, Definition.beq_iff.mpr hrelated⟩

end Value

/-! ### Equal well-formed values -/

/-- Both values are well-formed, and they are equal. -/
structure Value.Equiv (v w : Value) : Prop where
  left : v.WellFormed
  right : w.WellFormed
  beq : v == w

namespace Value.Equiv

variable {v w x y : Value}

theorem refl (hv : v.WellFormed) : v.Equiv v :=
  ⟨hv, hv, beq_self hv⟩

theorem symm (h : v.Equiv w) : w.Equiv v :=
  ⟨h.right, h.left, beq_symm h.left h.right h.beq⟩

theorem trans (h : v.Equiv w) (h' : w.Equiv x) : v.Equiv x :=
  ⟨h.left, h'.right, beq_trans h.beq h'.beq⟩

/-- Equality cannot tell equal values apart. -/
theorem beq_congr (h : v.Equiv w) (h' : x.Equiv y) : (v == x) = (w == y) := by
  rw [Bool.eq_iff_iff]
  exact ⟨fun hvx => beq_trans (beq_trans h.symm.beq hvx) h'.beq,
    fun hwy => beq_trans (beq_trans h.beq hwy) h'.symm.beq⟩

end Value.Equiv

theorem forall_left_of_equiv {vs ws : List Value} (h : List.Forall₂ Value.Equiv vs ws) :
    ∀ v ∈ vs, v.WellFormed := fun _ hv =>
  let ⟨_, _, hvw⟩ := exists_of_forall₂ h hv
  hvw.left

theorem forall_right_of_equiv {vs ws : List Value} (h : List.Forall₂ Value.Equiv vs ws) :
    ∀ w ∈ ws, w.WellFormed :=
  forall_left_of_equiv (forall₂_flip_of_mem h fun _ _ _ _ hvw => hvw.symm)

namespace Value

/-- Inserting well-formed values in turn gives a well-formed set. -/
theorem WellFormed.set_ofList {vs : List Value} (h : ∀ v ∈ vs, v.WellFormed) (k : Kind) :
    (Value.set k (ValueSet.ofList vs)).WellFormed :=
  wellFormed_set.mpr
    ⟨Distinct.pairwise_ofList vs, fun v hv => h v (Distinct.mem_of_mem_ofList hv)⟩

/-- Inserting well-formed entries in turn gives a well-formed map. -/
theorem WellFormed.map_ofList {es : List (Value × Value)}
    (h : ∀ e ∈ es, e.1.WellFormed ∧ e.2.WellFormed) (k : Kind) :
    (Value.map k (ValueMap.ofList es)).WellFormed := by
  refine wellFormed_map.mpr ⟨Table.pairwise_ofList es, fun e he => ?_⟩
  obtain ⟨hkey, hvalue⟩ := Table.mem_ofList he
  obtain ⟨f, hf, hfe⟩ := List.mem_map.mp hkey
  obtain ⟨g, hg, hge⟩ := List.mem_map.mp hvalue
  exact ⟨hfe ▸ (h f hf).1, hge ▸ (h g hg).2⟩

namespace Equiv

theorem array {vs ws : List Value} (c : ClassName) (h : List.Forall₂ Value.Equiv vs ws) :
    (Value.array c vs).Equiv (.array c ws) where
  left := wellFormed_array.mpr (forall_left_of_equiv h)
  right := wellFormed_array.mpr (forall_right_of_equiv h)
  beq := array_beq.mpr ⟨ws, rfl, h.imp fun _ _ hvw => hvw.beq⟩

theorem list {vs ws : List Value} (k : Kind) (h : List.Forall₂ Value.Equiv vs ws) :
    (Value.list k vs).Equiv (.list k ws) where
  left := wellFormed_list.mpr (forall_left_of_equiv h)
  right := wellFormed_list.mpr (forall_right_of_equiv h)
  beq := list_beq.mpr ⟨ws, rfl, h.imp fun _ _ hvw => hvw.beq⟩

/-- Inserting equal values in turn gives equal sets. -/
theorem set {vs ws : List Value} (k : Kind) (h : List.Forall₂ Value.Equiv vs ws) :
    (Value.set k (ValueSet.ofList vs)).Equiv (.set k (ValueSet.ofList ws)) where
  left := .set_ofList (forall_left_of_equiv h) k
  right := .set_ofList (forall_right_of_equiv h) k
  beq :=
    have hsets := Distinct.forall₂_ofList (fun _ _ _ _ h h' => h.beq_congr h') h
    set_beq.mpr ⟨_, rfl, hsets.imp fun _ _ hvw => hvw.beq⟩

/-- Inserting equal entries in turn gives equal maps. -/
theorem map {es fs : List (Value × Value)} (k : Kind)
    (h : List.Forall₂ (fun e f => e.1.Equiv f.1 ∧ e.2.Equiv f.2) es fs) :
    (Value.map k (ValueMap.ofList es)).Equiv (.map k (ValueMap.ofList fs)) where
  left := by
    refine .map_ofList (fun e he => ?_) k
    obtain ⟨f, -, hef⟩ := exists_of_forall₂ h he
    exact ⟨hef.1.left, hef.2.left⟩
  right := by
    refine .map_ofList (fun f hf => ?_) k
    obtain ⟨e, -, hfe⟩ := exists_of_forall₂
      (forall₂_flip_of_mem (S := fun f e => e.1.Equiv f.1 ∧ e.2.Equiv f.2) h
        fun _ _ _ _ hef => hef) hf
    exact ⟨hfe.1.right, hfe.2.right⟩
  beq :=
    have hmaps := Table.forall₂_ofList (fun _ _ _ _ h h' => h.beq_congr h') h
    map_beq.mpr ⟨_, rfl, hmaps.imp fun _ _ hef => ⟨hef.1.beq, hef.2.beq⟩⟩

end Equiv

end Value

/-- Arguments that are equal, with well-formed values. -/
theorem Holder.Related.beq_congr {g h g' h' : Holder} (hgh : g.Related Value.Equiv h)
    (hgh' : g'.Related Value.Equiv h') : (g == g') = (h == h') := by
  rw [Bool.eq_iff_iff, Holder.beq_iff, Holder.beq_iff, Holder.Related, Holder.Related,
    hgh.1.beq_congr hgh'.1, hgh.2.1, hgh.2.2, hgh'.2.1, hgh'.2.2]

/-- Both definitions are well-formed, and they are equal. -/
def Definition.Equiv (d e : Definition) : Prop :=
  (Value.bean d).Equiv (.bean e)

namespace Definition.Equiv

variable {d e f : Definition}

theorem refl (hd : d.WellFormed) : d.Equiv d :=
  Value.Equiv.refl hd

theorem symm (h : d.Equiv e) : e.Equiv d :=
  Value.Equiv.symm h

theorem trans (h : d.Equiv e) (h' : e.Equiv f) : d.Equiv f :=
  Value.Equiv.trans h h'

theorem beq (h : d.Equiv e) : d == e :=
  Value.Equiv.beq h

/-- Equal definitions are those without repetition whose values are equal. -/
theorem of_related (hd : d.Distinct) (he : e.Distinct) (h : d.Related Value.Equiv e) :
    d.Equiv e where
  left := by
    refine wellFormed_iff.mpr ⟨hd, fun v hv => ?_⟩
    obtain ⟨w, -, hvw⟩ := h.holds hv
    exact hvw.left
  right := by
    refine wellFormed_iff.mpr ⟨he, fun w hw => ?_⟩
    have hflip := h.flip_of_holds (S := Value.Equiv) hd he fun _ _ _ _ hvw => hvw.symm
    obtain ⟨v, -, hwv⟩ := hflip.holds hw
    exact hwv.left
  beq := Value.bean_beq.mpr
    ⟨e, rfl, Definition.beq_iff.mpr (h.imp_of_holds fun _ _ _ _ hvw => hvw.beq)⟩

theorem related (h : d.Equiv e) : d.Related Value.Equiv e := by
  obtain ⟨hd, he, hde⟩ := h
  refine (Definition.beq_iff.mp hde).imp_of_holds fun v hv w hw hvw => ?_
  exact ⟨Definition.WellFormed.of_holds hd hv, Definition.WellFormed.of_holds he hw, hvw⟩

end Definition.Equiv

end BeanScript
