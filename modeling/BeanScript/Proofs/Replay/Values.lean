import BeanScript.Proofs.Bean.Nesting
import BeanScript.Proofs.Replay.Evaluation

/-!
# Written values read back

What the expression of a value evaluates to is a function of the value alone, once it is known what
the nested definitions are rebuilt as. Every value comes back as it is, with one exception: the
static fields of the interface of bean definitions are role constants, so an enum constant of that
type comes back as the number of the role, if it names one.

## Main definitions

* `Value.replay` — what comes back
* `Value.isOpaque`, `Value.isRoleConstant`, `Value.isPlain` — the exceptions

## Main results

* `Value.yields_of_encode` — the expression of a value evaluates to what comes back
* `Value.replay_of_plain` — plain values without nested definitions come back as they are
-/

namespace BeanScript

/-- What comes back of a value without parts. -/
def Atom.replay : Atom → Except Fault Value
  | .enumConstant owner name =>
    if owner = Api.beanDefinition then
      match Role.ofConstant? name with
      | some role => .ok (.literal (.int role.code))
      | none => .error (.unknownStaticField owner.text name)
    else .ok (.atom (.enumConstant owner name))
  | a => .ok (.atom a)

mutual

/-- What comes back of a value, where nested definitions come back as `bean` says. -/
def Value.replay (bean : Definition → Except Fault Value) : Value → Except Fault Value
  | .atom a => a.replay
  | .array c vs => (replayElements bean vs).map (.array c)
  | .list k vs => (replayElements bean vs).map (.list k)
  | .set k vs => (replayElements bean vs).map fun ws => .set k (ValueSet.ofList ws)
  | .map k es => (replayEntries bean es).map fun fs => .map k (ValueMap.ofList fs)
  | .bean d => bean d
termination_by structural v => v

/-- What comes back of values in turn. -/
def replayElements (bean : Definition → Except Fault Value) :
    List Value → Except Fault (List Value)
  | [] => .ok []
  | v :: vs => v.replay bean >>= fun w => (replayElements bean vs).map (w :: ·)
termination_by structural vs => vs

/-- What comes back of map entries in turn. -/
def replayEntries (bean : Definition → Except Fault Value) :
    List (Value × Value) → Except Fault (List (Value × Value))
  | [] => .ok []
  | (key, v) :: es =>
    (key.replay bean >>= fun k => (v.replay bean).map (k, ·)) >>= fun f =>
      (replayEntries bean es).map (f :: ·)
termination_by structural es => es

end

/-- What comes back of a map entry. -/
def replayEntry (bean : Definition → Except Fault Value) (e : Value × Value) :
    Except Fault (Value × Value) :=
  e.1.replay bean >>= fun k => (e.2.replay bean).map (k, ·)

section Equations

variable {bean : Definition → Except Fault Value}

theorem replayElements_eq {vs : List Value} :
    replayElements bean vs = vs.mapM (Value.replay bean) := by
  induction vs with
  | nil => rfl
  | cons v vs ih => rw [replayElements, mapM_cons_eq, ih]

theorem replayEntries_eq {es : List (Value × Value)} :
    replayEntries bean es = es.mapM (replayEntry bean) := by
  induction es with
  | nil => rfl
  | cons e es ih =>
    obtain ⟨key, v⟩ := e
    rw [replayEntries, mapM_cons_eq, ih, replayEntry]

namespace Value

@[simp] theorem replay_atom {a : Atom} : (Value.atom a).replay bean = a.replay := rfl

@[simp] theorem replay_array {c : ClassName} {vs : List Value} :
    (Value.array c vs).replay bean = (vs.mapM (replay bean)).map (.array c) := by
  rw [replay, replayElements_eq]

@[simp] theorem replay_list {k : Kind} {vs : List Value} :
    (Value.list k vs).replay bean = (vs.mapM (replay bean)).map (.list k) := by
  rw [replay, replayElements_eq]

@[simp] theorem replay_set {k : Kind} {vs : List Value} :
    (Value.set k vs).replay bean
      = (vs.mapM (replay bean)).map fun ws => .set k (ValueSet.ofList ws) := by
  rw [replay, replayElements_eq]

@[simp] theorem replay_map {k : Kind} {es : List (Value × Value)} :
    (Value.map k es).replay bean
      = (es.mapM (replayEntry bean)).map fun fs => .map k (ValueMap.ofList fs) := by
  rw [replay, replayEntries_eq]

@[simp] theorem replay_bean {d : Definition} : (Value.bean d).replay bean = bean d := rfl

end Value

end Equations

/-! ### The expression of a value -/

theorem encodeElements_eq {resolve : Resolver} {name : String} {vs : List Value} :
    encodeElements resolve name vs = vs.mapM (Value.encode resolve name) := by
  induction vs with
  | nil => rfl
  | cons v vs ih =>
    rw [encodeElements, mapM_cons_eq, ih]
    simp only [map_eq_bind, pure_eq_ok]

/-- The expression of a map entry. A collection cannot be a key. -/
def encodeEntry (resolve : Resolver) (name : String) (e : Value × Value) :
    Except EncodeError Expr :=
  if e.1.isCollection then .error (.unsupportedMapKey name e.1.kindName)
  else e.1.encode resolve name >>= fun k =>
    (e.2.encode resolve name).map fun v => Api.Factory.entry.call [k, v]

theorem encodeEntries_eq {resolve : Resolver} {name : String} {es : List (Value × Value)} :
    encodeEntries resolve name es = es.mapM (encodeEntry resolve name) := by
  induction es with
  | nil => rfl
  | cons e es ih =>
    obtain ⟨key, v⟩ := e
    rw [encodeEntries, mapM_cons_eq, ih, encodeEntry]
    split
    · rfl
    · cases key.encode resolve name <;> cases v.encode resolve name <;>
        simp [map_eq_bind]

namespace Value

section Encode

variable {resolve : Resolver} {name : String}

@[simp] theorem encode_array {c : ClassName} {vs : List Value} :
    (Value.array c vs).encode resolve name = (vs.mapM (encode resolve name)).map (.newArray c) := by
  rw [encode, encodeElements_eq, map_eq_bind]
  rfl

@[simp] theorem encode_list {k : Kind} {vs : List Value} :
    (Value.list k vs).encode resolve name
      = (vs.mapM (encode resolve name)).map (Api.Factory.list k).call := by
  rw [encode, encodeElements_eq, map_eq_bind]
  rfl

@[simp] theorem encode_set {k : Kind} {vs : List Value} :
    (Value.set k vs).encode resolve name
      = (vs.mapM (encode resolve name)).map (Api.Factory.set k).call := by
  rw [encode, encodeElements_eq, map_eq_bind]
  rfl

@[simp] theorem encode_map {k : Kind} {es : List (Value × Value)} :
    (Value.map k es).encode resolve name
      = (es.mapM (encodeEntry resolve name)).map (Api.Factory.map k).call := by
  rw [encode, encodeEntries_eq, map_eq_bind]
  rfl

end Encode

/-- A value without a written form. -/
def isOpaque : Value → Bool
  | .atom (.instanceOf _) => true
  | _ => false

/-- An enum constant of the interface of bean definitions. -/
def isRoleConstant : Value → Bool
  | .atom (.enumConstant owner _) => owner == Api.beanDefinition
  | _ => false

/-- Neither of the two exceptions. -/
def isPlain (v : Value) : Bool :=
  !v.isOpaque && !v.isRoleConstant

theorem not_isOpaque_of_isPlain (v : Value) (h : v.isPlain) : !v.isOpaque :=
  (Bool.and_eq_true_iff.mp h).1

theorem not_isRoleConstant_of_isPlain (v : Value) (h : v.isPlain) : !v.isRoleConstant :=
  (Bool.and_eq_true_iff.mp h).2

end Value

theorem staticField_eq {owner : ClassName} {name : String} :
    staticField owner name = (Atom.enumConstant owner name).replay.map .value := by
  rw [staticField, Atom.replay]
  split
  · cases Role.ofConstant? name <;> rfl
  · rfl

section Yields

variable {R : Machine → Machine → Prop} {call : StaticCalls} [Std.Refl R] {resolve : Resolver}
  {name : String}

/-- The expression of a value without parts evaluates to what comes back of it. -/
theorem Atom.yields_of_encode {a : Atom} {e : Expr} (ha : ¬ (Value.atom a).isOpaque)
    (h : a.encode resolve name = .ok e) : e.Yields R call (a.replay.map .value) := by
  cases a with
  | literal l =>
    have hliteral : e = .literal l := by
      cases l with
      | char c =>
        rw [Atom.encode] at h
        split at h <;> cases h
        rfl
      | _ => exact (Except.ok.inj h).symm
    rw [hliteral]
    exact .literal
  | classObject type => cases h; exact .typeLiteral
  | enumConstant owner constant =>
    cases h
    rw [← staticField_eq]
    exact .staticField
  | beanName bean => cases h; exact .beanName bean
  | beanReference r => cases h; exact .beanReference r
  | instanceOf type => exact absurd rfl ha

variable [IsTrans Machine R] (hcall : BuildsCollections call)
  {bean : Definition → Except Fault Value}

include hcall

/-- The expression of a value evaluates to what comes back of the value, when the expressions that
supply its nested definitions evaluate to what comes back of these. -/
theorem Value.yields_of_encode {keep : KeyFilter} {v : Value} {e : Expr}
    (hv : v.every keep fun w => !w.isOpaque)
    (hbean : ∀ b ∈ v.beans, ∀ e, resolve name (.bean b) = some e →
      e.Yields R call ((bean b).map .value))
    (h : v.encode resolve name = .ok e) : e.Yields R call ((v.replay bean).map .value) := by
  have hargs : ∀ {vs : List Value} {es : List Expr},
      List.Forall₂ (fun v e => e.Yields R call ((v.replay bean).map .value)) vs es →
      YieldArgs R call es ((vs.mapM (replay bean)).map (List.map .value)) := fun hvs =>
    mapM_map_eq (replay bean) Datum.value _ ▸ YieldArgs.of_forall₂ hvs
  induction v generalizing e with
  | atom a =>
    exact Atom.yields_of_encode (by simpa using hv) h
  | array c vs ih =>
    rw [encode_array] at h
    obtain ⟨es, hes, rfl⟩ := map_eq_ok_iff.mp h
    rw [replay_array, map_map_eq]
    refine .newArray (hargs (forall₂_imp_of_mem (mapM_eq_ok_iff.mp hes) fun v hmem e _ => ?_)) c
    exact ih v hmem ((every_array.mp hv).2 v hmem) fun b hb =>
      hbean b (beans_array ▸ List.mem_flatMap.mpr ⟨v, hmem, hb⟩)
  | list k vs ih =>
    rw [encode_list] at h
    obtain ⟨es, hes, rfl⟩ := map_eq_ok_iff.mp h
    rw [replay_list, map_map_eq]
    refine .listFactory (hargs (forall₂_imp_of_mem (mapM_eq_ok_iff.mp hes) fun v hmem e _ => ?_))
      hcall k
    exact ih v hmem ((every_list.mp hv).2 v hmem) fun b hb =>
      hbean b (beans_list ▸ List.mem_flatMap.mpr ⟨v, hmem, hb⟩)
  | set k vs ih =>
    rw [encode_set] at h
    obtain ⟨es, hes, rfl⟩ := map_eq_ok_iff.mp h
    rw [replay_set, map_map_eq]
    refine .setFactory (hargs (forall₂_imp_of_mem (mapM_eq_ok_iff.mp hes) fun v hmem e _ => ?_))
      hcall k
    exact ih v hmem ((every_set.mp hv).2 v hmem) fun b hb =>
      hbean b (beans_set ▸ List.mem_flatMap.mpr ⟨v, hmem, hb⟩)
  | map k es ih =>
    rw [encode_map] at h
    obtain ⟨exprs, hexprs, rfl⟩ := map_eq_ok_iff.mp h
    rw [replay_map, map_map_eq]
    refine .mapFactory hcall (mapM_map_eq (replayEntry bean) _ es ▸ YieldArgs.of_forall₂
      (forall₂_imp_of_mem (mapM_eq_ok_iff.mp hexprs) fun e hmem expr _ hexpr => ?_)) k
    obtain ⟨hkey, hvalue⟩ := (every_map.mp hv).2 e hmem
    have hentry : ∀ b, b ∈ e.1.beans ++ e.2.beans → b ∈ (Value.map k es).beans := fun b hb =>
      beans_map ▸ List.mem_flatMap.mpr ⟨e, hmem, hb⟩
    rw [encodeEntry] at hexpr
    split at hexpr
    · cases hexpr
    · obtain ⟨j, hj, hexpr⟩ := bind_eq_ok_iff.mp hexpr
      obtain ⟨x, hx, rfl⟩ := map_eq_ok_iff.mp hexpr
      have hyields := Expr.Yields.entryFactory hcall
        ((ih e hmem).1 hkey (fun b hb => hbean b (hentry b (List.mem_append_left _ hb))) hj)
        ((ih e hmem).2 hvalue (fun b hb => hbean b (hentry b (List.mem_append_right _ hb))) hx)
      rw [replayEntry]
      cases hk : e.1.replay bean <;> rw [hk] at hyields
      · exact hyields
      · rw [ok_bind, map_map_eq]
        exact hyields
  | bean d =>
    rw [encode] at h
    split at h
    · next expr hexpr =>
      cases h
      exact hbean d (List.mem_singleton.mpr rfl) _ hexpr
    · cases h

end Yields

/-! ### Values that come back as they are -/

namespace Value

/-- Well-formed plain values without nested definitions come back as they are. -/
theorem replay_of_plain {bean : Definition → Except Fault Value} {keep : KeyFilter} {v : Value}
    (hv : v.WellFormed) (hbeans : v.beans = []) (hplain : v.every keep fun w => !w.isRoleConstant) :
    v.replay bean = .ok v := by
  have hself : ∀ {vs : List Value}, (∀ v ∈ vs, v.replay bean = .ok v) →
      vs.mapM (replay bean) = .ok vs := fun h =>
    mapM_eq_ok_iff.mpr (List.forall₂_same.mpr h)
  induction v with
  | atom a =>
    cases a with
    | enumConstant owner name =>
      have howner : ¬ owner = Api.beanDefinition := by simpa [isRoleConstant] using hplain
      rw [replay_atom, Atom.replay, if_neg howner]
    | _ => rfl
  | array c vs ih =>
    rw [wellFormed_array] at hv
    rw [beans_array, List.flatMap_eq_nil_iff] at hbeans
    rw [replay_array, hself fun v h => ih v h (hv v h) (hbeans v h) ((every_array.mp hplain).2 v h),
      map_ok]
  | list k vs ih =>
    rw [wellFormed_list] at hv
    rw [beans_list, List.flatMap_eq_nil_iff] at hbeans
    rw [replay_list, hself fun v h => ih v h (hv v h) (hbeans v h) ((every_list.mp hplain).2 v h),
      map_ok]
  | set k vs ih =>
    rw [wellFormed_set] at hv
    rw [beans_set, List.flatMap_eq_nil_iff] at hbeans
    rw [replay_set, hself fun v h => ih v h (hv.2 v h) (hbeans v h) ((every_set.mp hplain).2 v h),
      map_ok, ValueSet.ofList, Distinct.ofList_eq_self hv.1]
  | map k es ih =>
    rw [wellFormed_map] at hv
    rw [beans_map, List.flatMap_eq_nil_iff] at hbeans
    have hentries : es.mapM (replayEntry bean) = .ok es := by
      refine mapM_eq_ok_iff.mpr (List.forall₂_same.mpr fun e h => ?_)
      obtain ⟨hkey, hvalue⟩ := (every_map.mp hplain).2 e h
      obtain ⟨hj, hw⟩ := List.append_eq_nil_iff.mp (hbeans e h)
      rw [replayEntry, (ih e h).1 (hv.2 e h).1 hj hkey, (ih e h).2 (hv.2 e h).2 hw hvalue, ok_bind,
        map_ok]
    rw [replay_map, hentries, map_ok, ValueMap.ofList, Table.ofList_eq_self hv.1]
  | bean d => cases hbeans

/-- No role constant comes back as such. -/
theorem every_of_replay {bean : Definition → Except Fault Value} {keep : KeyFilter} {v w : Value}
    (hbeans : v.beans = []) (h : v.replay bean = .ok w) :
    w.every keep fun x => !x.isRoleConstant := by
  have hmem : ∀ {vs ws : List Value}, (∀ v ∈ vs, ∀ w, v.replay bean = .ok w →
      w.every keep fun x => !x.isRoleConstant) → vs.mapM (replay bean) = .ok ws →
      ∀ w ∈ ws, w.every keep fun x => !x.isRoleConstant := by
    intro vs ws hvs hws w hw
    obtain ⟨v, hv, hvw⟩ := exists_of_mapM_eq_ok hws hw
    exact hvs v hv w hvw
  induction v generalizing w with
  | atom a =>
    cases a with
    | enumConstant owner name =>
      rw [replay_atom, Atom.replay] at h
      split at h
      · split at h <;> cases h
        rfl
      · next howner =>
        cases h
        simpa [isRoleConstant] using howner
    | _ => cases h; rfl
  | array c vs ih =>
    rw [beans_array, List.flatMap_eq_nil_iff] at hbeans
    rw [replay_array] at h
    obtain ⟨ws, hws, rfl⟩ := map_eq_ok_iff.mp h
    exact every_array.mpr ⟨rfl, hmem (fun v hv w => ih v hv (hbeans v hv)) hws⟩
  | list k vs ih =>
    rw [beans_list, List.flatMap_eq_nil_iff] at hbeans
    rw [replay_list] at h
    obtain ⟨ws, hws, rfl⟩ := map_eq_ok_iff.mp h
    exact every_list.mpr ⟨rfl, hmem (fun v hv w => ih v hv (hbeans v hv)) hws⟩
  | set k vs ih =>
    rw [beans_set, List.flatMap_eq_nil_iff] at hbeans
    rw [replay_set] at h
    obtain ⟨ws, hws, rfl⟩ := map_eq_ok_iff.mp h
    exact every_set.mpr ⟨rfl, fun w hw => hmem (fun v hv w => ih v hv (hbeans v hv)) hws w
      (Distinct.mem_of_mem_ofList hw)⟩
  | map k es ih =>
    rw [beans_map, List.flatMap_eq_nil_iff] at hbeans
    rw [replay_map] at h
    obtain ⟨fs, hfs, rfl⟩ := map_eq_ok_iff.mp h
    have hentries : ∀ f ∈ fs, (f.1.every keep fun x => !x.isRoleConstant) ∧
        f.2.every keep fun x => !x.isRoleConstant := by
      intro f hf
      obtain ⟨e, he, hef⟩ := exists_of_mapM_eq_ok hfs hf
      obtain ⟨hj, hw⟩ := List.append_eq_nil_iff.mp (hbeans e he)
      obtain ⟨k, hk, hef⟩ := bind_eq_ok_iff.mp hef
      obtain ⟨x, hx, rfl⟩ := map_eq_ok_iff.mp hef
      exact ⟨(ih e he).1 hj hk, (ih e he).2 hw hx⟩
    refine every_map.mpr ⟨rfl, fun e he => ?_⟩
    obtain ⟨hkey, hvalue⟩ := Table.mem_ofList he
    obtain ⟨f, hf, hfe⟩ := List.mem_map.mp hkey
    obtain ⟨g, hg, hge⟩ := List.mem_map.mp hvalue
    exact ⟨hfe ▸ (hentries f hf).1, hge ▸ (hentries g hg).2⟩
  | bean d => cases hbeans

/-- A written value is read back as it is, by any machine and without a change to it, exactly if it
contains no role constant. Whatever comes back, the machine does not change. -/
theorem eval_encode_iff {v : Value} (hv : v.WellFormed) (hbeans : v.beans = [])
    (hwritten : v.every .all fun w => !w.isOpaque) {resolve : Resolver} {name : String} {e : Expr}
    (h : v.encode resolve name = .ok e) (methods : Methods) (m : Machine) :
    (Replay.eval methods e m = (.ok (.value v), m) ↔ v.every .all fun w => !w.isRoleConstant) ∧
      ∀ d m', Replay.eval methods e m = (.ok d, m') → m' = m := by
  -- nothing is nested in the value, so it does not matter what nested definitions come back as
  have hyields : e.Yields Eq (staticCallsAt methods m.callers.length)
      ((v.replay fun d => .ok (.bean d)).map .value) :=
    yields_of_encode (buildsCollections_staticCall _ _) hwritten (by simp [hbeans]) h
  obtain ⟨x, m', heval, hx, hm⟩ := hyields m
  have hrun : Replay.eval methods e m = (x, m') := by
    rw [Replay.eval, Replay.bind_run, Replay.get_run]
    exact heval
  rw [hrun]
  refine ⟨⟨fun hback => ?_, fun hplain => ?_⟩, fun d m'' hback => ?_⟩
  · cases hback
    obtain ⟨w, hw, hwv⟩ := map_eq_ok_iff.mp hx.symm
    cases hwv
    exact every_of_replay hbeans hw
  · rw [replay_of_plain hv hbeans hplain, map_ok] at hx hm
    obtain ⟨d, rfl, hd⟩ := map_eq_ok_iff.mp hx
    rw [← hm ⟨_, rfl⟩]
    -- only a definition is handed over as something else, and the value is not one
    cases d with
    | definition id =>
      cases hd
      cases hbeans
    | _ => rw [← hd]; rfl
  · cases hback
    exact (hm ⟨_, hx.symm⟩).symm

/-- A set of a list and a reference, read back. -/
theorem eval_encode_set :
    Replay.eval []
        ((Api.Factory.set .managed).call [(Api.Factory.list .plain).call [.int 7],
          Api.Constructor.beanReference.call [.string "clock", .bool true]]) {}
      = (.ok (.value (.set .managed [.list .plain [.literal (.int 7)],
          .atom (.beanReference { name := "clock", inParent := true })])), {}) :=
  (eval_encode_iff (by decide) rfl rfl
    (show Value.encode .empty "times" _ = .ok _ from rfl) [] {}).1.mpr rfl

/-- A role constant is written down, but comes back as a number. -/
theorem eval_encode_roleConstant :
    ∃ (v w : Value) (e : Expr), v.WellFormed ∧ v.beans = [] ∧ (v.every .all fun w => !w.isOpaque) ∧
      v.encode .empty "role" = .ok e ∧ Replay.eval [] e {} = (.ok (.value w), {}) ∧ ¬ w == v :=
  ⟨.atom (.enumConstant Api.beanDefinition "ROLE_SUPPORT"), .literal (.int 1),
    .staticField Api.beanDefinition "ROLE_SUPPORT", by decide, rfl, rfl, rfl, rfl, by decide⟩

end Value

end BeanScript
