import BeanScript.Proofs.Pointwise
import BeanScript.Replay.Run
import BeanScript.Script.Statements
import Mathlib.Order.Defs.Unbundled

/-!
# What expressions evaluate to

An expression *yields* a result when evaluating it gives this result on every machine, in the form
in which it is handed to a call. What evaluation may do to the machine meanwhile is a parameter, a
preorder on machines: nothing at all for expressions without calls of generated methods, and the
creation of objects for the others.

## Main definitions

* `Expr.Yields`, `YieldArgs` — the result of an expression, and of arguments in turn

## Main results

* `YieldArgs.of_forall₂` — arguments in turn, from the arguments one by one
* `Expr.Yields.factory` — a factory call, from its arguments
-/

namespace BeanScript

/-! ### Reading arguments -/

namespace Arguments

theorem datum_eq_ok {args : Arguments} {i : Nat} (h : i < args.data.length) :
    args.datum i = .ok args.data[i] := by
  rw [datum, List.getElem?_eq_getElem h]

/-- All arguments can be read when each of them can. -/
theorem all_eq_ok {α : Type} {args : Arguments} {read : Arguments → Nat → Except Fault α}
    {xs : List α} (hlength : args.data.length = xs.length)
    (h : ∀ (i : Nat) (hi : i < xs.length), read args i = .ok xs[i]) :
    args.all read = .ok xs := by
  rw [all, mapM_eq_ok_iff, List.forall₂_iff_get]
  refine ⟨by simpa using hlength, fun i hi hi' => ?_⟩
  simpa using h i hi'

theorem all_value {method : String} {vs : List Value} :
    (Arguments.mk method (vs.map .value)).all value = .ok vs := by
  refine all_eq_ok (by simp) fun i hi => ?_
  rw [value, datum_eq_ok (by simpa using hi)]
  simp

theorem all_string {method : String} {ss : List String} :
    (Arguments.mk method (ss.map fun s => .value (.string s))).all string = .ok ss := by
  refine all_eq_ok (by simp) fun i hi => ?_
  rw [string, datum_eq_ok (by simpa using hi)]
  simp [Value.string, Value.literal]

theorem all_entry {method : String} {es : List (Value × Value)} :
    (Arguments.mk method (es.map fun e => .entry e.1 e.2)).all entry = .ok es := by
  refine all_eq_ok (by simp) fun i hi => ?_
  rw [entry, datum_eq_ok (by simpa using hi)]
  simp

end Arguments

/-! ### Results of expressions -/

/-- Static calls of the factories build collections and map entries. -/
def BuildsCollections (call : StaticCalls) : Prop :=
  ∀ (f : Api.Factory) (data : List Datum),
    call f.owner f.name data = Replay.ofExcept (f.build { method := f.name, data })

theorem buildsCollections_staticCall (methods : Methods)
    (run : ClassName → String → Block → Replay Datum) :
    BuildsCollections (staticCall methods run) := by
  intro f data
  simp only [staticCall, Api.Factory.of?_owner_name]

/-- No factory makes an object that is held by reference. -/
theorem map_toArgument_build (f : Api.Factory) (args : Arguments) (m : Machine) :
    (f.build args).map m.toArgument = f.build args := by
  cases f <;> simp only [Api.Factory.build, pure_eq_ok, ← map_eq_bind]
  · cases args.all Arguments.value <;> rfl
  · cases args.all Arguments.value <;> rfl
  · cases args.all Arguments.entry <;> rfl
  · cases args.expect 2 <;> cases args.value 0 <;> cases args.value 1 <;> rfl

/-- Evaluating the expression gives the result `r`, as it is handed to a call. Unless it fails, the
machine afterwards is one that `R` admits. -/
def Expr.Yields (R : Machine → Machine → Prop) (call : StaticCalls) (e : Expr)
    (r : Except Fault Datum) : Prop :=
  ∀ m, ∃ x m', e.eval call m = (x, m') ∧ x.map m'.toArgument = r ∧ ((∃ d, r = .ok d) → R m m')

/-- Evaluating the arguments in turn gives the result `r`. Unless it fails, the machine afterwards
is one that `R` admits. -/
def YieldArgs (R : Machine → Machine → Prop) (call : StaticCalls) (es : List Expr)
    (r : Except Fault (List Datum)) : Prop :=
  ∀ m, ∃ m', evalArgs call es m = (r, m') ∧ ((∃ ds, r = .ok ds) → R m m')

variable {R : Machine → Machine → Prop} {call : StaticCalls}

theorem YieldArgs.nil [Std.Refl R] : YieldArgs R call [] (.ok []) := fun m =>
  ⟨m, rfl, fun _ => Std.Refl.refl m⟩

/-- The first argument is turned into what a call gets on the machine that it leaves. -/
theorem YieldArgs.cons [IsTrans Machine R] {e : Expr} {es : List Expr} {r : Except Fault Datum}
    {rs : Except Fault (List Datum)} (he : e.Yields R call r) (hes : YieldArgs R call es rs) :
    YieldArgs R call (e :: es) (r >>= fun d => rs.map (d :: ·)) := by
  intro m
  obtain ⟨x, m', heval, rfl, hR⟩ := he m
  cases x with
  | error fault =>
    refine ⟨m', ?_, fun ⟨ds, hds⟩ => by cases hds⟩
    rw [evalArgs, Replay.bind_run, heval]
    rfl
  | ok d =>
    obtain ⟨m'', hargs, hR'⟩ := hes m'
    refine ⟨m'', ?_, fun ⟨ds, hds⟩ => ?_⟩
    · rw [evalArgs, Replay.bind_run, heval]
      simp only [Replay.bind_run, Replay.get_run, hargs]
      cases rs <;> rfl
    · obtain ⟨ds', hds', -⟩ := map_eq_ok_iff.mp hds
      exact Trans.trans (hR ⟨_, rfl⟩) (hR' ⟨ds', hds'⟩)

/-- Arguments in turn give the results of the arguments one by one, up to the first fault. -/
theorem YieldArgs.of_forall₂ [Std.Refl R] [IsTrans Machine R] {α : Type}
    {f : α → Except Fault Datum} {as : List α} {es : List Expr}
    (h : List.Forall₂ (fun a e => e.Yields R call (f a)) as es) :
    YieldArgs R call es (as.mapM f) := by
  induction h with
  | nil => exact .nil
  | cons he _ ih =>
    rw [mapM_cons_eq]
    exact ih.cons he

namespace Expr.Yields

/-- An expression that leaves the machine alone. -/
theorem of_eval [Std.Refl R] {e : Expr} {x : Except Fault Datum} (h : ∀ m, e.eval call m = (x, m))
    (hx : ∀ id, x ≠ .ok (.definition id)) : e.Yields R call x := by
  intro m
  refine ⟨x, m, h m, ?_, fun _ => Std.Refl.refl m⟩
  cases x with
  | error fault => rfl
  | ok d =>
    cases d with
    | definition id => exact absurd rfl (hx id)
    | _ => rfl

theorem literal [Std.Refl R] {l : Literal} :
    (Expr.literal l).Yields R call (.ok (.value (.literal l))) :=
  of_eval (fun _ => rfl) fun _ h => by cases h

theorem typeLiteral [Std.Refl R] {type : ClassName} :
    (Expr.typeLiteral type).Yields R call (.ok (.value (.atom (.classObject type)))) :=
  of_eval (fun _ => rfl) fun _ h => by cases h

theorem staticField [Std.Refl R] {owner : ClassName} {name : String} :
    (Expr.staticField owner name).Yields R call (BeanScript.staticField owner name) := by
  refine of_eval (fun _ => rfl) fun id h => ?_
  unfold BeanScript.staticField at h
  split at h
  · split at h <;> cases h
  · cases h

/-- The call of a factory, from its arguments: a factory makes a value or a map entry. -/
theorem factory (hcall : BuildsCollections call) {f : Api.Factory} {es : List Expr}
    {r : Except Fault (List Datum)} (h : YieldArgs R call es r) :
    (f.call es).Yields R call (r >>= fun data => f.build { method := f.name, data }) := by
  intro m
  obtain ⟨m', hargs, hR⟩ := h m
  have heval : (f.call es).eval call m
      = (r >>= fun data => f.build { method := f.name, data }, m') := by
    rw [Api.Factory.call, Expr.eval, Replay.bind_run, hargs]
    cases r with
    | error fault => rfl
    | ok data => exact congrFun (hcall f data) m'
  refine ⟨_, m', heval, ?_, fun ⟨d, hd⟩ => ?_⟩
  · cases r with
    | error fault => rfl
    | ok data => exact map_toArgument_build f _ m'
  · obtain ⟨data, hdata, -⟩ := bind_eq_ok_iff.mp hd
    exact hR ⟨data, hdata⟩

/-- A construction that makes no object held by reference, from its arguments. -/
theorem construct {k : Api.Constructor} {es : List Expr} {r : Except Fault (List Datum)}
    (make : List Datum → Except Fault Datum) (h : YieldArgs R call es r)
    (hmake : ∀ data m, BeanScript.construct k.type data m = (make data, m))
    (hvalue : ∀ data id, make data ≠ .ok (.definition id)) :
    (k.call es).Yields R call (r >>= make) := by
  intro m
  obtain ⟨m', hargs, hR⟩ := h m
  have heval : (k.call es).eval call m = (r >>= make, m') := by
    rw [Api.Constructor.call, Expr.eval, Replay.bind_run, hargs]
    cases r with
    | error fault => rfl
    | ok data => exact hmake data m'
  refine ⟨_, m', heval, ?_, fun ⟨d, hd⟩ => ?_⟩
  · cases r with
    | error fault => rfl
    | ok data =>
      rw [ok_bind]
      cases hd : make data with
      | error fault => rfl
      | ok d =>
        cases d with
        | definition id => exact absurd hd (hvalue data id)
        | _ => rfl
  · obtain ⟨data, hdata, -⟩ := bind_eq_ok_iff.mp hd
    exact hR ⟨data, hdata⟩

section Values

variable {es : List Expr} {vs : Except Fault (List Value)}
  (h : YieldArgs R call es (vs.map (List.map .value)))

include h

theorem newArray (c : ClassName) :
    (Expr.newArray c es).Yields R call (vs.map fun vs => .value (.array c vs)) := by
  intro m
  obtain ⟨m', hargs, hR⟩ := h m
  refine ⟨vs.map fun vs => .value (.array c vs), m', ?_, ?_, fun ⟨d, hd⟩ => ?_⟩
  · rw [Expr.eval, Replay.bind_run, hargs]
    cases vs with
    | error fault => rfl
    | ok vs =>
      simp only [map_ok, Replay.bind_run, Replay.ofExcept_run, Arguments.all_value]
      rfl
  · cases vs <;> rfl
  · obtain ⟨ws, hws, -⟩ := map_eq_ok_iff.mp hd
    exact hR ⟨ws.map .value, by rw [hws, map_ok]⟩

theorem listFactory (hcall : BuildsCollections call) (k : Kind) :
    ((Api.Factory.list k).call es).Yields R call (vs.map fun vs => .value (.list k vs)) := by
  have hbuild := factory (f := .list k) hcall h
  cases vs <;> simpa [Api.Factory.build, Arguments.all_value] using hbuild

theorem setFactory (hcall : BuildsCollections call) (k : Kind) :
    ((Api.Factory.set k).call es).Yields R call
      (vs.map fun vs => .value (.set k (ValueSet.ofList vs))) := by
  have hbuild := factory (f := .set k) hcall h
  cases vs <;> simpa [Api.Factory.build, Arguments.all_value] using hbuild

end Values

theorem mapFactory (hcall : BuildsCollections call) {es : List Expr}
    {entries : Except Fault (List (Value × Value))}
    (h : YieldArgs R call es (entries.map (List.map fun e => .entry e.1 e.2))) (k : Kind) :
    ((Api.Factory.map k).call es).Yields R call
      (entries.map fun es => .value (.map k (ValueMap.ofList es))) := by
  have hbuild := factory (f := .map k) hcall h
  cases entries <;> simpa [Api.Factory.build, Arguments.all_entry] using hbuild

theorem entryFactory [Std.Refl R] [IsTrans Machine R] (hcall : BuildsCollections call)
    {j e : Expr} {key v : Except Fault Value} (hj : j.Yields R call (key.map .value))
    (he : e.Yields R call (v.map .value)) :
    (Api.Factory.entry.call [j, e]).Yields R call
      (key >>= fun key => v.map fun v => .entry key v) := by
  have hbuild := factory (f := .entry) hcall (YieldArgs.cons hj (YieldArgs.cons he .nil))
  cases key <;> cases v <;> exact hbuild

/-! The constructions that stand for plain values. -/

theorem beanName [Std.Refl R] (name : String) :
    (Api.Constructor.beanNameReference.call [.string name]).Yields R call
      (.ok (.value (.atom (.beanName name)))) := by
  intro m
  exact ⟨_, m, rfl, rfl, fun _ => Std.Refl.refl m⟩

/-- The shortest construction of a reference makes this reference. -/
theorem beanReference [Std.Refl R] (r : BeanReference) :
    r.encode.Yields R call (.ok (.value (.atom (.beanReference r)))) := by
  obtain ⟨name, type, inParent⟩ := r
  intro m
  refine ⟨.ok (.value (.atom (.beanReference ⟨name, type, inParent⟩))), m, ?_, rfl,
    fun _ => Std.Refl.refl m⟩
  cases type with
  | none => cases inParent <;> rfl
  | some type =>
    by_cases hname : type.text = name
    · subst hname
      simp only [BeanReference.encode, if_true]
      cases inParent <;> rfl
    · simp only [BeanReference.encode, if_neg hname]
      cases inParent <;> rfl

/-- The construction of an argument with its hints. -/
theorem holder [Std.Refl R] [IsTrans Machine R] {e : Expr} {v : Except Fault Value}
    (h : e.Yields R call (v.map .value)) (t n : Option String) :
    (Api.Constructor.holder.call
        [e, Script.Context.optional t, Script.Context.optional n]).Yields R call
      (v.map fun v => .holder { value := v, typeName := t, name := n }) := by
  have hoptional : ∀ s : Option String, (Script.Context.optional s).Yields R call
      (.ok (.value (.literal (s.elim .null .string)))) := by
    intro s
    cases s <;> exact literal
  have hargs := YieldArgs.cons h (YieldArgs.cons (hoptional t) (YieldArgs.cons (hoptional n) .nil))
  have hmake := construct (k := .holder)
    (fun data => (newHolder { method := Api.Constructor.holder.type.text, data }).map .holder)
    hargs (fun data m => ?_) (fun data id hid => ?_)
  · cases v <;> cases t <;> cases n <;> exact hmake
  · simp only [BeanScript.construct, Api.Constructor.ofType?_type, Replay.bind_run,
      Replay.ofExcept_run]
    cases newHolder { method := Api.Constructor.holder.type.text, data } <;> rfl
  · obtain ⟨_, -, hid⟩ := map_eq_ok_iff.mp hid
    cases hid

end Expr.Yields

end BeanScript
