import BeanScript.Proofs.Pointwise
import BeanScript.Proofs.Table
import BeanScript.Replay.Steps

/-!
# References stay in bounds

Objects are created and changed, but none ever goes, and nothing makes a reference but the creation
of its object. So a step that begins with references to objects which are there ends with such
references: in the variables, in those that are set aside for a call, among the arguments evaluated
so far, and in a result on its way.

Soundness of a state is this, and that the variables set aside are those of the calls in progress,
of which there are at most 64. Every step preserves it, hence every run, and a sound state has a
next one unless the run is at its end: no reference that has to be used is dangling.

## Main definitions

* `Machine.Retains` — all objects are still there
* `Replay.Supplies` — a computation that touches no variable and answers with no dangling reference
* `Machine.Sound`, `State.Sound` — the invariant; `State.SoundAfter` — with all objects retained

## Main results

* `construct_supplies`, `callOn_supplies` — creating and calling objects
* `State.Sound.next?`, `State.Sound.reaches` — the invariant along steps and runs
* `State.Sound.progress` — a sound state is final or has a next one
-/

namespace BeanScript

variable {m m' : Machine} {methods : Methods} {s t : State}

/-! ### Objects -/

/-- Every object that was there still is. -/
def Machine.Retains (m m' : Machine) : Prop :=
  ∀ object, m.Has object → m'.Has object

theorem Machine.Retains.refl (m : Machine) : m.Retains m := fun _ h => h

theorem Machine.Retains.of_length (hd : m.definitions.length ≤ m'.definitions.length)
    (hq : m.qualifiers.length ≤ m'.qualifiers.length) : m.Retains m'
  | .definition _, h => Nat.lt_of_lt_of_le h hd
  | .qualifier _, h => Nat.lt_of_lt_of_le h hq

namespace Machine

theorem retains_addDefinition (m : Machine) (d : Definition) : m.Retains (m.addDefinition d).2 :=
  .of_length (List.prefix_append _ _).length_le (Nat.le_refl _)

theorem has_addDefinition (m : Machine) (d : Definition) :
    (m.addDefinition d).2.Has (.definition (m.addDefinition d).1) := by
  simp [addDefinition, Has]

theorem retains_addQualifier (m : Machine) (q : Qualifier) : m.Retains (m.addQualifier q).2 :=
  .of_length (Nat.le_refl _) (List.prefix_append _ _).length_le

theorem has_addQualifier (m : Machine) (q : Qualifier) :
    (m.addQualifier q).2.Has (.qualifier (m.addQualifier q).1) := by
  simp [addQualifier, Has]

/-- The definition behind a reference is there. -/
theorem getElem?_definition {id : DefinitionRef} (h : m.Has (.definition id)) :
    m.definitions[id.index]? = some (m.definition id) := by
  have hid : id.index < m.definitions.length := h
  rw [definition, List.getElem?_eq_getElem hid]
  rfl

theorem retains_change (m : Machine) (change : Change) : m.Retains (m.change change) := by
  cases change <;> exact .of_length (by simp [change]) (by simp [change])

end Machine

theorem Datum.InBounds.retains {datum : Datum} (h : datum.InBounds m) (hm : m.Retains m') :
    datum.InBounds m' := fun object hobject => hm object (h object hobject)

theorem Datum.InBounds.of_none {datum : Datum} (h : datum.object? = none) : datum.InBounds m := by
  intro object hobject
  rw [h] at hobject
  cases hobject

theorem Datum.InBounds.of_some {datum : Datum} {object : Object}
    (h : datum.object? = some object) (hm : m.Has object) : datum.InBounds m := by
  intro object' hobject
  rw [h] at hobject
  cases hobject
  exact hm

/-- What is handed over as an argument refers to no definition. -/
theorem Datum.InBounds.toArgument {datum : Datum} (h : datum.InBounds m) :
    (m.toArgument datum).InBounds m := by
  cases datum with
  | definition id => exact .of_none rfl
  | _ => exact h

/-! ### Variables -/

theorem Scopes.mem_data_of_lookUp? {scopes : Scopes} {name : String} {datum : Datum}
    (h : scopes.lookUp? name = some datum) : datum ∈ scopes.data := by
  obtain ⟨scope, hscope, hget⟩ := List.exists_of_findSome?_eq_some h
  exact List.mem_flatMap.mpr ⟨scope, hscope, List.mem_map.mpr ⟨_, Table.mem_of_get? hget, rfl⟩⟩

theorem Scopes.mem_data_define {scopes : Scopes} {name : String} {datum d : Datum}
    (h : d ∈ (scopes.define name datum).data) : d ∈ scopes.data ∨ d = datum := by
  obtain ⟨scope, hscope, hd⟩ := List.mem_flatMap.mp h
  obtain ⟨e, he, rfl⟩ := List.mem_map.mp hd
  rcases List.mem_cons.mp hscope with rfl | hscope
  · exact (Table.mem_put he).2.imp_left fun h' =>
      List.mem_flatMap.mpr ⟨_, List.mem_cons_self, h'⟩
  · exact .inl (List.mem_flatMap.mpr ⟨scope, List.mem_cons_of_mem _ hscope, hd⟩)

/-- Closing a scope leaves no new variables. -/
theorem Scopes.mem_data_of_leave {scopes : Scopes} {d : Datum} (h : d ∈ scopes.leave.data) :
    d ∈ scopes.data := by
  obtain ⟨inner, _ | ⟨scope, rest⟩⟩ := scopes
  · exact h
  · exact List.mem_append_right _ h

/-! ### Computations -/

/-- A computation touches no variable and keeps all objects, and a result of it refers to an object
that is there. -/
structure Replay.Supplies (c : Replay Datum) (m : Machine) : Prop where
  scopes : (c m).2.scopes = m.scopes
  callers : (c m).2.callers = m.callers
  retains : m.Retains (c m).2
  inBounds : ∀ datum, (c m).1 = .ok datum → datum.InBounds (c m).2

namespace Replay.Supplies

theorem of_run {c : Replay Datum} {r : Except Fault Datum} (h : c m = (r, m'))
    (hscopes : m'.scopes = m.scopes) (hcallers : m'.callers = m.callers) (hm : m.Retains m')
    (hr : ∀ datum, r = .ok datum → datum.InBounds m') : c.Supplies m := by
  constructor <;> rw [h] <;> assumption

theorem throw (f : Fault) : Supplies (MonadExcept.throw f) m :=
  ⟨rfl, rfl, .refl m, fun _ h => by cases h⟩

theorem pure {datum : Datum} (h : datum.InBounds m) : Supplies (Pure.pure datum) m :=
  ⟨rfl, rfl, .refl m, fun _ h' => by cases h'; exact h⟩

theorem bind_ofExcept {α : Type} {r : Except Fault α} {next : α → Replay Datum}
    (h : ∀ a, r = .ok a → Supplies (next a) m) : Supplies (Replay.ofExcept r >>= next) m := by
  cases r with
  | error f => exact throw f
  | ok a => exact h a rfl

end Replay.Supplies

theorem construct_supplies (type : ClassName) (data : List Datum) (m : Machine) :
    (construct type data).Supplies m := by
  rw [construct]
  cases Api.Constructor.ofType? type with
  | none => exact .throw _
  | some constructor =>
    cases constructor with
    | beanNameReference =>
      exact .bind_ofExcept fun _ _ => .bind_ofExcept fun _ _ => .pure (.of_none rfl)
    | beanReference => exact .bind_ofExcept fun _ _ => .pure (.of_none rfl)
    | qualifier =>
      refine .bind_ofExcept fun q _ => ⟨rfl, rfl, m.retains_addQualifier q, fun datum h => ?_⟩
      cases h
      exact .of_some rfl (m.has_addQualifier q)
    | holder => exact .bind_ofExcept fun _ _ => .pure (.of_none rfl)
    | definition =>
      refine .bind_ofExcept fun d _ => ⟨rfl, rfl, m.retains_addDefinition d, fun datum h => ?_⟩
      cases h
      exact .of_some rfl (m.has_addDefinition d)

/-- Where a call has an outcome, its answer refers to the object of the call or to none. -/
def AnswersWithin (receiver : Datum) (r : Except Fault Outcome) : Prop :=
  ∀ outcome, r = .ok outcome → ∀ object ∈ outcome.answer.object?, object ∈ receiver.object?

namespace AnswersWithin

variable {receiver : Datum}

theorem error (f : Fault) : AnswersWithin receiver (.error f) := fun _ h => by cases h

theorem ok {outcome : Outcome}
    (h : ∀ object ∈ outcome.answer.object?, object ∈ receiver.object?) :
    AnswersWithin receiver (.ok outcome) := fun _ h' => by cases h'; exact h

theorem bind {α : Type} {r : Except Fault α} {next : α → Except Fault Outcome}
    (h : ∀ a, AnswersWithin receiver (next a)) : AnswersWithin receiver (r >>= next) := by
  intro outcome houtcome
  obtain ⟨a, -, ha⟩ := bind_eq_ok_iff.mp houtcome
  exact h a outcome ha

end AnswersWithin

theorem callDefinition_answersWithin (m : Machine) (id : DefinitionRef)
    (method : Api.DefinitionMethod) (args : Arguments) :
    AnswersWithin (.definition id) (callDefinition m id method args) := by
  unfold callDefinition
  split
  · exact .bind fun edit => .ok nofun
  · exact .bind fun _ => .ok fun _ h => h
  · exact .bind fun _ => .ok fun _ h => h
  · refine .bind fun _ => .bind fun datum => ?_
    cases datum with
    | qualifier q => exact .ok nofun
    | _ => exact .error _

theorem instanceCall_answersWithin (m : Machine) (receiver : Datum) (name : String)
    (data : List Datum) : AnswersWithin receiver (instanceCall m receiver name data) := by
  unfold instanceCall
  split
  · split
    · exact callDefinition_answersWithin m _ _ _
    · exact .error _
  · split
    · exact .bind fun _ => .bind fun _ => .bind fun _ => .ok fun _ h => h
    · exact .error _
  · split
    · next method _ =>
      cases method with
      | addIndexedArgumentValue =>
        exact .bind fun _ => .bind fun _ => .bind fun _ => .ok nofun
      | addGenericArgumentValue => exact .bind fun _ => .bind fun _ => .ok nofun
    · exact .error _
  · split
    · exact .bind fun _ => .bind fun _ => .bind fun _ => .ok nofun
    · exact .error _
  · exact .error _

theorem callOn_supplies {receiver : Datum} (h : receiver.InBounds m) (name : String)
    (data : List Datum) : (callOn receiver name data).Supplies m := by
  cases hcall : instanceCall m receiver name data with
  | error f =>
    have hrun : callOn receiver name data m = (.error f, m) := by
      simp only [callOn, Replay.bind_run, Replay.get_run, Replay.ofExcept_run, hcall]
    exact .of_run hrun rfl rfl (.refl m) fun _ h' => by cases h'
  | ok outcome =>
    have hanswer : outcome.answer.InBounds m := fun object hobject =>
      h object (instanceCall_answersWithin m receiver name data outcome hcall object hobject)
    cases hchange : outcome.change with
    | none =>
      have hrun : callOn receiver name data m = (.ok outcome.answer, m) := by
        simp only [callOn, Replay.bind_run, Replay.get_run, Replay.ofExcept_run, hcall, hchange,
          Replay.pure_run]
      exact .of_run hrun rfl rfl (.refl m) fun _ h' => by cases h'; exact hanswer
    | some change =>
      have hrun : callOn receiver name data m = (.ok outcome.answer, m.change change) := by
        simp only [callOn, Replay.bind_run, Replay.get_run, Replay.ofExcept_run, hcall, hchange,
          Replay.modify_run, Replay.pure_run]
      refine .of_run hrun ?_ ?_ (m.retains_change change) fun _ h' => ?_
      · cases change <;> rfl
      · cases change <;> rfl
      · cases h'
        exact hanswer.retains (m.retains_change change)

theorem ofExcept_supplies {r : Except Fault Datum}
    (h : ∀ datum, r = .ok datum → datum.object? = none) (m : Machine) :
    (Replay.ofExcept r).Supplies m :=
  ⟨rfl, rfl, .refl m, fun datum hdatum => .of_none (h datum hdatum)⟩

theorem object?_staticField {owner : ClassName} {name : String} {datum : Datum}
    (h : staticField owner name = .ok datum) : datum.object? = none := by
  unfold staticField at h
  split at h
  · split at h <;> cases h
    rfl
  · cases h
    rfl

theorem Api.Factory.object?_build {factory : Api.Factory} {args : Arguments} {datum : Datum}
    (h : factory.build args = .ok datum) : datum.object? = none := by
  cases factory with
  | entry =>
    obtain ⟨_, -, h⟩ := bind_eq_ok_iff.mp h
    obtain ⟨key, -, h⟩ := bind_eq_ok_iff.mp h
    obtain ⟨v, -, h⟩ := bind_eq_ok_iff.mp h
    cases h
    rfl
  | _ =>
    obtain ⟨_, -, h⟩ := bind_eq_ok_iff.mp h
    cases h
    rfl

/-! ### Sound states -/

/-- A machine on which the variables of the calls in progress are set aside, not too many, and every
object is there that a variable or other data refer to. -/
structure Machine.Sound (m : Machine) (saved : List Scopes) (held : List Datum) : Prop where
  callers : m.callers = saved
  calls : saved.length ≤ maxCalls
  held : ∀ datum ∈ held, datum.InBounds m
  inScope : ∀ datum ∈ m.data, datum.InBounds m

/-- A state in which the machine is as the calls in progress have it, and every object is there that
the data refer to. -/
def State.Sound (s : State) : Prop :=
  s.machine.Sound s.callers s.held

theorem State.Sound.inBounds (h : s.Sound) : ∀ datum ∈ s.data, datum.InBounds s.machine :=
  fun datum hdatum => (List.mem_append.mp hdatum).elim (h.held datum) (h.inScope datum)

namespace Machine.Sound

variable {saved : List Scopes} {held held' : List Datum}

theorem mono (h : m.Sound saved held) (hsub : held' ⊆ held) : m.Sound saved held' :=
  ⟨h.callers, h.calls, fun datum hdatum => h.held datum (hsub hdatum), h.inScope⟩

theorem cons (h : m.Sound saved held) {datum : Datum} (hdatum : datum.InBounds m) :
    m.Sound saved (datum :: held) :=
  ⟨h.callers, h.calls, List.forall_mem_cons.mpr ⟨hdatum, h.held⟩, h.inScope⟩

/-- Further objects do no harm. -/
theorem retains (h : m.Sound saved held) (hscopes : m'.scopes = m.scopes)
    (hcallers : m'.callers = m.callers) (hm : m.Retains m') : m'.Sound saved held where
  callers := hcallers.trans h.callers
  calls := h.calls
  held datum hdatum := (h.held datum hdatum).retains hm
  inScope datum hdatum := by
    rw [Machine.data, hscopes, hcallers] at hdatum
    exact (h.inScope datum hdatum).retains hm

theorem define (h : m.Sound saved held) {datum : Datum} (hdatum : datum.InBounds m)
    (name : String) : (m.define name datum).Sound saved held where
  callers := h.callers
  calls := h.calls
  held := h.held
  inScope d hd := by
    rcases List.mem_append.mp hd with hd | hd
    · rcases Scopes.mem_data_define hd with hd | rfl
      · exact h.inScope d (List.mem_append_left _ hd)
      · exact hdatum
    · exact h.inScope d (List.mem_append_right _ hd)

theorem enterScope (h : m.Sound saved held) : m.enterScope.Sound saved held :=
  ⟨h.callers, h.calls, h.held, h.inScope⟩

theorem leaveScope (h : m.Sound saved held) : m.leaveScope.Sound saved held where
  callers := h.callers
  calls := h.calls
  held := h.held
  inScope d hd :=
    h.inScope d (List.mem_append.mpr ((List.mem_append.mp hd).imp_left Scopes.mem_data_of_leave))

theorem enterCall (h : m.Sound saved held) (hcalls : saved.length < maxCalls) :
    m.enterCall.Sound (m.scopes :: saved) (m.scopes.data ++ held) where
  callers := congrArg (m.scopes :: ·) h.callers
  calls := hcalls
  held d hd := (List.mem_append.mp hd).elim
    (fun hd => h.inScope d (List.mem_append_left _ hd)) (h.held d)
  inScope := h.inScope

theorem leaveCall {caller : Scopes} (h : m.Sound (caller :: saved) (caller.data ++ held)) :
    (m.leaveCall caller).Sound saved held where
  callers := congrArg List.tail h.callers
  calls := Nat.le_of_succ_le h.calls
  held d hd := h.held d (List.mem_append_right _ hd)
  inScope d hd := by
    rcases List.mem_append.mp hd with hd | hd
    · exact h.held d (List.mem_append_left _ hd)
    · have hrest : d ∈ saved.flatMap Scopes.data := by
        rwa [Machine.leaveCall, h.callers] at hd
      refine h.inScope d (List.mem_append_right _ ?_)
      rw [h.callers]
      exact List.mem_append_right _ hrest

end Machine.Sound

/-! ### Steps -/

/-- A state is sound, and has all objects that a machine has. -/
structure State.SoundAfter (t : State) (m : Machine) : Prop where
  sound : t.Sound
  retains : m.Retains t.machine

theorem State.soundAfter_ofResult {next : Wait .datum} {c : Replay Datum}
    (h : m.Sound next.callers next.data) (hc : c.Supplies m) :
    (ofResult next (c m)).SoundAfter m := by
  have hm := h.retains hc.scopes hc.callers hc.retains
  have hretains := hc.retains
  have hdatum := hc.inBounds
  rcases hrun : c m with ⟨f | datum, m'⟩ <;> rw [hrun] at hm hretains hdatum
  · exact ⟨hm, hretains⟩
  · exact ⟨hm.cons (hdatum datum rfl), hretains⟩

theorem State.soundAfter_ofMethodCall {next : Wait .datum} (h : m.Sound next.callers next.data)
    (owner : ClassName) (name : String) (body : Block) :
    (ofMethodCall owner name body next m).SoundAfter m := by
  rw [ofMethodCall]
  split
  · exact ⟨h, .refl m⟩
  · next hcalls =>
    rw [h.callers, Nat.not_le] at hcalls
    exact ⟨h.enterCall hcalls, fun _ hobject => hobject⟩

theorem State.soundAfter_ofStaticCall {next : Wait .datum} (h : m.Sound next.callers next.data)
    (owner : ClassName) (name : String) (data : List Datum) :
    (ofStaticCall methods owner name data next m).SoundAfter m := by
  rw [ofStaticCall]
  cases Api.Factory.of? owner name with
  | some factory =>
    exact soundAfter_ofResult h (ofExcept_supplies (fun _ => Api.Factory.object?_build) m)
  | none =>
    cases Table.get? methods (owner, name) with
    | none => exact ⟨h, .refl m⟩
    | some body =>
      dsimp only
      cases Arguments.expect { method := name, data } 0 with
      | error f => exact ⟨h, .refl m⟩
      | ok _ => exact soundAfter_ofMethodCall h owner name body

theorem Expr.soundAfter_begin {next : Wait .datum} (h : m.Sound next.callers next.data)
    (e : Expr) : (e.begin next m).SoundAfter m := by
  cases e with
  | literal l => exact ⟨h.cons (.of_none rfl), .refl m⟩
  | typeLiteral type => exact ⟨h.cons (.of_none rfl), .refl m⟩
  | staticField owner name =>
    exact State.soundAfter_ofResult h (ofExcept_supplies (fun _ => object?_staticField) m)
  | var name =>
    rw [Expr.begin]
    cases hlookUp : m.scopes.lookUp? name with
    | none => exact ⟨h, .refl m⟩
    | some datum =>
      have hdatum := Scopes.mem_data_of_lookUp? hlookUp
      exact ⟨h.cons (h.inScope datum (List.mem_append_left _ hdatum)), .refl m⟩
  | construct type args => exact ⟨h, .refl m⟩
  | newArray component elements => exact ⟨h, .refl m⟩
  | staticCall owner name args => exact ⟨h, .refl m⟩
  | call receiver name args => exact ⟨h, .refl m⟩

theorem Stmt.soundAfter_begin {next : Wait .ending} (h : m.Sound next.callers next.data)
    (rest : Block) (s : Stmt) : (s.begin rest next m).SoundAfter m := by
  cases s with
  | expr e => exact ⟨h, .refl m⟩
  | declare type name init => exact ⟨h, .refl m⟩
  | ret e => exact ⟨h, .refl m⟩
  | nested body => exact ⟨h.enterScope, fun _ hobject => hobject⟩

namespace Wait

theorem soundAfter_takeDatum {wait : Wait .datum} {datum : Datum}
    (h : m.Sound wait.callers (datum :: wait.data)) (ht : wait.takeDatum m datum = some t) :
    t.SoundAfter m := by
  have hdatum : datum.InBounds m := h.held datum List.mem_cons_self
  have hwait : m.Sound wait.callers wait.data := h.mono (List.subset_cons_self _ _)
  cases wait with
  | evaluated => cases ht
  | receiver name args next =>
    cases ht
    exact ⟨h, .refl m⟩
  | argument done todo next =>
    rw [takeDatum, if_pos hdatum] at ht
    cases ht
    refine ⟨(hwait.cons hdatum.toArgument).mono ?_, .refl m⟩
    simp [State.held, Wait.data]
  | discard rest next =>
    cases ht
    exact ⟨hwait, .refl m⟩
  | declare name rest next =>
    cases ht
    exact ⟨hwait.define hdatum name, fun _ hobject => hobject⟩
  | ret next =>
    cases ht
    exact ⟨h, .refl m⟩

theorem soundAfter_takeEnding {wait : Wait .ending} {returned : Option Datum}
    (h : m.Sound wait.callers (returned.toList ++ wait.data))
    (ht : wait.takeEnding m returned = some t) : t.SoundAfter m := by
  have hwait : m.Sound wait.callers wait.data := h.mono (List.subset_append_right _ _)
  cases wait with
  | executed => cases ht
  | scope rest next =>
    cases returned with
    | none =>
      cases ht
      exact ⟨h.leaveScope, fun _ hobject => hobject⟩
    | some datum =>
      cases ht
      exact ⟨h.leaveScope, fun _ hobject => hobject⟩
  | method owner name caller next =>
    cases returned with
    | none =>
      cases ht
      exact ⟨hwait.leaveCall, fun _ hobject => hobject⟩
    | some datum =>
      cases ht
      refine ⟨hwait.leaveCall.cons ?_, fun _ hobject => hobject⟩
      exact h.held datum List.mem_cons_self

theorem soundAfter_takeFault {wanted : Wanted} {wait : Wait wanted} {f : Fault}
    (h : m.Sound wait.callers wait.data) (ht : wait.takeFault m f = some t) :
    t.SoundAfter m := by
  cases wait with
  | evaluated => cases ht
  | executed => cases ht
  | argument done todo next =>
    cases ht
    exact ⟨h.mono (List.subset_append_right _ _), .refl m⟩
  | call object name next =>
    cases ht
    exact ⟨h.mono (List.subset_cons_self _ _), .refl m⟩
  | scope rest next =>
    cases ht
    exact ⟨h.leaveScope, fun _ hobject => hobject⟩
  | method owner name caller next =>
    cases ht
    exact ⟨h.leaveCall, fun _ hobject => hobject⟩
  | _ =>
    cases ht
    exact ⟨h, .refl m⟩

theorem soundAfter_takeArguments {wait : Wait .arguments} {data : List Datum}
    (h : m.Sound wait.callers (data ++ wait.data))
    (ht : wait.takeArguments methods m data = some t) : t.SoundAfter m := by
  have hwait : m.Sound wait.callers wait.data := h.mono (List.subset_append_right _ _)
  cases wait with
  | construct type next =>
    cases ht
    exact State.soundAfter_ofResult hwait (construct_supplies type data m)
  | newArray component next =>
    cases ht
    refine State.soundAfter_ofResult hwait (ofExcept_supplies (fun datum hdatum => ?_) m)
    obtain ⟨elements, -, rfl⟩ := map_eq_ok_iff.mp hdatum
    rfl
  | staticCall owner name next =>
    cases ht
    exact State.soundAfter_ofStaticCall hwait owner name data
  | call object name next =>
    rw [takeArguments] at ht
    split at ht
    · next hdata =>
      cases ht
      exact State.soundAfter_ofResult (hwait.mono (List.subset_cons_self _ _))
        (callOn_supplies (hdata object List.mem_cons_self) name data)
    · cases ht

end Wait

/-- A step leads from a sound state to a sound state, and no object goes. -/
theorem State.Sound.next? (hs : s.Sound) (ht : s.next? methods = some t) :
    t.SoundAfter s.machine := by
  cases s with
  | expr e next m =>
    cases ht
    exact e.soundAfter_begin hs
  | args done todo next m =>
    cases todo with
    | nil => exact Wait.soundAfter_takeArguments hs ht
    | cons e todo =>
      cases ht
      exact ⟨hs, .refl m⟩
  | block body next m =>
    cases body with
    | nil =>
      cases ht
      exact ⟨hs, .refl m⟩
    | cons s rest =>
      cases ht
      exact s.soundAfter_begin hs rest
  | value datum next m => exact Wait.soundAfter_takeDatum hs ht
  | ended returned next m => exact Wait.soundAfter_takeEnding hs ht
  | fault f next m => exact Wait.soundAfter_takeFault hs ht

/-- Everything that a run from a sound state leads to is sound. -/
theorem State.Sound.reaches (hs : s.Sound) (ht : s.Reaches methods t) :
    t.SoundAfter s.machine := by
  induction ht with
  | refl => exact ⟨hs, .refl _⟩
  | tail _ hstep ih =>
    have hnext := ih.sound.next? hstep
    exact ⟨hnext.sound, fun object hobject => hnext.retains _ (ih.retains _ hobject)⟩

/-- In a sound state, an object can be handed over as an argument. -/
theorem State.Sound.next?_argument {datum : Datum} {done : List Datum} {todo : List Expr}
    {next : Wait .arguments} (hs : (State.value datum (.argument done todo next) m).Sound)
    (methods : Methods) : (State.value datum (.argument done todo next) m).next? methods
      = some (.args (done ++ [m.toArgument datum]) todo next m) :=
  if_pos (hs.held datum List.mem_cons_self)

/-- In a sound state, an object can be called. -/
theorem State.Sound.next?_call {object : Datum} {name : String} {data : List Datum}
    {next : Wait .datum} (hs : (State.args data [] (.call object name next) m).Sound)
    (methods : Methods) : (State.args data [] (.call object name next) m).next? methods
      = some (.ofResult next (callOn object name data m)) := by
  refine if_pos (List.forall_mem_cons.mpr ⟨hs.held object ?_, fun d hd => hs.held d ?_⟩)
  · exact List.mem_append_right _ List.mem_cons_self
  · exact List.mem_append_left _ hd

/-- From a sound state the run goes on, unless it has come to its end. -/
theorem State.Sound.progress (hs : s.Sound) (methods : Methods) :
    s.IsFinal ∨ ∃ t, s.next? methods = some t := by
  cases s with
  | expr e next m => exact .inr ⟨_, rfl⟩
  | args done todo next m =>
    cases todo with
    | cons e todo => exact .inr ⟨_, rfl⟩
    | nil =>
      cases next with
      | call object name next => exact .inr ⟨_, hs.next?_call methods⟩
      | _ => exact .inr ⟨_, rfl⟩
  | block body next m => cases body <;> exact .inr ⟨_, rfl⟩
  | value datum next m =>
    cases next with
    | evaluated => exact .inl trivial
    | argument done todo next => exact .inr ⟨_, hs.next?_argument methods⟩
    | _ => exact .inr ⟨_, rfl⟩
  | ended returned next m =>
    cases next with
    | executed => exact .inl trivial
    | _ => cases returned <;> exact .inr ⟨_, rfl⟩
  | fault f next m =>
    cases next with
    | evaluated => exact .inl trivial
    | executed => exact .inl trivial
    | _ => exact .inr ⟨_, rfl⟩

end BeanScript
