import BeanScript.Proofs.Script.Setters

/-!
# What introspection decides

Types are looked up in three places: for the type that backs a definition, for the setters of its
properties, and for its lifecycle methods. All this decides is which hints a definition needs, and
which of two methods adds a property, the one for properties with a setter or the general one. A
look-up that finds nothing is an answer like any other. So with two type sources, whatever they
know, a batch fails for the same reason or has the same methods, and its scripts are the same up to
the method that adds a property.

The expressions of a resolver are used as they are. They may add properties as well, so the two
methods are identified at every depth of a script and not only in the statements that a generator
makes itself.

## Main definitions

* `Expr.generic`, `Stmt.generic`, `Block.generic` — every property added by the general method

## Main results

* `Script.Context.generic_statements` — setters decide nothing else about a script
* `Generator.batch_withTypes` — two type sources, one generator
-/

namespace BeanScript

/-! ### Adding properties in general -/

/-- Whether an expression gets the property values of a definition. -/
def Expr.getsProperties : Expr → Bool
  | .call _ getter [] => getter == Api.DefinitionMethod.getPropertyValues.name
  | _ => false

/-- The method called in place of the given one: properties are added by the general method. -/
def Expr.genericMethod (receiver : Expr) (method : String) : String :=
  if receiver.getsProperties && method == Api.PropertiesMethod.addPropertyValue.name then
    Api.PropertiesMethod.add.name
  else method

mutual

/-- The expression with every property added by the general method. -/
def Expr.generic : Expr → Expr
  | .literal l => .literal l
  | .typeLiteral type => .typeLiteral type
  | .staticField owner name => .staticField owner name
  | .var name => .var name
  | .construct type args => .construct type (genericArgs args)
  | .newArray component elements => .newArray component (genericArgs elements)
  | .staticCall owner method args => .staticCall owner method (genericArgs args)
  | .call receiver method args =>
    .call receiver.generic (receiver.genericMethod method) (genericArgs args)
termination_by structural e => e

/-- The expressions with every property added by the general method. -/
def genericArgs : List Expr → List Expr
  | [] => []
  | e :: es => e.generic :: genericArgs es
termination_by structural es => es

end

mutual

/-- The statement with every property added by the general method. -/
def Stmt.generic : Stmt → Stmt
  | .expr e => .expr e.generic
  | .declare type name init => .declare type name init.generic
  | .nested body => .nested (Block.generic body)
  | .ret e => .ret e.generic
termination_by structural s => s

/-- The statements with every property added by the general method. -/
def Block.generic : List Stmt → List Stmt
  | [] => []
  | s :: rest => s.generic :: Block.generic rest
termination_by structural body => body

end

theorem Block.generic_eq_map : Block.generic = List.map Stmt.generic := by
  funext body
  induction body with
  | nil => rfl
  | cons s rest ih => rw [Block.generic, ih, List.map_cons]

theorem Block.generic_append (first second : Block) :
    Block.generic (first ++ second) = Block.generic first ++ Block.generic second := by
  rw [generic_eq_map, List.map_append]

/-- Both methods of the property values are the general one. -/
theorem Style.generic_callProperties (style : Style) (m m' : Api.PropertiesMethod)
    (args : List Expr) :
    (style.callProperties m args).generic = (style.callProperties m' args).generic := by
  have hmethod : ∀ m : Api.PropertiesMethod,
      (Expr.call style.receiverExpr Api.DefinitionMethod.getPropertyValues.name []).genericMethod
        m.name = Api.PropertiesMethod.add.name := by
    intro m
    cases m <;> rfl
  simp only [callProperties, Stmt.generic, Expr.generic, hmethod]

/-! ### Scripts -/

namespace Script.Context

variable (c : Script.Context) (setter? : String → Option Member)

/-- Setters decide nothing about the statement of a part but the method that adds a property. -/
theorem generic_write (p : Part) :
    ({ c with setter? }.write p).map Stmt.generic = (c.write p).map Stmt.generic := by
  cases p with
  | property name v =>
    simp only [write, addProperty]
    cases v.encode c.resolve name with
    | error e => rfl
    | ok e =>
      simp only [ok_bind, pure_eq_ok, map_ok]
      exact congrArg Except.ok (Style.generic_callProperties ..)
  | indexed index argument => rfl
  | generic number argument => rfl
  | metadata key v => rfl
  | qualifier q => rfl

/-- Setters decide nothing about a script but the methods that add properties. -/
theorem generic_statements (d : Definition) :
    ({ c with setter? }.statements d).map Block.generic
      = (c.statements d).map Block.generic := by
  have hparts : ((d.parts c.keep).mapM { c with setter? }.write).map Block.generic
      = ((d.parts c.keep).mapM c.write).map Block.generic := by
    rw [Block.generic_eq_map, ← mapM_map_eq, ← mapM_map_eq]
    exact mapM_congr_of_mem fun p _ => c.generic_write setter? p
  have hscript := congrArg (Except.map fun block =>
    Block.generic (d.settings.statements c.style) ++ block ++
      Block.generic
        (c.style.lifecycle .setInitMethodName .setInitMethodNames d.settings.initMethods) ++
      Block.generic
        (c.style.lifecycle .setDestroyMethodName .setDestroyMethodNames d.settings.destroyMethods))
    hparts
  simpa only [statements_eq, map_map_eq, Block.generic_append] using hscript

end Script.Context

/-! ### Batches -/

/-- The method with every property added by the general method. -/
def Method.generic (m : Method) : Method :=
  { m with body := Block.generic m.body }

/-- What there is of a batch besides its hints, with every property added by the general method. -/
def Batch.generic (b : Batch) : Block × List Method :=
  (Block.generic b.statements, b.methods.map Method.generic)

/-- Two results that look the same still do after they are taken further in ways that keep it. -/
theorem map_map_congr {α β γ δ : Type u} {ε : Type v} {r r' : Except ε α} {p : α → γ}
    {k k' : α → β} {q : β → δ} (hr : r'.map p = r.map p)
    (hk : ∀ a a', p a' = p a → q (k' a') = q (k a)) :
    (r'.map k').map q = (r.map k).map q := by
  cases r with
  | error e =>
    rw [map_error, map_eq_error_iff] at hr
    rw [hr]
    rfl
  | ok a =>
    obtain ⟨a', rfl, ha⟩ := map_eq_ok_iff.mp hr
    exact congrArg Except.ok (hk a a' ha)

namespace Generator

variable {g g' : Generator}

theorem generic_methodBody {style : Style} {d : Definition} {s s' : Block}
    (h : Block.generic s' = Block.generic s) :
    Block.generic (methodBody style d s') = Block.generic (methodBody style d s) := by
  simp only [methodBody, Block.generic, Block.generic_append, h]

/-- Two generators that differ in what they know about types write the same statements, up to the
methods that add properties. -/
theorem Coherent.generic_statements (hg : g.Coherent) (hg' : g'.Coherent)
    (hstyle : g'.style = g.style) (hkeep : g'.keep = g.keep) (resolve : Resolver)
    (d : Definition) : ((g'.context resolve d).statements d).map Block.generic
      = ((g.context resolve d).statements d).map Block.generic := by
  rw [hg.context_eq, hg'.context_eq, hstyle, hkeep]
  exact Script.Context.generic_statements
    { style := g.style, resolve, keep := g.keep, setter? := _ } _ d

/-- Two generators that differ in what they know about types write the same batch, up to the hints
and the methods that add properties. -/
theorem Coherent.generic_batch (hg : g.Coherent) (hg' : g'.Coherent) (hstyle : g'.style = g.style)
    (hresolve : g'.resolve = g.resolve) (hkeep : g'.keep = g.keep) (d : Definition) :
    (g'.batch d).1.map Batch.generic = (g.batch d).1.map Batch.generic := by
  have hnested : g'.nested d = g.nested d := by rw [nested, nested, hstyle, hkeep]
  have hresolver : g'.batchResolver d = g.batchResolver d := by
    rw [batchResolver, batchResolver, hnested, hresolve]
  have hstatements := hg.generic_statements hg' hstyle hkeep (g.batchResolver d)
  rw [hg.batch_eq, hg'.batch_eq, hnested, hresolver, hstyle]
  have hroot := hstatements d
  cases hs : (g.context (g.batchResolver d) d).statements d with
  | error e =>
    rw [hs, map_error, map_eq_error_iff] at hroot
    rw [hroot, error_bind, error_bind]
  | ok s =>
    rw [hs] at hroot
    obtain ⟨s', hs', hgeneric⟩ := map_eq_ok_iff.mp hroot
    rw [hs', ok_bind, ok_bind]
    refine map_map_congr (p := List.map Method.generic) ?_ fun ms ms' hms => ?_
    · -- the methods are the same one by one
      rw [← mapM_map_eq, ← mapM_map_eq]
      refine mapM_congr_of_mem fun n _ => map_map_congr (hstatements n.definition) fun s s' hs => ?_
      rw [Method.generic, Method.generic, generic_methodBody hs]
    · rw [Batch.generic, Batch.generic, hgeneric, hms]

/-- What a type source knows decides about a batch only which hints it has and by which method it
adds a property. With two type sources there is no batch, for the same reason, or there are two with
the same methods, and with the same scripts once every property is added by the general method. -/
theorem batch_withTypes (g : Generator) (source source' : TypeSource) (d : Definition) :
    (∃ e, ((g.withTypes source).batch d).1 = .error e ∧
        ((g.withTypes source').batch d).1 = .error e) ∨
      ∃ batch batch', ((g.withTypes source).batch d).1 = .ok batch ∧
        ((g.withTypes source').batch d).1 = .ok batch' ∧
        batch'.methods.map Method.name = batch.methods.map Method.name ∧
        Block.generic batch'.statements = Block.generic batch.statements ∧
        batch'.methods.map (fun m => Block.generic m.body)
          = batch.methods.map fun m => Block.generic m.body := by
  have hsame := Coherent.generic_batch (.withTypes g source) (.withTypes g source') rfl rfl rfl d
  cases hbatch : ((g.withTypes source).batch d).1 with
  | error e =>
    rw [hbatch] at hsame
    exact .inl ⟨e, rfl, map_eq_error_iff.mp hsame⟩
  | ok batch =>
    rw [hbatch] at hsame
    obtain ⟨batch', hbatch', heq⟩ := map_eq_ok_iff.mp hsame
    obtain ⟨hstatements, hmethods⟩ := Prod.ext_iff.mp heq
    refine .inr ⟨batch, batch', rfl, hbatch', ?_, hstatements, ?_⟩
    · have hnames := congrArg (List.map Method.name) hmethods
      rwa [Batch.generic, Batch.generic, List.map_map, List.map_map] at hnames
    · have hbodies := congrArg (List.map Method.body) hmethods
      rwa [Batch.generic, Batch.generic, List.map_map, List.map_map] at hbodies

/-- The size of a wheel is added by its setter where the type is known. -/
example :
    let wheel : TypeDecl := { type := ⟨"part.Wheel"⟩, methods := [.setter "size" ⟨"int"⟩] }
    let d : Definition :=
      { settings := { beanClass := some wheel.type }, properties := [("size", .literal (.int 7))] }
    let g : Generator := {}
    ((g.withTypes (Registry.ofList [wheel]).source).batch d).1.map Batch.statements
        = .ok [g.style.callProperties .addPropertyValue [.string "size", .int 7]] ∧
      ((g.withTypes .empty).batch d).1.map Batch.statements
        = .ok [g.style.callProperties .add [.string "size", .int 7]] :=
  ⟨rfl, rfl⟩

end Generator

end BeanScript
