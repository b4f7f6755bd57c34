import BeanScript.Proofs.Script.Setters

/-!
# Requests in sequence

One generator serves any number of requests: to take another type source, resolver or filter, to
write a script, to write a batch. Between the requests it keeps what it has looked up, types that it
did not find included, and it does so too when a request fails. None of this shows. Every request is
answered as by a new generator that has been given the choices in force, since a generator stays
coherent whatever it is asked.

## Main definitions

* `Request`, `Reply` — what a generator is asked, and what it gives
* `Generator.replies` — the replies of one generator to requests in turn
* `Choices` — the choices in force, `Choices.replies` — a new generator for every request

## Main results

* `Generator.Follows.answer` — one request
* `Generator.replies_eq_afresh` — requests in turn
-/

namespace BeanScript

/-- What a generator is asked to do. -/
inductive Request
  | takeTypes (types : TypeSource)
  | takeResolver (resolve : Resolver)
  | takeFilter (keep : KeyFilter)
  | script (d : Definition)
  | batch (d : Definition)

/-- What a generator gives for a definition. -/
inductive Reply
  | script (result : Except EncodeError Script)
  | batch (result : Except EncodeError Batch)

namespace Generator

/-- The reply to a request, where it asks for something, and the generator afterwards. -/
def answer (g : Generator) : Request → Option Reply × Generator
  | .takeTypes types => (none, g.withTypes types)
  | .takeResolver resolve => (none, g.withResolver resolve)
  | .takeFilter keep => (none, g.withFilter keep)
  | .script d => (some (.script (g.script d).1), (g.script d).2)
  | .batch d => (some (.batch (g.batch d).1), (g.batch d).2)

/-- The replies of one generator to requests in turn. -/
def replies (g : Generator) : List Request → List (Option Reply)
  | [] => []
  | r :: rs => (g.answer r).1 :: (g.answer r).2.replies rs

end Generator

/-- What a generator can be given, with what it starts from. -/
structure Choices where
  style : Style := {}
  types : TypeSource := .empty
  resolve : Resolver := .empty
  keep : KeyFilter := fun _ => true

namespace Choices

/-- The choices in force after a request. -/
def after (c : Choices) : Request → Choices
  | .takeTypes types => { c with types }
  | .takeResolver resolve => { c with resolve }
  | .takeFilter keep => { c with keep }
  | .script _ | .batch _ => c

/-- A new generator that has been given the choices. -/
def generator (c : Choices) : Generator :=
  ((({ style := c.style } : Generator).withTypes c.types).withResolver c.resolve).withFilter c.keep

/-- The replies to requests in turn, each by a new generator. -/
def replies (c : Choices) : List Request → List (Option Reply)
  | [] => []
  | r :: rs => (c.generator.answer r).1 :: (c.after r).replies rs

theorem coherent_generator (c : Choices) : c.generator.Coherent :=
  .of_setters_eq_nil rfl

end Choices

namespace Generator

variable {g : Generator} {c : Choices}

/-- The generator is coherent, and the choices are in force. -/
structure Follows (g : Generator) (c : Choices) : Prop where
  coherent : g.Coherent
  same : SameChoices c.generator g

/-- A request is answered as by a new generator, and leaves the choices in force that it makes. -/
theorem Follows.answer (h : g.Follows c) (r : Request) :
    (g.answer r).1 = (c.generator.answer r).1 ∧ (g.answer r).2.Follows (c.after r) := by
  obtain ⟨hg, hstyle, htypes, hresolve, hkeep⟩ := h
  have hsame : SameChoices c.generator g := ⟨hstyle, htypes, hresolve, hkeep⟩
  cases r with
  | takeTypes types => exact ⟨rfl, .withTypes g types, hstyle, rfl, hresolve, hkeep⟩
  | takeResolver resolve => exact ⟨rfl, hg.withResolver resolve, hstyle, htypes, rfl, hkeep⟩
  | takeFilter keep => exact ⟨rfl, hg.withFilter keep, hstyle, htypes, hresolve, rfl⟩
  | script d =>
    obtain ⟨hsame', hg'⟩ := hg.script d
    have hreply := Coherent.script_congr c.coherent_generator hg hsame d
    exact ⟨congrArg (some ∘ Reply.script) hreply, hg', hsame.trans hsame'⟩
  | batch d =>
    obtain ⟨hsame', hg'⟩ := hg.batch d
    have hreply := Coherent.batch_congr c.coherent_generator hg hsame d
    exact ⟨congrArg (some ∘ Reply.batch) hreply, hg', hsame.trans hsame'⟩

theorem Follows.replies (h : g.Follows c) (rs : List Request) : g.replies rs = c.replies rs := by
  induction rs generalizing g c with
  | nil => rfl
  | cons r rs ih =>
    obtain ⟨hreply, hafter⟩ := h.answer r
    rw [Generator.replies, Choices.replies, hreply, ih hafter]

/-- Whatever a generator has been asked before, it answers every request as a new generator does
that has been given the choices in force. -/
theorem replies_eq_afresh (style : Style) (rs : List Request) :
    ({ style } : Generator).replies rs = ({ style } : Choices).replies rs := by
  have h : ({ style } : Generator).Follows { style } :=
    { coherent := .of_setters_eq_nil rfl, same := .refl _ }
  exact h.replies rs

end Generator

end BeanScript
