/-!
# Limited outputs

An output that takes fragments one by one and refuses a fragment that would take its total past a
limit, counted in bytes of UTF-8. After the first refusal it takes nothing more, not even what
would fit.

## Main definitions

* `Sink`, `Sink.write`, `Sink.writeAll`

## Main results

* `Sink.writeAll_of_refused` — after a refusal nothing changes any more
-/

namespace BeanScript

/-- An output, with the text it has taken. -/
structure Sink where
  /-- The most bytes it takes; `none` for no limit. -/
  limit : Option Nat
  text : String := ""
  refused : Bool := false

namespace Sink

/-- Whether the output has room for a fragment. -/
def fits (sink : Sink) (fragment : String) : Bool :=
  match sink.limit with
  | none => true
  | some limit => sink.text.utf8ByteSize + fragment.utf8ByteSize ≤ limit

/-- Hand a fragment over. -/
def write (sink : Sink) (fragment : String) : Sink :=
  if sink.refused then sink
  else if sink.fits fragment then { sink with text := sink.text ++ fragment }
  else { sink with refused := true }

/-- Hand fragments over in turn. -/
def writeAll (sink : Sink) (fragments : List String) : Sink :=
  fragments.foldl write sink

@[simp] theorem writeAll_nil (sink : Sink) : sink.writeAll [] = sink := rfl

@[simp] theorem writeAll_cons (sink : Sink) (fragment : String) (rest : List String) :
    sink.writeAll (fragment :: rest) = (sink.write fragment).writeAll rest := rfl

theorem writeAll_append (sink : Sink) (first second : List String) :
    sink.writeAll (first ++ second) = (sink.writeAll first).writeAll second :=
  List.foldl_append

/-- After a refusal nothing changes any more. -/
theorem writeAll_of_refused {sink : Sink} (h : sink.refused = true) (fragments : List String) :
    sink.writeAll fragments = sink := by
  induction fragments with
  | nil => rfl
  | cons fragment rest ih => simpa [write, h] using ih

end Sink

end BeanScript
