/-!
# Loops

A loop takes one turn after the other until there is no next one. Nothing says beforehand how many
turns there will be, so that it ends is a statement of its own.

## Main definitions

* `Loop.after?` — the state after a number of turns, where the loop gets that far
* `Loop.Ends` — the loop ends, after how many turns and where
-/

namespace BeanScript.Loop

variable {σ : Type u} (next? : σ → Option σ)

/-- The state after the given number of turns, if the loop gets that far. -/
def after? : Nat → σ → Option σ
  | 0, s => some s
  | n + 1, s => (next? s).bind (after? n)

/-- The loop ends after the given number of turns. -/
structure Ends (start : σ) (turns : Nat) (last : σ) : Prop where
  reaches : after? next? turns start = some last
  stops : next? last = none

variable {next?} {s t last : σ} {turns : Nat}

/-- A loop without a next turn has ended. -/
theorem Ends.refl (h : next? s = none) : Ends next? s 0 s :=
  ⟨rfl, h⟩

/-- One turn more in front. -/
theorem Ends.step (h : next? s = some t) (hends : Ends next? t turns last) :
    Ends next? s (turns + 1) last :=
  ⟨by rw [after?, h, Option.bind_some, hends.reaches], hends.stops⟩

end BeanScript.Loop
