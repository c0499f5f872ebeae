/-
Tabletop.Run.Retry — further attempts after a failure.

The body of a step may be attempted again after a failure that a second
attempt could mend. The state that the body leaves behind is kept: what a
failed attempt has asked for and reported is not undone.
-/
import Tabletop.Run.Session

namespace Tabletop

/-- The most attempts that a host can ask for. -/
def maxAttempts : Nat := 10

/-- The number of attempts for a number asked for: at least one and at most `maxAttempts`. -/
def attemptLimit (asked : Nat) : Nat := min (max asked 1) maxAttempts

/-- Steps that branch or call flows are never attempted twice. -/
def isRepeatable (stepType : String) : Bool :=
  !(stepType ∈ ["conditional_branch", "flow_call"])

/-- Attempts `body` once and, while it fails with an error that `again` accepts, up to `more` times
again. `note` records each failure that is followed by another attempt; `done` counts the attempts
before this one. -/
def attempts {σ ε α : Type} (again : ε → Bool) (note : (attempt : Nat) → ε → σ → σ)
    (body : σ → Except ε α × σ) : (more done : Nat) → σ → Except ε α × σ
  | 0, _, s => body s
  | more + 1, done, s =>
      match body s with
      | (.error e, s) =>
          if again e then attempts again note body more (done + 1) (note (done + 1) e s)
          else (.error e, s)
      | (.ok a, s) => (.ok a, s)

/-- `attempts` with a limit on all attempts together. -/
def attemptUpTo {σ ε α : Type} (asked : Nat) (again : ε → Bool)
    (note : (attempt : Nat) → ε → σ → σ) (body : σ → Except ε α × σ) (s : σ) : Except ε α × σ :=
  attempts again note body (attemptLimit asked - 1) 0 s

/-- The failure is one of the host. -/
def Stop.isOfHost : Stop → Bool
  | .failed error => error.failure.kind = .collaborator
  | .outOfFuel => false

/-- The warning before another attempt. -/
def retryWarning (task : StepTask) (attempt : Nat) : Stop → Session → Session
  | .failed error, s =>
      { s with log := .warned (.retrying task.flow task.step attempt error.text) :: s.log }
  | .outOfFuel, s => s

/-- Runs the body of a step, again after failures of the host if the step is repeatable. -/
def Run.retrying {α : Type} (asked : Nat) (task : StepTask) (body : Run α) : Run α :=
  fun s => attemptUpTo asked (fun stop => task.repeatable && stop.isOfHost) (retryWarning task)
    (fun s => body s) s

end Tabletop
