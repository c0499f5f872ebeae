/-
Tabletop.Run.Branch — steps that branch.

The conditions of a branch are tried in order; the actions of the first one
that holds run, and then those of the step itself.
-/
import Tabletop.Run.Dice

namespace Tabletop

namespace Frame

/-- The condition of a branch holds. -/
def branchHolds (step : Step) (c : Context) (condition : Option Value) : Traced Bool :=
  match presentSetting? condition with
  | none => Traced.fail (.missingSetting step.typeName "if")
  | some (.text source) =>
      (Traced.resolved (c.condition source)).during (.condition source)
  | some v => pure v.truthy

/-- Runs the actions of the first condition that holds. -/
def takeBranch (f : Frame) (step : Step) (c : Context) : Branch → Traced Context
  | .last actions => f.runActions actions c
  | .test condition actions otherwise => do
      if ← branchHolds step c condition then f.runActions actions c
      else f.takeBranch step c otherwise

/-- Branches, and then runs the actions of the step. -/
def conditionalBranch (f : Frame) (step : Step) (branch : Branch) (c : Context) :
    Traced Context := do
  let c ← f.takeBranch step c branch
  f.runActions step.actions c

end Frame

end Tabletop
