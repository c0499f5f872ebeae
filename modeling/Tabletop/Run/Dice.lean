/-
Tabletop.Run.Dice — steps that roll dice.

A roll is a template; its text, without the blanks around it, goes to the
dice of the host. A sequence rolls once for each of its items, with the item
and then the roll at hand for its actions.
-/
import Tabletop.Flow.StepKind
import Tabletop.Run.Action

namespace Tabletop

/-- Traced computations are part of a run. -/
instance : MonadLift Traced Run := ⟨Run.traced⟩

/-- Where a step keeps its data. -/
def Step.place (s : Step) : String := s!"steps.{s.id}"

/-- Stops because a setting of the step is not there. -/
def Step.lacks {α : Type} (s : Step) (setting : String) : Run α :=
  Run.fail (.missingSetting s.typeName setting)

/-- The setting, if it is there and neither null nor a blank text. -/
def presentSetting? (v : Option Value) : Option Value :=
  v.filter fun v =>
    match v with
    | .null => false
    | .text s => !isBlankText s
    | _ => true

/-- The id of something in a setting, without the blanks around it; none if it is blank. -/
def presentId? (id : Option String) : Option String :=
  (id.map trim).filter fun s => !s.isEmpty

/-- Rolls what a template gives. -/
def Context.rollDice (c : Context) (expression : Value) : Run Roll := do
  let text ← c.resolveText expression
  Run.roll (trim text)

namespace Frame

/-- One roll. -/
def diceRoll (step : Step) (roll : Option Value) (c : Context) : Run Context := do
  match presentSetting? roll with
  | none => step.lacks "roll"
  | some expression =>
      let roll ← c.rollDice expression
      c.put s!"{step.place}.result" roll.summary

/-- Rolls for each of the items in order. -/
def rollForItems (f : Frame) (step : Step) (expression : Value) (actions : List Action) :
    List Value → Context → Run Context
  | [], c => pure c
  | item :: rest, c => do
      let c ← c.put s!"{step.place}.item" item
      let c ← c.put "item" item
      let roll ← c.rollDice expression
      let c ← c.put s!"{step.place}.result" roll.summary
      let c ← c.put "result" roll.summary
      let c ← f.runActions actions c
      f.rollForItems step expression actions rest c

/-- The items of a sequence: as authored, or what a template gives. -/
def sequenceItems (c : Context) (items : Value) : Traced Value :=
  match items with
  | .text template => Traced.resolved (c.resolveTemplate template)
  | items => pure items

/-- A sequence of rolls. -/
def diceSequence (f : Frame) (step : Step) (sequence : Option DiceSequence) (c : Context) :
    Run Context := do
  match sequence with
  | none => step.lacks "sequence"
  | some s =>
      match ← sequenceItems c s.items with
      | .list (first :: rest) =>
          match presentSetting? s.roll with
          | none => step.lacks "sequence.roll"
          | some expression => f.rollForItems step expression s.actions (first :: rest) c
      | _ => step.lacks "sequence.items"

end Frame

end Tabletop
