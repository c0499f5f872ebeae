/-
Tabletop.Run.Choice — steps that ask the player.

An input is any value. A choice is made among choices that are authored,
or made from the entries of a table or the keys of a mapping. What the
player selects is compared with the ids and labels of the choices as texts;
the first match is taken, and its actions run. An entry of a table of
models becomes an object of its model.

  §1 Asking
  §2 Choices
  §3 Selections
  §4 The step
-/
import Tabletop.Run.TableRoll

namespace Tabletop

/-! ## §1 Asking -/

/-- The step as the player sees it: its prompt resolved. -/
def Context.present (c : Context) (step : Step) : Traced Step :=
  match step.prompt with
  | none => pure step
  | some template => do
      let v ← Traced.resolved (c.resolveTemplate template)
      pure { step with prompt := some v.render }

namespace Frame

/-- Asks the player for a value. -/
def playerInput (step : Step) (c : Context) : Run Context := do
  let shownStep ← c.present step
  let v ← Run.ask shownStep c.snapshot
  c.put s!"{step.place}.result" v

/-! ## §2 Choices -/

/-- A choice made for the player. -/
def generatedChoice (id label : String) : Value :=
  .mapping [("id", .text id), ("label", .text label)]

/-- The template of labels for entries of tables. -/
def entryLabel : String := "\x7b\x7b entry|title \x7d\x7d"

/-- The template of labels for keys of mappings. -/
def keyLabel : String := "\x7b\x7b key|title \x7d\x7d"

/-- The label of a table entry; its text if the template gives none. -/
def labelOf (c : Context) (template : String) (entry : Value) : Traced String :=
  match c.set "entry" entry with
  | .error _ => pure entry.render
  | .ok inside => do
      c.warnShadowing ["entry"]
      match inside.resolveTemplate template with
      | .ok label => pure label.render
      | .error _ => pure entry.render

/-- The choices for the entries of a table that are not null. -/
def tableChoices (c : Context) (template : String) : List TableEntry → Traced (List Value)
  | [] => pure []
  | e :: rest =>
      if e.value.isNull then tableChoices c template rest
      else do
        let label ← labelOf c template e.value
        let more ← tableChoices c template rest
        pure (generatedChoice e.value.render label :: more)

/-- The choices for the keys of a mapping. -/
def keyChoices (c : Context) (template : String) : Fields → Traced (List Value)
  | [] => pure []
  | (key, v) :: rest => do
      let inside ← c.put "key" (.text key)
      let inside ← inside.put "value" v
      let label ← Traced.resolved (inside.resolveTemplate template)
      let more ← keyChoices c template rest
      pure (generatedChoice key label.render :: more)

/-- The value whose keys are the choices: what a template gives, or what is at a path. -/
def choiceData (c : Context) (path : String) : Traced Value :=
  if hasMarkers path then Traced.resolved (c.resolveTemplate path)
  else pure ((c.get (trim path)).getD .null)

/-- The choices of a source. -/
def choicesOf (f : Frame) (source : ChoiceSource) (c : Context) : Traced (List Value) := do
  match source.table, source.values with
  | some id, _ =>
      let t ← Traced.ofExcept (f.table id)
      tableChoices c (source.display.getD entryLabel) t.entries
  | none, some path =>
      match ← choiceData c path with
      | .mapping fields => keyChoices c (source.display.getD keyLabel) fields
      | _ => Traced.fail (.notChoices path)
  | none, none => Traced.fail .noChoiceSource

/-! ## §3 Selections -/

/-- A choice: a mapping with an id and a label, or a value that is its own id. -/
def choiceOption : Value → Except Failure ChoiceOption
  | .mapping fields =>
      (ChoiceOption.read (.mapping fields)).mapError (.badChoice (.mapping fields))
  | other => .ok { id := some other }

/-- The option has the wanted text as its id or its label. -/
def isWanted (wanted : String) (o : ChoiceOption) : Bool :=
  o.id.any (fun v => v.render == wanted) || o.label.any (fun v => v.render == wanted)

/-- The first choice whose id or label is the wanted text. Choices after it are not read. -/
def findChoice (wanted : String) : List Value → Except Failure (Option ChoiceOption)
  | [] => .ok none
  | choice :: rest => do
      let o ← choiceOption choice
      if isWanted wanted o then .ok (some o) else findChoice wanted rest

/-- The data of the object that a table entry becomes. -/
def entryData (model : String) : Value → Value
  | .mapping fields => withModelKey (.mapping fields) model
  | other => .mapping [("model", .text model), ("id", .text other.render)]

/-- What a selection stands for: an object if it names an entry of a table of models. -/
def selected (f : Frame) (source : Option ChoiceSource) (selection : Value) :
    Except Failure Value := do
  match source.bind ChoiceSource.table with
  | none => .ok selection
  | some id =>
      let t ← f.table id
      if !t.hasModelEntries then .ok selection
      else
        let wanted := selection.render
        match t.entries.find? fun e => !e.value.isNull && e.value.render == wanted with
        | none => .error (.unknownSelection wanted id)
        | some e =>
            match f.engine.make.instantiateLenient t.entryType (entryData t.entryType e.value) with
            | .ok object => .ok object.value
            | .error error => .error (.within (.selection t.entryType) (.instantiation error))

/-- The items of a selection of several. -/
def selectionItems (count : Nat) : Value → Except Failure (List Value)
  | .list items =>
      if items.length = count then .ok items
      else .error (.selectionCount count items.length)
  | other => .error (.notSelections count other)

/-! ## §4 The step -/

/-- Keeps the results of a selection of several. -/
def selectSeveral (f : Frame) (step : Step) (source : Option ChoiceSource) (count : Nat)
    (selection : Value) (c : Context) : Traced Context := do
  let items ← Traced.ofExcept (selectionItems count selection)
  let results ← Traced.ofExcept (items.mapM (f.selected source))
  let c ← c.put s!"{step.place}.results" (.list results)
  let c ← c.put "results" (.list results)
  c.put s!"{step.place}.result" (results.head?.getD .null)

/-- Keeps the result of a selection, runs the actions of its choice, and notes the step that the
choice goes on with. -/
def selectOne (f : Frame) (step : Step) (source : Option ChoiceSource) (choices : List Value)
    (selection : Value) (c : Context) : Traced Context := do
  let result ← Traced.ofExcept (f.selected source selection)
  let c ← c.put s!"{step.place}.result" result
  let c ← c.put "result" result
  match ← Traced.ofExcept (findChoice selection.render choices) with
  | none => pure c
  | some chosen =>
      let c ← f.runActions chosen.actions c
      match chosen.nextStep.filter fun s => !isBlankText s with
      | none => pure c
      | some target => c.put s!"{step.place}.next_step_override" (.text target)

/-- The choices that a step offers. -/
def offered (f : Frame) (choices : List Value) (source : Option ChoiceSource) (c : Context) :
    Traced (List Value) :=
  match source with
  | some source => f.choicesOf source c
  | none => pure choices

/-- Lets the player choose. -/
def playerChoice (f : Frame) (step : Step) (choices : List Value) (source : Option ChoiceSource)
    (c : Context) : Run Context := do
  if !(← Run.isAttended) then Run.fail (.unattended "player_choice")
  else
    let choices ← f.offered choices source c
    let shownStep ← c.present step
    let shownStep : Step :=
      { shownStep with settings := Entries.insert shownStep.settings "choices" (.list choices) }
    let selection ← Run.ask shownStep c.snapshot
    match source with
    | some s =>
        if 1 < s.count then f.selectSeveral step source s.count selection c
        else f.selectOne step source choices selection c
    | none => f.selectOne step source choices selection c

end Frame

end Tabletop
