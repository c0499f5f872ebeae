/-
Tabletop.Proofs.Run.Choosing — which option an answer chooses.

The answer of the player is taken as a text. Of the options, in their order,
the first one that has the text as its id or as its label is chosen. So an
id chooses its own option, where no two ids are the same text, unless an
option before it has the text as its label: then that one is chosen, and its
actions run, although the result is the id of the other.

  §1 Options by their texts
  §2 The step when the answer is known
  §3 Options that their ids tell apart
-/
import Tabletop.Proofs.Run.Deed
import Tabletop.Proofs.Traversal

namespace Tabletop

open Traced

/-! ## §1 Options by their texts -/

namespace ChoiceOption

/-- The id as a text. -/
def idText? (o : ChoiceOption) : Option String := o.id.map Value.render

/-- The label as a text. -/
def labelText? (o : ChoiceOption) : Option String := o.label.map Value.render

end ChoiceOption

namespace Frame

variable {f : Frame} {step : Step} {c d : Context} {s t : Session} {choices : List Value}
  {source : Option ChoiceSource} {os before after : List ChoiceOption} {o : ChoiceOption}
  {answer : Value} {wanted : String}

theorem isWanted_eq (wanted : String) (o : ChoiceOption) :
    isWanted wanted o = (o.idText? == some wanted || o.labelText? == some wanted) := by
  obtain ⟨id, label, actions, next⟩ := o
  cases id <;> cases label <;> rfl

/-- The choices can be read as the options, one after the other. -/
abbrev ReadAs (choices : List Value) (os : List ChoiceOption) : Prop :=
  List.Forall₂ (fun choice o => choiceOption choice = .ok o) choices os

/-- Choices that can all be read are searched for the first one that is wanted. -/
theorem findChoice_eq (wanted : String) (read : ReadAs choices os) :
    findChoice wanted choices = .ok (os.find? (isWanted wanted)) := by
  induction read with
  | nil => rfl
  | @cons choice o choices os first others ih =>
    rw [findChoice, first]
    change (if isWanted wanted o then _ else _) = _
    cases here : isWanted wanted o with
    | true => rw [List.find?_cons_of_pos here, if_pos rfl]
    | false => rw [List.find?_cons_of_neg (by simp [here]), if_neg (by simp), ih]

/-! ## §2 The step when the answer is known -/

/-- Shows the step with the choices to the player, and asks. -/
def askAmong (step : Step) (choices : List Value) (c : Context) : Run Value := do
  let shownStep ← c.present step
  Run.ask
    { shownStep with settings := Entries.insert shownStep.settings "choices" (.list choices) }
    c.snapshot

/-- Keeps the result of the step, and puts it at hand. -/
def keepResult (step : Step) (result : Value) (c : Context) : Traced Context := do
  let c ← c.put s!"{step.place}.result" result
  c.put "result" result

/-- Keeps the result, runs the actions of the option, and notes the step that it goes on with. -/
def pursue (f : Frame) (step : Step) (result : Value) (o : ChoiceOption) (c : Context) :
    Traced Context := do
  let c ← keepResult step result c
  let c ← f.runActions o.actions c
  match o.nextStep.filter fun id => !isBlankText id with
  | none => pure c
  | some target => c.put s!"{step.place}.next_step_override" (.text target)

theorem selectOne_eq {result : Value} (stands : f.selected source answer = .ok result)
    (found : findChoice answer.render choices = .ok (some o)) :
    f.selectOne step source choices answer c = f.pursue step result o c := by
  unfold selectOne pursue keepResult
  rw [stands, found, bind_assoc]
  rfl

/-- What is asked is answered with the next answer of the host. -/
theorem askAmong_of_answer {β : Type} (answers : s.host.answers.map Script.next = some (.ok answer))
    (next : Value → Run β) :
    (askAmong step choices c >>= next) s
      = (askAmong step choices c >>= fun _ => next answer) s := by
  rw [Run.bind_apply, Run.bind_apply]
  cases asked : askAmong step choices c s with
  | mk outcome t =>
    cases outcome with
    | error stop => rfl
    | ok v =>
      obtain ⟨shownStep, u, presented, asked⟩ := Run.bind_apply_eq_ok asked
      have same := answers_of_ask asked
      rw [host_of_traced presented, answers] at same
      cases same
      rfl

/-- A player who is there, and selects one option, is shown what is offered and asked. -/
theorem playerChoice_of_answer (single : ∀ x, source = some x → x.count ≤ 1)
    (answers : s.host.answers.map Script.next = some (.ok answer)) :
    f.playerChoice step choices source c s = (do
      let shown ← f.offered choices source c
      let _ ← askAmong step shown c
      f.selectOne step source shown answer c : Run Context) s := by
  have attended : Run.isAttended s = (.ok true, s) := by
    change ((.ok s.host.answers.isSome, s) : Except Stop Bool × Session) = _
    rw [← Option.isSome_map, answers]
    rfl
  have selects : f.playerChoice step choices source c s = (do
      let shown ← f.offered choices source c
      let v ← askAmong step shown c
      f.selectOne step source shown v c : Run Context) s := by
    unfold playerChoice
    rw [Run.bind_of_ok attended]
    simp only [Bool.not_true, Bool.false_eq_true, if_false]
    cases source with
    | none =>
      simp only [askAmong, bind_assoc]
    | some x =>
      simp only [askAmong, bind_assoc, if_neg (Nat.not_lt_of_le (single x rfl))]
  rw [selects, Run.bind_apply, Run.bind_apply]
  cases offers : (liftM (f.offered choices source c) : Run (List Value)) s with
  | mk outcome t =>
    cases outcome with
    | error stop => rfl
    | ok shown =>
      have kept : t.host.answers.map Script.next = some (.ok answer) := by
        rw [host_of_traced offers, answers]
      exact askAmong_of_answer kept _

/-! ## §3 Options that their ids tell apart -/

/-- All choices can be read, as the options, and no two ids are the same text. -/
structure Distinguished (choices : List Value) (os : List ChoiceOption) : Prop where
  read : ReadAs choices os
  apart : (os.filterMap ChoiceOption.idText?).Nodup

/-- The option, or an option before it that has the text as its label: then the first of these. -/
def firstLabelled (wanted : String) (before : List ChoiceOption) (o : ChoiceOption) :
    ChoiceOption :=
  (before.find? fun other => other.labelText? == some wanted).getD o

theorem firstLabelled_cons (wanted : String) (other : ChoiceOption) (before : List ChoiceOption)
    (o : ChoiceOption) : firstLabelled wanted (other :: before) o
      = if other.labelText? == some wanted then other else firstLabelled wanted before o := by
  unfold firstLabelled
  rw [List.find?_cons]
  cases other.labelText? == some wanted <;> rfl

/-- Options before the one of the id have other ids. -/
theorem Distinguished.before_apart (well : Distinguished choices (before ++ o :: after))
    (named : o.idText? = some wanted) : ∀ other ∈ before, other.idText? ≠ some wanted := by
  intro other there same
  have distinct := well.apart
  rw [List.filterMap_append, List.filterMap_cons_some named] at distinct
  have first : wanted ∈ before.filterMap ChoiceOption.idText? :=
    List.mem_filterMap.mpr ⟨other, there, same⟩
  exact (List.nodup_append.mp distinct).2.2 wanted first wanted List.mem_cons_self rfl

/-- The text of an id is looked for among the labels of the options before it. -/
theorem find?_isWanted (named : o.idText? = some wanted)
    (apart : ∀ other ∈ before, other.idText? ≠ some wanted) :
    (before ++ o :: after).find? (isWanted wanted) = some (firstLabelled wanted before o) := by
  have own : isWanted wanted o = true := by simp [isWanted_eq, named]
  induction before with
  | nil =>
    rw [List.nil_append, List.find?_cons_of_pos own]
    rfl
  | cons other before ih =>
    obtain ⟨first, others⟩ := List.forall_mem_cons.mp apart
    have by_label : isWanted wanted other = (other.labelText? == some wanted) := by
      simp [isWanted_eq, first]
    rw [List.cons_append, List.find?_cons, by_label, ih others, firstLabelled_cons]
    cases other.labelText? == some wanted <;> rfl

/-- The option of the id is the one, unless a label before it is the text of the id. -/
theorem firstLabelled_eq_iff (named : o.idText? = some wanted)
    (apart : ∀ other ∈ before, other.idText? ≠ some wanted) :
    firstLabelled wanted before o = o ↔ ∀ other ∈ before, other.labelText? ≠ some wanted := by
  constructor
  · intro same other there labelled
    obtain ⟨first, found⟩ : ∃ first,
        before.find? (fun other => other.labelText? == some wanted) = some first := by
      refine Option.isSome_iff_exists.mp (List.find?_isSome.mpr ⟨other, there, ?_⟩)
      exact beq_iff_eq.mpr labelled
    unfold firstLabelled at same
    rw [found] at same
    have before_it : o ∈ before := same ▸ List.mem_of_find?_eq_some found
    exact apart o before_it named
  · intro free
    have none_found : before.find? (fun other => other.labelText? == some wanted) = none := by
      refine List.find?_eq_none.mpr ?_
      intro other there labelled
      exact free other there (beq_iff_eq.mp labelled)
    unfold firstLabelled
    rw [none_found]
    rfl

/-- The answer is the text of the id of one of the choices. Their ids are different texts.
* The actions that run are those of one option, and the run goes on with its next step, if it names
  one: the first option before that of the id whose label is the text, if there is one, and
  otherwise the option of the id.
* So an id selects its own option exactly if it is the label of no option before it; the labels of
  the options behind do not matter. -/
theorem id_selects_iff (f : Frame) (step : Step) (c : Context)
    (well : Distinguished choices (before ++ o :: after))
    (named : o.idText? = some answer.render)
    (answers : s.host.answers.map Script.next = some (.ok answer)) :
    f.playerChoice step choices none c s = (do
        let _ ← askAmong step choices c
        f.pursue step answer (firstLabelled answer.render before o) c : Run Context) s ∧
    (∀ target, f.Directs c s (.playerChoice choices none) target ↔
      (firstLabelled answer.render before o).nextStep = some target
        ∧ isBlankText target = false) ∧
    (firstLabelled answer.render before o = o ↔
      ∀ other ∈ before, other.labelText? ≠ some answer.render) := by
  have apart := well.before_apart named
  have found : findChoice answer.render choices
      = .ok (some (firstLabelled answer.render before o)) := by
    rw [findChoice_eq _ well.read, find?_isWanted named apart]
  have single : ∀ x : ChoiceSource, none = some x → x.count ≤ 1 := nofun
  refine ⟨?_, ?_, firstLabelled_eq_iff named apart⟩
  · rw [playerChoice_of_answer single answers]
    change (askAmong step choices c >>= fun _ => Run.traced _) s = _
    rw [selectOne_eq rfl found]
    rfl
  · intro target
    have chooses : f.Chooses c s choices none answer (firstLabelled answer.render before o) :=
      ⟨single, answers, choices, rfl, found⟩
    constructor
    · rintro ⟨chooses', next, written⟩
      obtain ⟨-, same⟩ := chooses.unique chooses'
      exact ⟨same ▸ next, written⟩
    · rintro ⟨next, written⟩
      exact .option chooses next written

/-- The settings of an action that notes where the player has gone. -/
def gone (place : String) : Value :=
  .mapping [("path", .text "variables.gone"), ("value", .text place)]

/-- Crossroads, where the label of the first way is the id of the second one. The id of the third
way is a number. -/
def crossroads : List Value := [
  .mapping [("id", .text "swamp"), ("label", .text "road"),
    ("actions", .list [.mapping [("set_value", gone "swamp")]]), ("next_step", .text "mire")],
  .mapping [("id", .text "road"), ("label", .text "Along the road"),
    ("actions", .list [.mapping [("set_value", gone "road")]]), ("next_step", .text "inn")],
  .mapping [("id", .int 3), ("label", .text "Stay"), ("next_step", .text "camp")]]

/-- The first way. -/
def swampWay : ChoiceOption where
  id := some (.text "swamp")
  label := some (.text "road")
  actions := [⟨"set_value", gone "swamp"⟩]
  nextStep := some "mire"

/-- The second way. -/
def roadWay : ChoiceOption where
  id := some (.text "road")
  label := some (.text "Along the road")
  actions := [⟨"set_value", gone "road"⟩]
  nextStep := some "inn"

/-- The third way. -/
def stay : ChoiceOption where
  id := some (.int 3)
  label := some (.text "Stay")
  nextStep := some "camp"

/-- The step at the crossroads. -/
def crossStep : Step where
  id := "cross"
  typeName := "player_choice"
  settings := [("choices", .list crossroads)]

theorem distinguished_crossroads :
    Distinguished crossroads [swampWay, roadWay, stay] where
  read := .cons (by rfl) (.cons (by rfl) (.cons (by rfl) .nil))
  apart := by decide +kernel

/-- The text 3 is no label, so it chooses the third way, although the id there is a number. -/
theorem three_stays :
    let f : Frame := ⟨{ catalog := {} }, {}, 0⟩
    let s : Session := { host := { answers := some ⟨[.ok (.text "3")], .error "gone"⟩ } }
    crossStep.kind = .ok (.playerChoice crossroads none)
      ∧ Distinguished crossroads ([swampWay, roadWay] ++ stay :: [])
      ∧ stay.idText? = some (Value.text "3").render
      ∧ f.playerChoice crossStep crossroads none .empty s = (do
          let _ ← askAmong crossStep crossroads .empty
          f.pursue crossStep (.text "3") stay .empty : Run Context) s
      ∧ f.Directs .empty s (.playerChoice crossroads none) "camp" := by
  intro f s
  have well : Distinguished crossroads ([swampWay, roadWay] ++ stay :: []) :=
    distinguished_crossroads
  have named : stay.idText? = some (Value.text "3").render := by rfl
  have answers : s.host.answers.map Script.next = some (.ok (.text "3")) := rfl
  have unlabelled : ∀ other ∈ [swampWay, roadWay],
      other.labelText? ≠ some (Value.text "3").render := by decide +kernel
  obtain ⟨runs, directs, own⟩ :=
    id_selects_iff f crossStep .empty well named answers
  have itself := own.mpr unlabelled
  rw [itself] at runs directs
  exact ⟨by rfl, well, named, runs, (directs "camp").mpr ⟨rfl, by rfl⟩⟩

/-- The answer is the id of the second way, and it is the result. But the first way is taken. -/
theorem road_leads_to_swamp :
    let f : Frame := ⟨{ catalog := {} }, {}, 0⟩
    let s : Session := { host := { answers := some ⟨[.ok (.text "road")], .error "gone"⟩ } }
    crossStep.kind = .ok (.playerChoice crossroads none)
      ∧ Distinguished crossroads [swampWay, roadWay, stay]
      ∧ roadWay.idText? = some (Value.text "road").render
      ∧ roadWay.actions = [⟨"set_value", gone "road"⟩] ∧ roadWay.nextStep = some "inn"
      ∧ ∃ d t, f.playerChoice crossStep crossroads none .empty s = (.ok d, t)
        ∧ (d.get "result").bind Value.asText? = some "road"
        ∧ (d.get "variables.gone").bind Value.asText? = some "swamp"
        ∧ (d.get "steps.cross.next_step_override").bind Value.asText? = some "mire" := by
  intro f s
  let strays (d : Context) : Bool :=
    (d.get "result").bind Value.asText? == some "road"
      && (d.get "variables.gone").bind Value.asText? == some "swamp"
      && (d.get "steps.cross.next_step_override").bind Value.asText? == some "mire"
  have ends : (f.playerChoice crossStep crossroads none .empty s).1.toOption.any strays = true := by
    decide +kernel
  obtain ⟨d, t, ran, passes⟩ := Run.exists_of_test ends
  obtain ⟨passes, override⟩ := Bool.and_eq_true_iff.mp passes
  obtain ⟨result, went⟩ := Bool.and_eq_true_iff.mp passes
  exact ⟨by rfl, distinguished_crossroads, by rfl, rfl, rfl, d, t, ran, eq_of_beq result,
    eq_of_beq went, eq_of_beq override⟩

end Frame

end Tabletop
