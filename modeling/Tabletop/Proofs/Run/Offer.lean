/-
Tabletop.Proofs.Run.Offer — by which texts an offer is accepted.

What a table offers the player has an id, the text of an entry, and a label
that a template makes of the entry. The options have no actions, so whether
an answer is accepted is a matter of its result. If the entries are texts,
the result is the answer itself, and any answer is accepted where one is. If
they are objects of a model, the answer is looked up among the entries by
its text, and no label is known there: then a label that is neither the id
nor the label of another option is accepted only if it is its own id.

  §1 Writes of different values
  §2 Options made for the player
  §3 Answers that are accepted
-/
import Tabletop.Proofs.Run.Attempts
import Tabletop.Proofs.Run.Choosing

namespace Tabletop

open Traced

/-! ## §1 Writes of different values -/

/-- Whether something can be written inside a value does not depend on what is written. -/
theorem Value.exists_writeAt_of_writeAt {path : String} {new v w : Value} {passed p : Path}
    (h : Context.writeAt path new passed v p = .ok w) (other : Value) :
    ∃ x, Context.writeAt path other passed v p = .ok x := by
  induction p generalizing passed v w with
  | nil => exact ⟨other, rfl⟩
  | cons segment rest ih =>
    rcases writeAt_cases h with ⟨fields, below, there, written, rfl⟩
        | ⟨items, i, item, below, rfl, position, found, written, rfl⟩
    · obtain ⟨x, written'⟩ := ih written
      have opened : (if v.isNull then .mapping [] else v) = Value.mapping fields := by
        cases v <;> cases there <;> rfl
      refine ⟨.mapping (Entries.insert fields segment x), ?_⟩
      unfold Context.writeAt
      rw [opened]
      unfold inner at written'
      simp only [written']
      rfl
    · obtain ⟨x, written'⟩ := ih written
      refine ⟨.list (items.set i x), ?_⟩
      simp only [Context.writeAt, Value.isNull, Bool.false_eq_true, if_false, position, found,
        written']
      rfl

namespace Context

variable {c d : Context}

/-- Which names are reserved does not depend on what an entry holds. -/
theorem isReserved_putSlot (c : Context) (space entry : String) (slot slot' : Slot)
    (name : String) :
    (c.putSlot space entry slot).isReserved name
      = (c.putSlot space entry slot').isReserved name := by
  rw [Bool.eq_iff_iff, ← Bool.not_eq_false, ← Bool.not_eq_false, isReserved_eq_false_iff,
    isReserved_eq_false_iff, mem_spaces_putSlot, mem_spaces_putSlot]

/-- Whether a write succeeds, and which names are reserved after it, does not depend on what is
written. -/
theorem exists_write_of_write {state : SlotState} {v : Value} {p : Path}
    (h : c.write state v p = .ok d) (other : Value) :
    ∃ e, c.write state other p = .ok e ∧ ∀ name, e.isReserved name = d.isReserved name := by
  rcases write_cases h with ⟨name, rfl, free, rfl⟩ | ⟨space, entry, rfl, rfl⟩
      | ⟨space, entry, segment, rest, w, rfl, written, rfl⟩
  · exact ⟨_, write_alias free state other, fun _ => rfl⟩
  · exact ⟨_, write_slot c state other space entry, fun _ => isReserved_putSlot ..⟩
  · obtain ⟨x, written'⟩ := Value.exists_writeAt_of_writeAt written other
    rw [write_below, written']
    exact ⟨_, rfl, fun _ => isReserved_putSlot ..⟩

end Context

namespace Frame

variable {f : Frame} {step : Step} {c d : Context} {s : Session} {choices shown : List Value}
  {source : ChoiceSource} {t : Table} {id : String} {answer other result : Value}
  {rest : Script (Except String Value)}

/-- A step keeps any result where it keeps one. -/
theorem exists_keepResult (h : (keepResult step result c).outcome = .ok d) (other : Value) :
    ∃ e, (keepResult step other c).outcome = .ok e := by
  obtain ⟨m, kept, named⟩ := outcome_bind_eq_ok.mp h
  obtain ⟨n, kept', reserved⟩ :=
    Context.exists_write_of_write (Context.outcome_writeTraced_eq_ok.mp kept) other
  have free : m.isReserved "result" = false := by
    rcases Context.write_cases (Context.outcome_writeTraced_eq_ok.mp named) with
      ⟨name, path, free, _⟩ | ⟨space, entry, path, _⟩ | ⟨space, entry, segment, more, w, path, _⟩
    · cases path
      exact free
    · cases path
    · cases path
  have named' : n.write .plain other ["result"] = .ok (n.putAlias "result" other) :=
    Context.write_alias ((reserved _).trans free) .plain other
  exact ⟨_, outcome_bind_eq_ok.mpr ⟨n, Context.outcome_writeTraced_eq_ok.mpr kept',
    Context.outcome_writeTraced_eq_ok.mpr named'⟩⟩

/-! ## §2 Options made for the player -/

theorem generatedChoice_inj {name label name' label' : String} :
    generatedChoice name label = generatedChoice name' label' ↔ name = name' ∧ label = label' := by
  simp [generatedChoice]

/-- An option that is found among those made for the player has nothing to run, and names no step to
go on with. -/
theorem findChoice_generated (wanted : String)
    (made : ∀ choice ∈ choices, ∃ name label, choice = generatedChoice name label) :
    ∃ found, findChoice wanted choices = .ok found
      ∧ ∀ o ∈ found, o.actions = [] ∧ o.nextStep = none := by
  induction choices with
  | nil => exact ⟨none, rfl, nofun⟩
  | cons choice rest ih =>
    obtain ⟨⟨name, label, rfl⟩, others⟩ := List.forall_mem_cons.mp made
    let o : ChoiceOption := { id := some (.text name), label := some (.text label) }
    have read : choiceOption (generatedChoice name label) = .ok o := by rfl
    rw [findChoice, read]
    change ∃ found, (if isWanted wanted o then _ else _) = _ ∧ _
    split
    · refine ⟨some o, rfl, ?_⟩
      rintro _ ⟨rfl⟩
      exact ⟨rfl, rfl⟩
    · exact ih others

/-- Every entry that is not null is offered, with its text as the id. -/
theorem mem_tableChoices {template : String} {entries : List TableEntry} {e : TableEntry}
    (h : (tableChoices c template entries).outcome = .ok shown) (there : e ∈ entries)
    (filled : e.value.isNull = false) : ∃ label, generatedChoice e.value.render label ∈ shown := by
  induction entries generalizing shown with
  | nil => cases there
  | cons first rest ih =>
    unfold tableChoices at h
    split at h
    · rename_i null
      rcases List.mem_cons.mp there with rfl | there
      · rw [filled] at null
        cases null
      · exact ih h there
    · obtain ⟨label, _, h⟩ := outcome_bind_eq_ok.mp h
      obtain ⟨more, offered, h⟩ := outcome_bind_eq_ok.mp h
      cases h
      rcases List.mem_cons.mp there with rfl | there
      · exact ⟨label, List.mem_cons_self⟩
      · obtain ⟨label', listed⟩ := ih offered there
        exact ⟨label', List.mem_cons_of_mem _ listed⟩

/-- What a source with a table offers is made of the entries of the table. -/
theorem choicesOf_table (table : source.table = some id) (found : f.table id = .ok t)
    (h : (f.choicesOf source c).outcome = .ok shown) :
    (tableChoices c (source.display.getD entryLabel) t.entries).outcome = .ok shown := by
  unfold choicesOf at h
  rw [table] at h
  obtain ⟨read, same, h⟩ := outcome_bind_eq_ok.mp h
  change f.table id = .ok read at same
  rw [found] at same
  cases same
  exact h

/-- Of an option made for the player nothing is done but keeping the result. -/
theorem selectOne_generated
    (made : ∀ choice ∈ shown, ∃ name label, choice = generatedChoice name label)
    (stands : f.selected (some source) answer = .ok result) :
    f.selectOne step (some source) shown answer c = keepResult step result c := by
  obtain ⟨found, finds, bare⟩ := findChoice_generated answer.render made
  unfold selectOne keepResult
  rw [stands, finds]
  have given {α : Type} (a : α) : Traced.ofExcept (.ok a) = pure a := rfl
  cases found with
  | none => simp only [given, pure_bind, bind_pure]
  | some o =>
    obtain ⟨quiet, straight⟩ := bare o rfl
    have nothing (c : Context) : f.runActions o.actions c = pure c := by
      rw [quiet]
      rfl
    simp only [given, pure_bind, nothing, straight, Option.filter_none, bind_pure]

/-! ## §3 Answers that are accepted -/

/-- The session in which the host answers next with the value. -/
def answering (s : Session) (answer : Value) (rest : Script (Except String Value)) : Session :=
  { s with host := { s.host with answers := some (rest.prepend [.ok answer]) } }

theorem answers_answering (s : Session) (answer : Value) (rest : Script (Except String Value)) :
    (answering s answer rest).host.answers.map Script.next = some (.ok answer) := rfl

/-- The step succeeds if the player gives the answer. -/
def Welcomes (f : Frame) (step : Step) (choices : List Value) (source : ChoiceSource) (c : Context)
    (s : Session) (rest : Script (Except String Value)) (answer : Value) : Prop :=
  ∃ d u, f.playerChoice step choices (some source) c (answering s answer rest) = (.ok d, u)

/-- The next answer of the host is what a request gets. -/
theorem exists_ask (answers : s.host.answers.map Script.next = some (.ok answer)) (step : Step)
    (snapshot : Value) : ∃ u, Run.ask step snapshot s = (.ok answer, u) := by
  obtain ⟨script, installed, next⟩ := Option.map_eq_some_iff.mp answers
  unfold Run.ask
  rw [Run.bind_apply, Run.nextReply_of_some installed, next]
  exact ⟨_, rfl⟩

/-- The next answer of the host is what a step that can be shown gets. -/
theorem exists_askAmong {shownStep : Step} (shown : List Value)
    (presents : (c.present step).outcome = .ok shownStep)
    (answers : s.host.answers.map Script.next = some (.ok answer)) :
    ∃ u, askAmong step shown c s = (.ok answer, u) := by
  have presented : Run.traced (c.present step) s
      = (.ok shownStep, s.reported (c.present step).events) :=
    Run.traced_of_outcome presents s
  have kept : (s.reported (c.present step).events).host.answers.map Script.next
      = some (.ok answer) := answers
  obtain ⟨u, asked⟩ := exists_ask kept
    { shownStep with settings := Entries.insert shownStep.settings "choices" (.list shown) }
    c.snapshot
  exact ⟨u, (Run.bind_of_ok presented).trans asked⟩

theorem single_of_count (single : source.count ≤ 1) :
    ∀ x, some source = some x → x.count ≤ 1 := by
  rintro _ ⟨rfl⟩
  exact single

/-- Where something is offered, and the step can be shown, what is left to do is what the answer
selects. -/
theorem exists_playerChoice {shownStep : Step} (choices : List Value) (single : source.count ≤ 1)
    (offers : (f.choicesOf source c).outcome = .ok shown)
    (presents : (c.present step).outcome = .ok shownStep)
    (answers : s.host.answers.map Script.next = some (.ok answer)) :
    ∃ u, f.playerChoice step choices (some source) c s
      = Run.traced (f.selectOne step (some source) shown answer c) u := by
  have offered : Run.traced (f.choicesOf source c) s
      = (.ok shown, s.reported (f.choicesOf source c).events) :=
    Run.traced_of_outcome offers s
  obtain ⟨u, asked⟩ : ∃ u, askAmong step shown c (s.reported (f.choicesOf source c).events)
      = (.ok answer, u) := exists_askAmong shown presents answers
  refine ⟨u, ?_⟩
  rw [playerChoice_of_answer (single_of_count single) answers]
  exact (Run.bind_of_ok offered).trans (Run.bind_of_ok asked)

/-- An answer is accepted if something is offered, the step can be shown, and the answer selects
something. -/
theorem welcomes_iff (single : source.count ≤ 1) :
    f.Welcomes step choices source c s rest answer ↔
      ∃ shown shownStep d, (f.choicesOf source c).outcome = .ok shown
        ∧ (c.present step).outcome = .ok shownStep
        ∧ (f.selectOne step (some source) shown answer c).outcome = .ok d := by
  constructor
  · rintro ⟨d, u, ran⟩
    rw [playerChoice_of_answer (single_of_count single) (answers_answering s answer rest)] at ran
    obtain ⟨shown, _, offered, ran⟩ := Run.bind_apply_eq_ok ran
    obtain ⟨_, _, asked, ran⟩ := Run.bind_apply_eq_ok ran
    obtain ⟨shownStep, _, presented, _⟩ := Run.bind_apply_eq_ok asked
    exact ⟨shown, shownStep, d, Run.gives_lift ⟨_, _, offered⟩, Run.gives_lift ⟨_, _, presented⟩,
      Run.gives_lift ⟨_, _, ran⟩⟩
  · rintro ⟨shown, shownStep, d, offers, presents, selects⟩
    obtain ⟨u, runs⟩ := exists_playerChoice choices single offers presents
      (answers_answering s answer rest)
    exact ⟨d, _, runs.trans (Run.traced_of_outcome selects u)⟩

/-- If nothing stands for the answer, then the step stops with the failure. -/
theorem playerChoice_of_selected {shownStep : Step} {failure : Failure} (single : source.count ≤ 1)
    (offers : (f.choicesOf source c).outcome = .ok shown)
    (presents : (c.present step).outcome = .ok shownStep)
    (answers : s.host.answers.map Script.next = some (.ok answer))
    (fails : f.selected (some source) answer = .error failure) :
    (f.playerChoice step choices (some source) c s).1 = .error (.failed ⟨failure, none⟩) := by
  obtain ⟨u, runs⟩ := exists_playerChoice choices single offers presents answers
  rw [runs]
  refine Run.traced_fst_of_error ?_ u
  unfold selectOne
  rw [fails]
  rfl

section

variable (table : source.table = some id) (found : f.table id = .ok t)

include table found

theorem selected_table (answer : Value) : f.selected (some source) answer = (
    if !t.hasModelEntries then .ok answer
    else match t.entries.find? fun e => !e.value.isNull && e.value.render == answer.render with
      | none => .error (.unknownSelection answer.render id)
      | some e =>
          match f.engine.make.instantiateLenient t.entryType (entryData t.entryType e.value) with
          | .ok object => .ok object.value
          | .error error => .error (.within (.selection t.entryType) (.instantiation error))) := by
  unfold selected
  rw [Option.bind_some, table]
  change f.table id >>= _ = _
  rw [found]
  rfl

/-- What stands for an entry of a table of texts is the answer itself. -/
theorem selected_of_texts (texts : t.hasModelEntries = false) (answer : Value) :
    f.selected (some source) answer = .ok answer := by
  rw [selected_table table found, texts]
  rfl

/-- An object for an entry of a table of models depends on the text of the answer only. -/
theorem selected_congr (models : t.hasModelEntries = true) (same : answer.render = other.render) :
    f.selected (some source) answer = f.selected (some source) other := by
  rw [selected_table table found, selected_table table found, models, same]
  rfl

/-- An answer that is not offered as an id stands for no entry of a table of models. -/
theorem selected_of_unoffered (models : t.hasModelEntries = true)
    (offers : (f.choicesOf source c).outcome = .ok shown)
    (unoffered : ∀ label, generatedChoice answer.render label ∉ shown) :
    f.selected (some source) answer = .error (.unknownSelection answer.render id) := by
  have none_named :
      (t.entries.find? fun e => !e.value.isNull && e.value.render == answer.render) = none := by
    refine List.find?_eq_none.mpr ?_
    intro e there named
    obtain ⟨filled, same⟩ := Bool.and_eq_true_iff.mp named
    obtain ⟨label, listed⟩ := mem_tableChoices (choicesOf_table table found offers) there
      (Bool.not_eq_true' _ ▸ filled)
    rw [eq_of_beq same] at listed
    exact unoffered label listed
  rw [selected_table table found, models, none_named]
  rfl

/-- Where one answer is accepted for an entry of a table of texts, any answer is. -/
theorem welcomes_of_texts (single : source.count ≤ 1) (texts : t.hasModelEntries = false)
    (h : f.Welcomes step choices source c s rest answer) (other : Value) :
    f.Welcomes step choices source c s rest other := by
  obtain ⟨shown, shownStep, d, offers, presents, selects⟩ := (welcomes_iff single).mp h
  have made := mem_of_tableChoices (choicesOf_table table found offers)
  have stands := selected_of_texts table found texts
  rw [selectOne_generated made (stands answer)] at selects
  obtain ⟨e, kept⟩ := exists_keepResult selects other
  exact (welcomes_iff single).mpr ⟨shown, shownStep, e, offers, presents,
    by rw [selectOne_generated made (stands other), kept]⟩

/-- For an entry of a table of models, answers of the same text are accepted alike. -/
theorem welcomes_of_render (single : source.count ≤ 1) (models : t.hasModelEntries = true)
    (h : f.Welcomes step choices source c s rest answer) (same : other.render = answer.render) :
    f.Welcomes step choices source c s rest other := by
  obtain ⟨shown, shownStep, d, offers, presents, selects⟩ := (welcomes_iff single).mp h
  have alike : f.selectOne step (some source) shown other c
      = f.selectOne step (some source) shown answer c := by
    unfold selectOne
    rw [selected_congr table found models same, same]
  exact (welcomes_iff single).mpr ⟨shown, shownStep, d, offers, presents, by rw [alike, selects]⟩

end

/-- A table offers options, and the label of one of them is neither the id nor the label of another
one. Let its id be accepted.
* Then its label is accepted exactly if the entries of the table are texts, or it is the id as well.
* If the entries are objects of a model, the step fails with any other label: it says that the table
  has no such entry. -/
theorem label_accepted_iff {before after : List Value} {name label : String} (step : Step)
    (choices : List Value)
    (table : source.table = some id) (found : f.table id = .ok t) (single : source.count ≤ 1)
    (offers : (f.choicesOf source c).outcome
      = .ok (before ++ generatedChoice name label :: after))
    (alone : ∀ name' label', generatedChoice name' label' ∈ before ++ after →
      label ≠ name' ∧ label ≠ label')
    (named : answer.render = name) (labelled : other.render = label)
    (accepted : f.Welcomes step choices source c s rest answer) :
    (f.Welcomes step choices source c s rest other ↔ t.hasModelEntries = false ∨ label = name) ∧
    (t.hasModelEntries = true → label ≠ name →
      (f.playerChoice step choices (some source) c (answering s other rest)).1
        = .error (.failed ⟨.unknownSelection label id, none⟩)) := by
  have fails : t.hasModelEntries = true → label ≠ name →
      (f.playerChoice step choices (some source) c (answering s other rest)).1
        = .error (.failed ⟨.unknownSelection label id, none⟩) := by
    intro models differs
    have unoffered : ∀ label', generatedChoice other.render label'
        ∉ before ++ generatedChoice name label :: after := by
      intro label' listed
      rw [labelled] at listed
      rcases List.mem_append.mp listed with there | there
      · exact (alone _ _ (List.mem_append_left _ there)).1 rfl
      · rcases List.mem_cons.mp there with itself | there
        · exact differs (generatedChoice_inj.mp itself).1
        · exact (alone _ _ (List.mem_append_right _ there)).1 rfl
    have unknown := selected_of_unoffered table found models offers unoffered
    obtain ⟨_, shownStep, _, _, presents, _⟩ := (welcomes_iff single).mp accepted
    exact playerChoice_of_selected single offers presents (answers_answering s other rest)
      (labelled ▸ unknown)
  refine ⟨⟨?_, ?_⟩, fails⟩
  · rintro ⟨d, u, ran⟩
    by_contra neither
    obtain ⟨models, differs⟩ := not_or.mp neither
    have stopped := fails (Bool.not_eq_false _ ▸ models) differs
    rw [ran] at stopped
    cases stopped
  · rintro (texts | same)
    · exact welcomes_of_texts table found single texts accepted other
    · cases models : t.hasModelEntries with
      | false => exact welcomes_of_texts table found single models accepted other
      | true =>
        have renders : other.render = answer.render := by rw [labelled, named, same]
        exact welcomes_of_render table found single models accepted renders

/-- The id and the label of an option made for the player. -/
def presented? : Value → Option (String × String)
  | .mapping [(_, .text name), (_, .text label)] => some (name, label)
  | _ => none

/-- Options made for the player are told by their ids and labels. -/
theorem eq_of_presented {pairs : List (String × String)}
    (made : ∀ choice ∈ shown, ∃ name label, choice = generatedChoice name label)
    (same : shown.map presented? = pairs.map some) :
    shown = pairs.map fun pair => generatedChoice pair.1 pair.2 := by
  induction shown generalizing pairs with
  | nil =>
    rw [List.map_nil, eq_comm, List.map_eq_nil_iff] at same
    rw [same, List.map_nil]
  | cons choice rest ih =>
    obtain ⟨⟨name, label, rfl⟩, others⟩ := List.forall_mem_cons.mp made
    cases pairs with
    | nil => cases same
    | cons pair pairs =>
      obtain ⟨first, later⟩ := List.cons.inj same
      cases Option.some.inj first
      rw [ih others later, List.map_cons]

theorem offers_of_test (pairs : List (String × String)) (table : source.table = some id)
    (found : f.table id = .ok t)
    (test : (f.choicesOf source c).outcome.toOption.map (·.map presented?)
      = some (pairs.map some)) :
    (f.choicesOf source c).outcome
      = .ok (pairs.map fun pair => generatedChoice pair.1 pair.2) := by
  cases offers : (f.choicesOf source c).outcome with
  | error failure =>
    rw [offers] at test
    cases test
  | ok shown =>
    rw [offers] at test
    rw [eq_of_presented (mem_of_tableChoices (choicesOf_table table found offers))
      (Option.some.inj test)]

/-- A table of texts. -/
def weapons : Table where
  id := "weapons"
  entryType := "str"
  entries := [⟨.text "1-3", .text "sword"⟩, ⟨.text "4-6", .text "axe"⟩]

/-- A table of objects of a model. -/
def monsters : Table where
  id := "monsters"
  entryType := "monster"
  entries := [⟨.text "1-3", .text "goblin"⟩, ⟨.text "4-6", .text "troll"⟩]

/-- A catalog with both tables. -/
def dungeon : Catalog where
  models := [("monster", { id := "monster" })]
  tables := [("weapons", weapons), ("monsters", monsters)]

/-- A step whose choices are the entries of the table. -/
def pickStep (table : String) : Step where
  id := "pick"
  typeName := "player_choice"
  settings := [("choice_source", .mapping [("table", .text table)])]

/-- The player says nothing. -/
def unheard : Script (Except String Value) := ⟨[], .error "the player is silent"⟩

/-- A sword may be called by its label. -/
theorem sword_is_taken :
    let f : Frame := ⟨{ catalog := dungeon }, {}, 0⟩
    let source : ChoiceSource := { table := some "weapons" }
    (pickStep "weapons").kind = .ok (.playerChoice [] (some source))
      ∧ (f.choicesOf source .empty).outcome
        = .ok ([] ++ generatedChoice "sword" "Sword" :: [generatedChoice "axe" "Axe"])
      ∧ f.Welcomes (pickStep "weapons") [] source .empty { host := {} } unheard (.text "sword")
      ∧ f.Welcomes (pickStep "weapons") [] source .empty { host := {} } unheard (.text "Sword") := by
  intro f source
  have offers : (f.choicesOf source .empty).outcome
      = .ok ([] ++ generatedChoice "sword" "Sword" :: [generatedChoice "axe" "Axe"]) :=
    offers_of_test (t := weapons) [("sword", "Sword"), ("axe", "Axe")] rfl rfl
      (by decide +kernel)
  have alone : ∀ name' label', generatedChoice name' label' ∈ [] ++ [generatedChoice "axe" "Axe"] →
      "Sword" ≠ name' ∧ "Sword" ≠ label' := by
    intro name' label' listed
    obtain ⟨rfl, rfl⟩ := generatedChoice_inj.mp (List.mem_singleton.mp listed)
    decide
  have ends : (f.playerChoice (pickStep "weapons") [] (some source) .empty
      (answering { host := {} } (.text "sword") unheard)).1.toOption.any (fun _ => true) = true := by
    decide +kernel
  obtain ⟨d, u, ran, _⟩ := Run.exists_of_test ends
  have named : (Value.text "sword").render = "sword" := rfl
  have labelled : (Value.text "Sword").render = "Sword" := rfl
  obtain ⟨accepts, _⟩ := label_accepted_iff (pickStep "weapons") [] rfl rfl (by decide) offers alone
    named labelled ⟨d, u, ran⟩
  exact ⟨by rfl, offers, ⟨d, u, ran⟩, accepts.mpr (Or.inl (by decide))⟩

/-- A goblin may not: the step fails, and says that there is no such entry. -/
theorem goblin_is_refused :
    let f : Frame := ⟨{ catalog := dungeon }, {}, 0⟩
    let source : ChoiceSource := { table := some "monsters" }
    (pickStep "monsters").kind = .ok (.playerChoice [] (some source))
      ∧ (f.choicesOf source .empty).outcome
        = .ok [generatedChoice "goblin" "Goblin", generatedChoice "troll" "Troll"]
      ∧ f.Welcomes (pickStep "monsters") [] source .empty { host := {} } unheard (.text "goblin")
      ∧ ¬ f.Welcomes (pickStep "monsters") [] source .empty { host := {} } unheard (.text "Goblin") := by
  intro f source
  have offers : (f.choicesOf source .empty).outcome
      = .ok [generatedChoice "goblin" "Goblin", generatedChoice "troll" "Troll"] :=
    offers_of_test (t := monsters) [("goblin", "Goblin"), ("troll", "Troll")] rfl rfl
      (by decide +kernel)
  have ends : (f.playerChoice (pickStep "monsters") [] (some source) .empty
      (answering { host := {} } (.text "goblin") unheard)).1.toOption.any (fun _ => true) = true := by
    decide +kernel
  have stops : (f.playerChoice (pickStep "monsters") [] (some source) .empty
      (answering { host := {} } (.text "Goblin") unheard)).1.toOption.isNone = true := by
    decide +kernel
  obtain ⟨d, u, ran, _⟩ := Run.exists_of_test ends
  refine ⟨by rfl, offers, ⟨d, u, ran⟩, ?_⟩
  rintro ⟨e, v, ran'⟩
  rw [ran'] at stops
  cases stops

end Frame

end Tabletop
