/-
Tabletop.Proofs.Record.RoundTrip — records survive being written and read.

A record that was read from a value is read again from what is written of it.
Not every record is: a step with a setting of the name of a field, a default
that is null, a group with a node named `type`, or a temperature that is no
number would not come back. Reading gives none of these. So every kind of
record has two lemmas here, that what is read is sound and that what is sound
comes back, and a record is sound if what it holds is.

  §1 Plain values
  §2 Flows
  §3 Models
  §4 Tables, settings and prompts
  §5 Catalogs and configurations
  §6 All records
-/
import Tabletop.Catalog
import Tabletop.Config
import Tabletop.Proofs.Number.Finite
import Tabletop.Proofs.Record.Fields

namespace Tabletop

open Tabletop.Field

/-! ## §1 Plain values -/

@[simp] theorem readText_text (s : String) : readText (.text s) = .ok s := rfl

@[simp] theorem readFlag_bool (flag : Bool) : readFlag (.bool flag) = .ok flag := rfl

@[simp] theorem readValue_eq (v : Value) : readValue v = .ok v := rfl

@[simp] theorem readOptional_text (o : Option String) :
    readOptional readText (writeOptional .text o) = .ok o :=
  readOptional_writeOptional fun s _ => ⟨rfl, readText_text s⟩

@[simp] theorem readListOf_text (xs : List String) :
    readListOf readText (.list (xs.map .text)) = .ok xs :=
  readListOf_map fun s _ => readText_text s

theorem readBelow_natCast {bound n : Nat} (h : n < bound) : readBelow bound (.int n) = .ok n := by
  have inside : (decide (0 ≤ (n : Int)) && decide ((n : Int) < bound)) = true := by
    simpa using h
  rw [readBelow, if_pos inside, Int.toNat_natCast]

theorem lt_of_readBelow {bound n : Nat} {v : Value} (h : readBelow bound v = .ok n) :
    n < bound := by
  cases v with
  | int m =>
    change (if 0 ≤ m && m < bound then Except.ok m.toNat else _) = Except.ok n at h
    split at h
    · rename_i inside
      simp only [Bool.and_eq_true, decide_eq_true_eq] at inside
      have value := Except.ok.inj h
      omega
    · cases h
  | null | bool | float | text | list | mapping => cases h

/-- A double that is read from a value with 64-bit numbers is finite. -/
theorem isFinite_of_readDouble {v : Value} {x : Float} (fits : v.NumbersFit)
    (h : readDouble v = .ok x) : x.isFinite = true := by
  cases fits with
  | int low high =>
    cases h
    exact isFinite_ofInt low high
  | float y =>
    change (if y.isFinite then Except.ok y else _) = Except.ok x at h
    split at h
    · rename_i finite
      rwa [← Except.ok.inj h]
    · cases h
  | null | bool | text | list | mapping => cases h

/-! ## §2 Flows -/

theorem FlowField.read_write (d : FlowField) : FlowField.read d.write = .ok d := by
  refine readRecord_writeRecord (by decide) ?_
  simp [fields, rebuilds_needed, rebuilds_free, rebuilds_nil]

theorem Action.read_write (a : Action) : Action.read a.write = .ok a := rfl

/-- A value by itself is an action exactly if it is one as part of a record. -/
theorem Action.ofValue_eq_ok_iff {v : Value} {a : Action} :
    Action.ofValue v = .ok a ↔ Action.read v = .ok a := by
  match v with
  | .mapping [(kind, payload)] =>
    change Except.ok _ = _ ↔ Except.ok _ = _
    simp only [Except.ok.injEq]
  | .mapping [] | .mapping (_ :: _ :: _) | .null | .bool _ | .int _ | .float _ | .text _
  | .list _ => constructor <;> intro h <;> cases h

/-- The settings belong to none of the fields that every step has. -/
def Step.Sound (s : Step) : Prop := ∀ e ∈ s.settings, ∀ f ∈ fields, f.answersTo e.1 = false

theorem Step.sound_of_read {v : Value} {s : Step} (h : Step.read v = .ok s) : s.Sound := by
  cases v with
  | mapping entries =>
    obtain ⟨⟨record, left⟩, read, rfl⟩ := map_eq_ok_iff.mp h
    exact unanswered_of_readEntries read
  | null | bool | int | float | text | list => cases h

theorem Step.read_write {s : Step} (sound : s.Sound) : Step.read s.write = .ok s := by
  have rebuilds : Rebuilds fields {} { s with settings := [] } := by
    simp [fields, rebuilds_needed, rebuilds_free, rebuilds_nil,
      readListOf_map fun a (_ : a ∈ _) => Action.read_write a]
  have read : readEntries fields [] {} (writeFields fields s ++ s.settings)
      = .ok ({ s with settings := [] }, s.settings) :=
    readEntries_writeFields (by decide) sound (show fields = [] ++ fields from rfl)
      (fun _ _ => List.not_mem_nil) (fun _ hf => absurd hf List.not_mem_nil) rebuilds
  rw [Step.write, Step.read, read]
  rfl

def Flow.Sound (f : Flow) : Prop := ∀ s ∈ f.steps, s.Sound

theorem Flow.sound_of_read {v : Value} {f : Flow} (fits : v.NumbersFit) (h : Flow.read v = .ok f) :
    f.Sound := by
  refine good_of_readRecord ?_ fits (fun _ hs => absurd hs List.not_mem_nil) h
  simp only [fields, List.forall_mem_cons, keeps_needed, keeps_free, List.not_mem_nil,
    false_imp_iff, implies_true, and_true]
  refine ⟨?id, ?name, ?description, ?inputs, ?outputs, ?locals, ?steps, ?resume⟩
  case steps =>
    intro v steps _ fits read _ s hs
    obtain ⟨w, _, read⟩ := exists_of_mem_readListOf read fits hs
    exact Step.sound_of_read read
  all_goals exact fun _ _ _ _ _ sound => sound

theorem Flow.read_write {f : Flow} (sound : f.Sound) : Flow.read f.write = .ok f := by
  refine readRecord_writeRecord (by decide) ?_
  simp [fields, rebuilds_needed, rebuilds_free, rebuilds_nil,
    readListOf_map fun d (_ : d ∈ _) => FlowField.read_write d,
    readListOf_map fun s hs => Step.read_write (sound s hs)]

/-! ## §3 Models -/

/-- The default is not null: null is read as no default. -/
def AttributeDefinition.Sound (d : AttributeDefinition) : Prop := d.default ≠ some .null

theorem AttributeDefinition.sound_of_read {v : Value} {d : AttributeDefinition}
    (fits : v.NumbersFit) (h : readRecord fields {} v = .ok d) : d.Sound := by
  have empty : AttributeDefinition.Sound {} := fun h => by cases h
  refine good_of_readRecord ?_ fits empty h
  simp only [fields, List.forall_mem_cons, keeps_needed, keeps_free, List.not_mem_nil,
    false_imp_iff, implies_true, and_true]
  refine ⟨?type, ?default, ?range, ?options, ?derived, ?element, ?optional⟩
  case default =>
    rintro v x d _ read _ rfl
    obtain ⟨present, value⟩ := readOptional_eq_some read
    cases value
    cases present
  all_goals exact fun _ _ _ _ _ sound => sound

theorem AttributeDefinition.read_write {d : AttributeDefinition} (sound : d.Sound) :
    readRecord fields {} (writeRecord fields d) = .ok d := by
  have default : readOptional readValue (writeOptional id d.default) = .ok d.default := by
    refine readOptional_writeOptional fun v hv => ⟨?_, rfl⟩
    cases v with
    | null => exact absurd hv sound
    | _ => rfl
  have options : readOptional (readListOf readValue) (writeOptional .list d.options)
      = .ok d.options := by
    refine readOptional_writeOptional fun items _ => ⟨rfl, ?_⟩
    have back : readListOf readValue (.list (items.map id)) = .ok items :=
      readListOf_map fun v _ => readValue_eq v
    rwa [List.map_id] at back
  refine readRecord_writeRecord (by decide) ?_
  simp [fields, rebuilds_needed, rebuilds_free, rebuilds_nil, default, options]

/-- Every definition of the tree is sound, and no group has a node named `type`. -/
inductive Attribute.Sound : Attribute → Prop
  | leaf {d : AttributeDefinition} (sound : d.Sound) : Sound (.leaf d)
  | group {children : Attributes} (untyped : Entries.has children "type" = false)
      (each : ∀ e ∈ children, Sound e.2) : Sound (.group children)

mutual

theorem Attribute.sound_of_read {v : Value} {a : Attribute} (fits : v.NumbersFit)
    (h : Attribute.read v = .ok a) : a.Sound := by
  match v with
  | .text typeName =>
    rw [Attribute.read] at h
    cases h
    exact .leaf fun h => by cases h
  | .mapping entries =>
    rw [Attribute.read] at h
    split at h
    · obtain ⟨d, read, rfl⟩ := map_eq_ok_iff.mp h
      exact .leaf (AttributeDefinition.sound_of_read fits read)
    · rename_i untyped
      obtain ⟨children, read, rfl⟩ := map_eq_ok_iff.mp h
      obtain ⟨names, each⟩ := sound_of_readGroup (Value.numbersFit_mapping.mp fits) read
      refine .group ?_ each
      rw [Bool.eq_false_iff, Ne, Entries.has_iff_mem_keys, names, ← Entries.has_iff_mem_keys]
      exact untyped
  | .null | .bool _ | .int _ | .float _ | .list _ => cases h

theorem sound_of_readGroup {entries : List (String × Value)}
    {nodes : List (String × Attribute)} (fits : ∀ e ∈ entries, e.2.NumbersFit)
    (h : readGroup entries = .ok nodes) :
    Entries.keys nodes = Entries.keys entries ∧ ∀ e ∈ nodes, e.2.Sound := by
  match entries with
  | [] =>
    cases h
    exact ⟨rfl, fun _ he => absurd he List.not_mem_nil⟩
  | (name, v) :: rest =>
    rw [readGroup] at h
    obtain ⟨node, read, more⟩ := bind_eq_ok_iff.mp h
    obtain ⟨others, read', same⟩ := bind_eq_ok_iff.mp more
    cases same
    rw [List.forall_mem_cons] at fits ⊢
    obtain ⟨names, each⟩ := sound_of_readGroup fits.2 read'
    refine ⟨?_, Attribute.sound_of_read fits.1 read, each⟩
    change name :: Entries.keys others = name :: Entries.keys rest
    rw [names]

end

theorem keys_writeGroup (nodes : List (String × Attribute)) :
    Entries.keys (writeGroup nodes) = Entries.keys nodes := by
  induction nodes with
  | nil => rfl
  | cons e rest ih => exact congrArg (e.1 :: ·) ih

theorem readGroup_writeGroup {nodes : List (String × Attribute)}
    (back : ∀ e ∈ nodes, Attribute.read e.2.write = .ok e.2) :
    readGroup (writeGroup nodes) = .ok nodes := by
  induction nodes with
  | nil => rfl
  | cons e rest ih =>
    rw [List.forall_mem_cons] at back
    obtain ⟨name, node⟩ := e
    rw [writeGroup, readGroup, back.1, ih back.2]
    rfl

theorem Attribute.read_write {a : Attribute} (sound : a.Sound) :
    Attribute.read a.write = .ok a := by
  induction sound with
  | @leaf d sound =>
    have typed : Entries.has (writeFields AttributeDefinition.fields d) "type" = true := rfl
    rw [Attribute.write, writeRecord, Attribute.read, if_pos typed]
    exact map_eq_ok_iff.mpr ⟨d, AttributeDefinition.read_write sound, rfl⟩
  | @group children untyped each back =>
    have named : ¬ Entries.has (writeGroup children) "type" = true := by
      rw [Entries.has_iff_mem_keys, keys_writeGroup, ← Entries.has_iff_mem_keys, untyped]
      exact Bool.false_ne_true
    rw [Attribute.write, Attribute.read, if_neg named, readGroup_writeGroup back]
    rfl

theorem ValidationRule.read_write (r : ValidationRule) : ValidationRule.read r.write = .ok r := by
  refine readRecord_writeRecord (by decide) ?_
  simp [fields, rebuilds_needed, rebuilds_nil]

def Model.Sound (m : Model) : Prop := ∀ e ∈ m.attributes, e.2.Sound

theorem Model.sound_of_read {v : Value} {m : Model} (fits : v.NumbersFit)
    (h : Model.read v = .ok m) : m.Sound := by
  refine good_of_readRecord ?_ fits (fun _ he => absurd he List.not_mem_nil) h
  simp only [fields, List.forall_mem_cons, keeps_needed, keeps_free, List.not_mem_nil,
    false_imp_iff, implies_true, and_true]
  refine ⟨?id, ?name, ?description, ?parents, ?attributes, ?validations⟩
  case attributes =>
    intro v attributes _ fits read _ e he
    obtain ⟨w, fits, read⟩ := exists_of_mem_readMappingOf read fits he
    exact Attribute.sound_of_read fits read
  all_goals exact fun _ _ _ _ _ sound => sound

theorem Model.read_write {m : Model} (sound : m.Sound) : Model.read m.write = .ok m := by
  refine readRecord_writeRecord (by decide) ?_
  simp [fields, rebuilds_needed, rebuilds_free, rebuilds_nil,
    readMappingOf_write fun e he => Attribute.read_write (sound e he),
    readListOf_map fun r (_ : r ∈ _) => ValidationRule.read_write r]

/-! ## §4 Tables, settings and prompts -/

theorem TableEntry.read_write (e : TableEntry) : TableEntry.read e.write = .ok e := by
  refine readRecord_writeRecord (by decide) ?_
  simp [fields, rebuilds_needed, rebuilds_nil]

theorem Table.read_write (t : Table) : Table.read t.write = .ok t := by
  refine readRecord_writeRecord (by decide) ?_
  simp [fields, rebuilds_needed, rebuilds_free, rebuilds_alsoCalled, rebuilds_nil,
    readListOf_map fun e (_ : e ∈ _) => TableEntry.read_write e]

/-- The temperature is a number and the limit one of 32 bits. -/
structure LlmSettings.Sound (s : LlmSettings) : Prop where
  temperature : ∀ x, s.temperature = some x → x.isFinite = true
  maxTokens : ∀ n, s.maxTokens = some n → n < 4294967296

theorem LlmSettings.keeps_sound : ∀ f ∈ fields, f.Keeps Sound := by
  simp only [fields, List.forall_mem_cons, keeps_omittingNull, keeps_free, List.not_mem_nil,
    false_imp_iff, implies_true, and_true]
  refine ⟨?provider, ?model, ?temperature, ?maxTokens, ?apiKey, ?baseUrl⟩
  case temperature =>
    intro v temperature s fits read sound
    refine ⟨?_, sound.maxTokens⟩
    rintro x rfl
    exact isFinite_of_readDouble fits (readOptional_eq_some read).2
  case maxTokens =>
    intro v maxTokens s _ read sound
    refine ⟨sound.temperature, ?_⟩
    rintro n rfl
    exact lt_of_readBelow (readOptional_eq_some read).2
  all_goals exact fun _ _ _ _ _ sound => ⟨sound.temperature, sound.maxTokens⟩

theorem LlmSettings.sound_of_read {v : Value} {s : LlmSettings} (fits : v.NumbersFit)
    (h : LlmSettings.read v = .ok s) : s.Sound := by
  have empty : LlmSettings.Sound {} := ⟨fun _ h => (by cases h), fun _ h => (by cases h)⟩
  exact good_of_readRecord keeps_sound fits empty h

theorem LlmSettings.read_write {s : LlmSettings} (sound : s.Sound) :
    LlmSettings.read s.write = .ok s := by
  have text : ∀ (o : Option String) x, o = some x →
      (Value.text x).isNull = false ∧ readText (.text x) = .ok x := fun _ _ _ => ⟨rfl, rfl⟩
  refine readRecord_writeRecord (by decide) ?_
  refine .omitted rfl (text _) (.omitted rfl (text _) (.omitted rfl ?temperature
    (.omitted rfl ?maxTokens (.omitted rfl (text _) (.omitted rfl (text _) rfl)))))
  case temperature =>
    intro x hx
    refine ⟨rfl, ?_⟩
    rw [readDouble, if_pos (sound.temperature x hx)]
  case maxTokens =>
    intro n hn
    exact ⟨rfl, readBelow_natCast (sound.maxTokens n hn)⟩

def Prompt.Sound (p : Prompt) : Prop := ∀ s, p.llm = some s → s.Sound

theorem Prompt.sound_of_read {v : Value} {p : Prompt} (fits : v.NumbersFit)
    (h : Prompt.read v = .ok p) : p.Sound := by
  have empty : Prompt.Sound {} := fun _ h => by cases h
  refine good_of_readRecord ?_ fits empty h
  simp only [fields, List.forall_mem_cons, keeps_needed, keeps_free, keeps_alsoCalled,
    List.not_mem_nil, false_imp_iff, implies_true, and_true]
  refine ⟨?id, ?name, ?template, ?llm⟩
  case llm =>
    rintro v llm p fits read _ s rfl
    exact LlmSettings.sound_of_read fits (readOptional_eq_some read).2
  all_goals exact fun _ _ _ _ _ sound => sound

theorem Prompt.read_write {p : Prompt} (sound : p.Sound) : Prompt.read p.write = .ok p := by
  have llm : readOptional LlmSettings.read (writeOptional LlmSettings.write p.llm) = .ok p.llm :=
    readOptional_writeOptional fun s hs => ⟨rfl, LlmSettings.read_write (sound s hs)⟩
  refine readRecord_writeRecord (by decide) ?_
  simp [fields, rebuilds_needed, rebuilds_free, rebuilds_alsoCalled, rebuilds_nil, llm]

/-! ## §5 Catalogs and configurations -/

/-- What the catalog holds is sound. -/
structure Catalog.Sound (c : Catalog) : Prop where
  flows : ∀ e ∈ c.flows, e.2.Sound
  models : ∀ e ∈ c.models, e.2.Sound
  prompts : ∀ e ∈ c.prompts, e.2.Sound

theorem Catalog.sound_of_read {v : Value} {c : Catalog} (fits : v.NumbersFit)
    (h : Catalog.read v = .ok c) : c.Sound := by
  have empty : Catalog.Sound {} :=
    ⟨fun _ he => absurd he List.not_mem_nil, fun _ he => absurd he List.not_mem_nil,
      fun _ he => absurd he List.not_mem_nil⟩
  refine good_of_readRecord ?_ fits empty h
  simp only [fields, List.forall_mem_cons, keeps_needed, keeps_free, List.not_mem_nil,
    false_imp_iff, implies_true, and_true]
  refine ⟨?id, ?flows, ?models, ?tables, ?prompts⟩
  case flows =>
    intro v flows c fits read sound
    refine ⟨fun e he => ?_, sound.models, sound.prompts⟩
    obtain ⟨w, fits, read⟩ := exists_of_mem_readMappingOf read fits he
    exact Flow.sound_of_read fits read
  case models =>
    intro v models c fits read sound
    refine ⟨sound.flows, fun e he => ?_, sound.prompts⟩
    obtain ⟨w, fits, read⟩ := exists_of_mem_readMappingOf read fits he
    exact Model.sound_of_read fits read
  case prompts =>
    intro v prompts c fits read sound
    refine ⟨sound.flows, sound.models, fun e he => ?_⟩
    obtain ⟨w, fits, read⟩ := exists_of_mem_readMappingOf read fits he
    exact Prompt.sound_of_read fits read
  all_goals exact fun _ _ _ _ _ sound => ⟨sound.flows, sound.models, sound.prompts⟩

theorem Catalog.read_write {c : Catalog} (sound : c.Sound) : Catalog.read c.write = .ok c := by
  refine readRecord_writeRecord (by decide) ?_
  simp [fields, rebuilds_needed, rebuilds_free, rebuilds_nil,
    readMappingOf_write fun e he => Flow.read_write (sound.flows e he),
    readMappingOf_write fun e he => Model.read_write (sound.models e he),
    readMappingOf_write fun e (_ : e ∈ _) => Table.read_write e.2,
    readMappingOf_write fun e he => Prompt.read_write (sound.prompts e he)]

/-- The greatest length is a 64-bit integer. -/
def NameDefaults.Sound (d : NameDefaults) : Prop := d.maxLength < wordBound

theorem NameDefaults.sound_of_read {v : Value} {d : NameDefaults} (fits : v.NumbersFit)
    (h : NameDefaults.read v = .ok d) : d.Sound := by
  have empty : NameDefaults.Sound {} := (by decide : 15 < wordBound)
  refine good_of_readRecord ?_ fits empty h
  simp only [fields, List.forall_mem_cons, keeps_free, List.not_mem_nil, false_imp_iff,
    implies_true, and_true]
  refine ⟨?corpus, ?segmenter, ?algorithm, ?maxLength⟩
  case maxLength => exact fun _ _ _ _ read _ => lt_of_readBelow read
  all_goals exact fun _ _ _ _ _ sound => sound

theorem NameDefaults.read_write {d : NameDefaults} (sound : d.Sound) :
    NameDefaults.read d.write = .ok d := by
  have maxLength : readCount (.int d.maxLength) = .ok d.maxLength := readBelow_natCast sound
  refine readRecord_writeRecord (by decide) ?_
  simp [fields, rebuilds_free, rebuilds_nil, maxLength]

/-- The limits are 64-bit integers and the defaults sound. -/
structure Config.Sound (c : Config) : Prop where
  maxFlowDepth : c.maxFlowDepth < wordBound
  maxStepTransitions : ∀ n, c.maxStepTransitions = some n → n < wordBound
  nameDefaults : c.nameDefaults.Sound
  defaultLlm : c.defaultLlm.Sound

theorem Config.sound_default : Config.Sound {} := by
  have unbounded : ∀ n, ({} : Config).maxStepTransitions = some n → n < wordBound :=
    fun _ h => by cases h
  refine ⟨by decide, unbounded, (by decide : 15 < wordBound), ⟨?_, ?_⟩⟩
  · rintro x ⟨⟩
    decide +kernel
  · rintro n ⟨⟩
    decide

theorem Config.sound_of_read {v : Value} {c : Config} (fits : v.NumbersFit)
    (h : Config.read v = .ok c) : c.Sound := by
  refine good_of_readRecord ?_ fits sound_default h
  simp only [fields, List.forall_mem_cons, keeps_free, List.not_mem_nil, false_imp_iff,
    implies_true, and_true]
  refine ⟨?maxFlowDepth, ?maxStepTransitions, ?nameDefaults, ?defaultLlm⟩
  case maxFlowDepth =>
    intro v n c _ read sound
    exact { sound with maxFlowDepth := lt_of_readBelow read }
  case maxStepTransitions =>
    intro v bound c _ read sound
    refine { sound with maxStepTransitions := ?_ }
    rintro n rfl
    exact lt_of_readBelow (readOptional_eq_some read).2
  case nameDefaults =>
    intro v d c fits read sound
    exact { sound with nameDefaults := NameDefaults.sound_of_read fits read }
  case defaultLlm =>
    intro v s c fits read sound
    exact { sound with defaultLlm := LlmSettings.sound_of_read fits read }

theorem Config.read_write {c : Config} (sound : c.Sound) : Config.read c.write = .ok c := by
  have depth : readCount (.int c.maxFlowDepth) = .ok c.maxFlowDepth :=
    readBelow_natCast sound.maxFlowDepth
  have transitions : readOptional readCount
      (writeOptional (fun n : Nat => .int n) c.maxStepTransitions) = .ok c.maxStepTransitions :=
    readOptional_writeOptional fun n hn =>
      ⟨rfl, readBelow_natCast (sound.maxStepTransitions n hn)⟩
  refine readRecord_writeRecord (by decide) ?_
  simp [fields, rebuilds_free, rebuilds_nil, depth, transitions,
    NameDefaults.read_write sound.nameDefaults, LlmSettings.read_write sound.defaultLlm]

/-! ## §6 All records -/

/-- What the reader makes of the value it makes again of what is written of that. -/
def ReadsBack {α : Type} (read : Value → Reading α) (write : α → Value) (v : Value) : Prop :=
  ∀ r, read v = .ok r → read (write r) = .ok r

/-- Records return. Whatever kind of record a value with 64-bit numbers is read as, the record is
read again from what is written of it; and a value by itself is an action exactly if it is the same
action as part of a record. -/
theorem records_return (v : Value) (fits : v.NumbersFit) :
    (ReadsBack Flow.read Flow.write v ∧ ReadsBack FlowField.read FlowField.write v ∧
      ReadsBack Step.read Step.write v ∧ ReadsBack Action.read Action.write v) ∧
    (ReadsBack Model.read Model.write v ∧ ReadsBack Attribute.read Attribute.write v ∧
      ReadsBack (readRecord AttributeDefinition.fields {})
        (writeRecord AttributeDefinition.fields) v ∧
      ReadsBack ValidationRule.read ValidationRule.write v) ∧
    (ReadsBack Table.read Table.write v ∧ ReadsBack TableEntry.read TableEntry.write v ∧
      ReadsBack Prompt.read Prompt.write v ∧ ReadsBack LlmSettings.read LlmSettings.write v) ∧
    (ReadsBack Catalog.read Catalog.write v ∧ ReadsBack Config.read Config.write v ∧
      ReadsBack NameDefaults.read NameDefaults.write v) ∧
    ∀ a, Action.ofValue v = .ok a ↔ Action.read v = .ok a := by
  refine ⟨⟨?flow, ?field, ?step, ?action⟩, ⟨?model, ?node, ?definition, ?rule⟩,
    ⟨?table, ?entry, ?prompt, ?settings⟩, ⟨?catalog, ?config, ?defaults⟩, ?alone⟩
  case flow => exact fun _ h => Flow.read_write (Flow.sound_of_read fits h)
  case field => exact fun d _ => d.read_write
  case step => exact fun _ h => Step.read_write (Step.sound_of_read h)
  case action => exact fun a _ => a.read_write
  case model => exact fun _ h => Model.read_write (Model.sound_of_read fits h)
  case node => exact fun _ h => Attribute.read_write (Attribute.sound_of_read fits h)
  case definition =>
    exact fun _ h => AttributeDefinition.read_write (AttributeDefinition.sound_of_read fits h)
  case rule => exact fun r _ => r.read_write
  case table => exact fun t _ => t.read_write
  case entry => exact fun e _ => e.read_write
  case prompt => exact fun _ h => Prompt.read_write (Prompt.sound_of_read fits h)
  case settings => exact fun _ h => LlmSettings.read_write (LlmSettings.sound_of_read fits h)
  case catalog => exact fun _ h => Catalog.read_write (Catalog.sound_of_read fits h)
  case config => exact fun _ h => Config.read_write (Config.sound_of_read fits h)
  case defaults => exact fun _ h => NameDefaults.read_write (NameDefaults.sound_of_read fits h)
  case alone => exact fun _ => Action.ofValue_eq_ok_iff

/-- A system of one flow, model, table and prompt: a step with settings of its own and an action, a
group of attributes with a type name alone, a roll that is called dice, and a temperature that is a
whole number. -/
def hamlet : Value := .mapping [
  ("id", .text "hamlet"),
  ("flows", .mapping [("greet", .mapping [("id", .text "greet"), ("steps", .list [.mapping [
    ("id", .text "ask"), ("mood", .text "merry"), ("type", .text "player_input"),
    ("actions", .list [.mapping [("log_message", .text "Hail")]])]])])]),
  ("models", .mapping [("smith", .mapping [("id", .text "smith"),
    ("attributes", .mapping [("craft", .mapping [("skill", .text "int")])])])]),
  ("tables", .mapping [("weather", .mapping [("dice", .text "1d6"), ("id", .text "weather")])]),
  ("prompts", .mapping [("rumour", .mapping [("id", .text "rumour"), ("template", .text "Tell."),
    ("llm_settings", .mapping [("temperature", .int 1)])])])]

theorem hamlet_returns :
    hamlet.NumbersFit ∧ ∃ c, Catalog.read hamlet = .ok c ∧ Catalog.read c.write = .ok c ∧
      (c.flow? "greet").map (fun f => f.steps.map fun s => Entries.keys s.settings)
        = some [["mood"]] ∧
      (c.table? "weather").map Table.roll = some "1d6" := by
  have fits : hamlet.NumbersFit := by simp [hamlet, int64Min, wordBound]
  obtain ⟨c, read⟩ : ∃ c, Catalog.read hamlet = .ok c := ⟨_, rfl⟩
  have returns := (records_return hamlet fits).2.2.2.1.1
  refine ⟨fits, c, read, returns c read, ?_, ?_⟩
  · cases read
    rfl
  · cases read
    rfl

end Tabletop
