/-
Tabletop.Proofs.Run.Declared — what declared entries hold.

Values reach an entry by conversion to its declared type: as inputs, by
`set_value`, and as outputs of sub-flows. Only `swap_values` writes there as
it is. So an entry of a primitive type holds null or a value of exactly that
type, and an entry of a model is tagged exactly if it holds a mapping. What
goes past the declaration is a write inside an entry that holds null or is
not there, which begins a mapping; a batch that takes a mapping away in one
action and writes inside it in a later one, which comes to the same; and an
input of another type that is stored in the same entry.

  §1 Contexts of runs
  §2 Writes that begin mappings
  §3 Kinds of entries
  §4 Moves
  §5 Entries of primitive types
  §6 Entries of models
  §7 Runs
-/
import Tabletop.Proofs.Context.Tagging
import Tabletop.Proofs.Model.Exact
import Tabletop.Proofs.Run.Boundary

namespace Tabletop

open Context

/-! ## §1 Contexts of runs -/

/-- Names are distinct, and no alias hides a namespace in which flows declare something. -/
structure Context.Regular (c : Context) : Prop extends c.Indexed where
  unhidden : ∀ space ∈ declaredNames, Entries.get? c.aliases space = none

theorem Context.Edits.regular {base next : Context} (h : base.Edits next) (hb : base.Regular) :
    next.Regular where
  toIndexed := h.indexed hb.toIndexed
  unhidden := by
    intro space hs
    cases hv : Entries.get? next.aliases space with
    | none => rfl
    | some v =>
      rcases h.new_alias hv with old | free
      · rw [hb.unhidden space hs] at old
        cases old
      · have reserved : declaredNames ⊆ reservedNames := by decide
        exact absurd (reserved hs) (isReserved_eq_false_iff.mp free).1

namespace Frame

variable {f : Frame} {c d : Context} {s e : String} {P : Slot → Prop}

theorem regular_blank (f : Frame) : f.blank.Regular where
  spaces := indexed_empty.spaces
  slots := indexed_empty.slots
  aliases := indexed_empty.aliases
  unhidden _ _ := rfl

theorem Makes.regular {m : Move} (step : f.Makes c m d) (h : c.Regular) : d.Regular := by
  rcases step.edits_or_clear with edits | rfl
  · exact edits.regular h
  · exact ⟨⟨h.spaces, h.slots, Entries.nodupKeys_nil⟩, fun _ _ => rfl⟩

/-- The contexts that a flow reaches are regular. -/
theorem Goes.regular {moves : Trail} (chain : f.Goes f.blank moves c) : c.Regular :=
  chain.preserves (Q := fun _ _ => True) (fun _ _ => trivial) f.regular_blank
    fun _ _ _ _ regular step => step.regular regular

theorem AtBoundary.regular {caller : Caller} {inputs : Fields} {s t : Session} {index : Nat}
    (h : f.AtBoundary caller inputs s t index c) : c.Regular := by
  obtain ⟨trail, own⟩ := atBoundary_iff_hasTrail.mp h
  exact own.goes.1.regular

end Frame

/-! ## §2 Writes that begin mappings -/

/-- The path goes inside an entry that holds null or is not there. -/
def Context.Begins (c : Context) (path space entry : String) : Prop :=
  (∃ segment rest, Path.split path = space :: entry :: segment :: rest)
    ∧ c.EntryIs space entry fun slot => slot.value = .null

/-- The move writes inside the entry only where it holds something. -/
def Move.Spares (space entry : String) (c : Context) : Move → Prop
  | .write path _ => ¬ c.Begins path space entry
  | .store path _ => ¬ c.Begins path space entry
  | .supply field _ => ¬ c.Begins s!"inputs.{field.id}" space entry
  | .batch actions => ∀ a ∈ actions, ∀ path, a.Sets c path → ¬ c.Begins path space entry
  | _ => True

/-- If the move is a batch, no action of it changes the entry to a mapping after another one has
changed it to something else. -/
def Frame.InTurn (f : Frame) (space entry : String) (c : Context) : Move → Prop
  | .batch actions => ∀ nexts, f.Branched c actions nexts → c.InOrder nexts space entry
  | _ => True

/-- Inputs that are stored in the entry are of the type. -/
def Flow.SoleType (flow : Flow) (space entry typeName : String) : Prop :=
  ∀ field, flow.declared? "inputs" field.id = some field →
    Path.split s!"inputs.{field.id}" = [space, entry] → field.typeName = typeName

/-- Inputs are stored among the inputs or below them. -/
theorem Flow.soleType_of_ne {flow : Flow} {space entry typeName : String} (h : space ≠ "inputs") :
    flow.SoleType space entry typeName := by
  intro field _ hp
  have word : (s!"inputs.{field.id}").toList = "inputs".toList ++ '.' :: field.id.toList := by
    simp [toString]
  rw [Path.split_root (by decide) (by decide) word] at hp
  exact absurd (List.cons.inj hp).1.symm h

/-! ## §3 Kinds of entries -/

namespace Frame

/-- What is stored in the entry is of the kind, and stays of it when written into and when
checked. -/
structure Governs (f : Frame) (s e : String) (P : Slot → Prop) : Prop where
  null : P ⟨.null, .plain⟩
  stored : ∀ {path v w state}, Path.split path = [s, e] →
    f.flow.coerceFor f.engine.catalog f.engine.make path v = .ok (w, state) → P ⟨w, state⟩
  supplied : ∀ {field v w state}, f.flow.declared? "inputs" field.id = some field →
    Path.split s!"inputs.{field.id}" = [s, e] → (f.coerceInput field v).outcome = .ok (w, state) →
      P ⟨w, state⟩
  grown : ∀ {slot w}, P slot → slot.value ≠ .null → Grows slot.value w → P ⟨w, slot.state.touched⟩
  checked : ∀ {slot model}, P slot → slot.value.modelName? = some model →
    P { slot with state := .validated model }

/-- Every mapping is of the kind. -/
def AllowsMappings (P : Slot → Prop) : Prop := ∀ fields state, P ⟨.mapping fields, state⟩

variable {f : Frame} {c d : Context} {s e : String} {P : Slot → Prop}

/-- A write keeps the kind of an entry if what it writes whole is of the kind and it begins no
mapping. -/
theorem Governs.write (rule : f.Governs s e P) {path : String} {state : SlotState} {v : Value}
    (step : c.write state v (Path.split path) = .ok d)
    (whole : Path.split path = [s, e] → P ⟨v, state⟩)
    (free : ¬ c.Begins path s e ∨ AllowsMappings P) (hc : c.EntryIs s e P) : d.EntryIs s e P := by
  intro slot hs
  rcases slot?_write_cases step hs with ⟨_, old⟩ | ⟨hp, rfl⟩ | ⟨segment, rest, w, hp, rfl, grows⟩
  · exact hc slot old
  · exact whole hp
  · by_cases begins : c.Begins path s e
    · have allows := free.resolve_left fun h => h begins
      have fields : (c.opened s e).value.fields?.isSome = true := by
        unfold opened
        cases ho : c.slot? s e with
        | none => rfl
        | some old =>
          change old.value.fields?.isSome = true
          rw [begins.2 old ho]
          rfl
      rcases grows with ⟨_, fields, rfl⟩ | ⟨⟨items, list⟩, _⟩
      · exact allows fields _
      · rw [list] at fields
        cases fields
    · have held : ∃ old, c.slot? s e = some old ∧ old.value ≠ .null := by
        by_contra none_held
        push Not at none_held
        exact begins ⟨⟨segment, rest, hp⟩, none_held⟩
      obtain ⟨old, ho, hne⟩ := held
      have found : c.opened s e = old := by rw [opened, ho]; rfl
      rw [found] at grows ⊢
      exact rule.grown (hc old ho) hne grows

theorem Governs.check (rule : f.Governs s e P) (declared : s ∈ declaredNames) (regular : c.Regular)
    {path model : String} {v : Value} (found : c.get path = some v)
    (named : v.modelName? = some model) (hc : c.EntryIs s e P) :
    (c.retag path (.validated model)).EntryIs s e P := by
  unfold Context.retag
  split
  · rename_i space entry hp
    intro slot hs
    rw [slot?_retagSlot] at hs
    by_cases hse : space = s ∧ entry = e
    · obtain ⟨rfl, rfl⟩ := hse
      rw [if_pos ⟨rfl, rfl⟩, Option.map_eq_some_iff] at hs
      obtain ⟨old, ho, rfl⟩ := hs
      have read := get_entry hp (regular.unhidden space declared) ho found
      exact rule.checked (hc old ho) (read ▸ named)
    · rw [if_neg hse] at hs
      exact hc slot hs
  · exact hc

/-! ## §4 Moves -/

/-- The actions make no plain writes to where the flow declares something. -/
def Calm (f : Frame) : Prop := ∀ a ∈ f.flow.allActions, a.kind ≠ "swap_values"

/-- What each action of a batch makes of an entry is of the kind. -/
theorem Governs.branch (rule : f.Governs s e P) (calm : f.Calm) (declared : s ∈ declaredNames)
    (regular : c.Regular) {actions : List Action} (own : ∀ a ∈ actions, a ∈ f.flow.allActions)
    {nexts : List Context} (branched : f.Branched c actions nexts)
    (free : (∀ a ∈ actions, ∀ path, a.Sets c path → ¬ c.Begins path s e) ∨ AllowsMappings P)
    (hc : c.EntryIs s e P) : ∀ next ∈ nexts, next.Regular ∧ next.EntryIs s e P := by
  intro next hn
  obtain ⟨a, ha, notices, ran⟩ := branched.of_mem hn
  have effect := effect_of_runAction ran
  refine ⟨effect.edits.regular regular, ?_⟩
  cases effect with
  | kept => exact hc
  | stored sets coerced step =>
    refine rule.write step (fun hp => rule.stored hp coerced) ?_ hc
    exact free.imp_left fun spares => spares a ha _ sets
  | swapped kind _ _ => exact absurd kind (calm a (own a ha))
  | validated found named _ => exact rule.check declared regular found named hc

/-- A move of the flow keeps the kind of an entry, if batches do and it begins no mapping. -/
theorem Governs.makes (rule : f.Governs s e P) (calm : f.Calm) (declared : s ∈ declaredNames)
    (regular : c.Regular) {m : Move} (step : f.Makes c m d)
    (kind : m.IsInitial f.flow ∨ m.IsOf f.flow.allActions)
    (free : m.Spares s e c ∨ AllowsMappings P)
    (batch : ∀ actions nexts, m = .batch actions → f.Branched c actions nexts →
      c.applyChanges (c.changesOf nexts) = .ok d → d.EntryIs s e P)
    (hc : c.EntryIs s e P) : d.EntryIs s e P := by
  cases step with
  | @write path v d step =>
    have null_or_elsewhere : v = .null ∨ Undeclared path := by
      rcases kind with null | elsewhere | ⟨a, ha, swaps⟩
      · exact Or.inl null
      · exact Or.inr elsewhere
      · exact absurd swaps (calm a ha)
    refine rule.write step ?_ free hc
    intro hp
    rcases null_or_elsewhere with rfl | elsewhere
    · exact rule.null
    · exact absurd declared (elsewhere s e [] hp)
  | store coerced step => exact rule.write step (fun hp => rule.stored hp coerced) free hc
  | supply coerced step =>
    rcases kind with first | none_such
    · exact rule.write step (fun hp => rule.supplied first hp coerced) free hc
    · exact none_such.elim
  | check found named _ => exact rule.check declared regular found named hc
  | batch branched replay => exact batch _ _ rfl branched replay
  | clear => exact hc

/-! ## §5 Entries of primitive types -/

theorem mem_declaredNames {flow : Flow} {space entry : String} {field : FlowField}
    (h : flow.declared? space entry = some field) : space ∈ declaredNames := by
  unfold Flow.declared? Flow.declaredIn at h
  split at h
  · decide
  · decide
  · decide
  · cases h

/-- The declared type of an entry. -/
theorem expectedType?_entry {path : String} {field : FlowField}
    (hp : Path.split path = [s, e]) (declared : f.flow.declared? s e = some field) :
    f.flow.expectedType? f.engine.catalog path = some field.typeName := by
  unfold Flow.expectedType?
  rw [hp]
  simp only [declared]
  rfl

theorem isPrimitive_of_named {name : String} {p : Primitive}
    (named : Primitive.named? name = some p) : isPrimitive name = true := by
  rw [isPrimitive, named]
  rfl

/-- The value is null or of exactly the type, or a mapping where these are let in. -/
def Holds (p : Primitive) (mappings : Prop) (v : Value) : Prop :=
  v = .null ∨ p.isExact v = true ∨ mappings ∧ v.IsMapping

theorem Holds.not_list {p : Primitive} {mappings : Prop} {items : List Value} :
    ¬ Holds p mappings (.list items) := by
  rintro (null | exact_type | ⟨_, fields, mapping⟩)
  · cases null
  · cases p <;> cases exact_type
  · cases mapping

theorem Holds.lets_in {p : Primitive} {mappings : Prop} {v : Value} (h : Holds p mappings v)
    (hv : v.IsMapping) : mappings := by
  obtain ⟨fields, rfl⟩ := hv
  rcases h with null | exact_type | ⟨lets_in, _⟩
  · cases null
  · cases p <;> cases exact_type
  · exact lets_in

/-- Writing into a value of a primitive type fails. -/
theorem Holds.grown {p : Primitive} {mappings : Prop} {v w : Value} (h : Holds p mappings v)
    (hne : v ≠ .null) (grows : Grows v w) : Holds p mappings w := by
  rcases grows with ⟨fields, mapping⟩ | ⟨⟨items, rfl⟩, _⟩
  · rcases h with null | exact_type | ⟨lets_in, _⟩
    · exact absurd null hne
    · cases v with
      | null => exact absurd rfl hne
      | mapping => cases p <;> cases exact_type
      | _ => cases fields
    · exact Or.inr (Or.inr ⟨lets_in, mapping⟩)
  · exact absurd h Holds.not_list

/-- Conversion governs the entries of primitive types. -/
theorem governs_primitive (default : f.engine.make.coerce = coercePrimitive) {field : FlowField}
    (declared : f.flow.declared? s e = some field)
    (sole : f.flow.SoleType s e field.typeName) {p : Primitive}
    (named : Primitive.named? field.typeName = some p) (mappings : Prop) :
    f.Governs s e fun slot => Holds p mappings slot.value where
  null := Or.inl rfl
  stored := by
    intro path v w state hp coerced
    unfold Flow.coerceFor at coerced
    simp only [expectedType?_entry hp declared, isPrimitive_of_named named, default] at coerced
    cases hw : coercePrimitive v field.typeName with
    | error error =>
      simp only [hw] at coerced
      cases coerced
    | ok u =>
      simp only [hw] at coerced
      cases coerced
      exact (isExact_of_coercePrimitive named hw).imp_right Or.inl
  supplied := by
    intro other v w state first hp coerced
    have type := sole other first hp
    unfold coerceInput at coerced
    rw [type, if_pos (isPrimitive_of_named named)] at coerced
    obtain ⟨u, made, coerced⟩ := Traced.outcome_bind_eq_ok.mp coerced
    cases coerced
    have hw := Traced.outcome_made_eq_ok.mp (Traced.outcome_during_eq_ok.mp made)
    rw [default] at hw
    exact (isExact_of_coercePrimitive named hw).imp_right Or.inl
  grown h hne grows := h.grown hne grows
  checked h _ := h

/-- A merge of branches in which an entry holds values of its type leaves one there. -/
theorem holds_of_merge {p : Primitive} {mappings : Prop} {nexts : List Context}
    (replay : c.applyChanges (c.changesOf nexts) = .ok d)
    (each : ∀ next ∈ nexts, next.Regular ∧ next.EntryIs s e fun slot => Holds p mappings slot.value)
    (hc : c.EntryIs s e fun slot => Holds p mappings slot.value) :
    d.EntryIs s e fun slot => Holds p mappings slot.value := by
  have branch : ∀ change ∈ c.changesOf nexts, change.Concerns s e → ∃ new : Slot,
      Holds p mappings new.value ∧ change ∈ slotChanges s e (c.slot? s e) new := by
    intro change hc concerns
    obtain ⟨next, hn, hc⟩ := List.mem_flatMap.mp hc
    obtain ⟨regular, holds⟩ := each next hn
    obtain ⟨new, hs, hc⟩ := mem_slotChanges_of_concerns regular.toIndexed hc concerns
    exact ⟨new, holds new hs, hc⟩
  refine value_of_applyChanges replay ?_ ?_ hc
  · intro v hv
    obtain ⟨new, holds, hv⟩ := branch _ hv ⟨[], rfl⟩
    rcases slotChanges_cases hv with heq | heq | ⟨_, _, _, _, heq⟩
    · cases heq
      exact holds
    · cases heq
    · cases heq
  · intro segment rest v hv u w hu grows
    obtain ⟨new, holds, hv⟩ := branch _ hv ⟨_, rfl⟩
    rcases slotChanges_cases hv with heq | heq | ⟨mapping, _⟩
    · cases heq
    · cases heq
    · have lets_in : mappings := holds.lets_in mapping
      rcases grows with ⟨_, mapping⟩ | ⟨⟨items, rfl⟩, _⟩
      · exact Or.inr (Or.inr ⟨lets_in, mapping⟩)
      · rcases hu with hu | hu
        · exact absurd hu Holds.not_list
        · cases hu

/-! ## §6 Entries of models -/

/-- Data of a model is tagged where it is stored, and other data is not. -/
theorem proper_of_stored {field : FlowField} (declared : f.flow.declared? s e = some field)
    (not_primitive : isPrimitive field.typeName = false)
    (known : f.engine.make.hasModel field.typeName = true) {path : String} {v w : Value}
    {state : SlotState} (hp : Path.split path = [s, e])
    (coerced : f.flow.coerceFor f.engine.catalog f.engine.make path v = .ok (w, state)) :
    Slot.Proper ⟨w, state⟩ := by
  unfold Flow.coerceFor at coerced
  simp only [expectedType?_entry hp declared, not_primitive, known] at coerced
  cases v with
  | mapping fields =>
    simp only [asObject] at coerced
    cases hm : f.engine.make.instantiate field.typeName (.mapping fields) with
    | ok object =>
      simp only [hm] at coerced
      cases coerced
      exact iff_of_true (Value.isMapping_mapping _) (by simp)
    | error error =>
      simp only [hm] at coerced
      cases coerced
      exact iff_of_true (Value.isMapping_mapping _) (by simp)
  | _ =>
    cases coerced
    refine iff_of_false ?_ fun tagged => tagged rfl
    rintro ⟨fields, mapping⟩
    cases mapping

/-- Data of a model is tagged where it is supplied. -/
theorem proper_of_supplied {field : FlowField} (not_primitive : isPrimitive field.typeName = false)
    (known : f.engine.make.hasModel field.typeName = true) {v w : Value} {state : SlotState}
    (coerced : (f.coerceInput field v).outcome = .ok (w, state)) : Slot.Proper ⟨w, state⟩ := by
  unfold coerceInput at coerced
  rw [not_primitive, if_neg Bool.false_ne_true, if_pos known] at coerced
  obtain ⟨object, _, coerced⟩ := Traced.outcome_bind_eq_ok.mp coerced
  cases coerced
  exact iff_of_true (Value.isMapping_mapping _) (by simp)

/-- Conversion governs the entries of models. -/
theorem governs_model {field : FlowField} (declared : f.flow.declared? s e = some field)
    (sole : f.flow.SoleType s e field.typeName)
    (not_primitive : isPrimitive field.typeName = false)
    (known : f.engine.make.hasModel field.typeName = true) : f.Governs s e Slot.Proper where
  null := iff_of_false Value.not_isMapping_null fun tagged => tagged rfl
  stored hp coerced := proper_of_stored declared not_primitive known hp coerced
  supplied := by
    intro other v w state first hp coerced
    have type := sole other first hp
    rw [← type] at not_primitive known
    exact proper_of_supplied not_primitive known coerced
  grown proper hne grows := proper.grown hne grows
  checked := by
    intro slot model _ named
    refine iff_of_true ?_ (by simp)
    cases hv : slot.value with
    | mapping fields => exact Value.isMapping_mapping fields
    | _ =>
      rw [hv] at named
      cases named

/-! ## §7 Runs -/

/-- The kind of an entry holds all along a chain of moves of the flow. -/
theorem Governs.goes (rule : f.Governs s e P) (calm : f.Calm) (declared : s ∈ declaredNames)
    {moves : Trail} (chain : f.Goes f.blank moves c) (ordinary : f.Ordinary moves)
    (free : (∀ x ∈ moves, x.2.Spares s e x.1) ∨ AllowsMappings P)
    {Q : Context → Move → Prop} (turns : ∀ x ∈ moves, Q x.1 x.2)
    (batch : ∀ c d actions nexts, c.Regular → c.EntryIs s e P → Q c (.batch actions) →
      f.Branched c actions nexts → (∀ next ∈ nexts, next.Regular ∧ next.EntryIs s e P) →
      c.applyChanges (c.changesOf nexts) = .ok d → d.EntryIs s e P) : c.EntryIs s e P := by
  have whole : c.Regular ∧ c.EntryIs s e P := by
    refine chain.preserves (P := fun c => c.Regular ∧ c.EntryIs s e P)
      (Q := fun c m => (m.IsInitial f.flow ∨ m.IsOf f.flow.allActions)
        ∧ (m.Spares s e c ∨ AllowsMappings P) ∧ Q c m) ?_ ?_ ?_
    · exact fun x hx => ⟨ordinary x hx, free.imp_left fun h => h x hx, turns x hx⟩
    · refine ⟨f.regular_blank, ?_⟩
      intro slot hs
      have none_there : f.blank.slot? s e = none := slot?_empty s e
      rw [none_there] at hs
      cases hs
    · rintro c m d ⟨kind, free, turn⟩ ⟨regular, hc⟩ step
      refine ⟨step.regular regular, rule.makes calm declared regular step kind free ?_ hc⟩
      rintro actions nexts rfl branched replay
      have own : ∀ a ∈ actions, a ∈ f.flow.allActions :=
        kind.resolve_left fun initial => initial
      exact batch c d actions nexts regular hc turn branched
        (rule.branch calm declared regular own branched free hc) replay
  exact whole.2

/-- What declared entries hold in the context, after the moves. An entry of a primitive type holds
null, a value of exactly its type or a mapping, and a mapping only if some move began one there. An
entry of a model is tagged exactly if it holds a mapping, if no move began one there and each batch
changed it in turn. -/
def HoldsDeclared (f : Frame) (moves : Trail) (c : Context) : Prop :=
  ∀ space entry field slot, f.flow.declared? space entry = some field →
    f.flow.SoleType space entry field.typeName → c.slot? space entry = some slot →
    (∀ p, Primitive.named? field.typeName = some p →
      (slot.value = .null ∨ p.isExact slot.value = true ∨ slot.value.IsMapping) ∧
      ((∀ x ∈ moves, x.2.Spares space entry x.1) →
        slot.value = .null ∨ p.isExact slot.value = true)) ∧
    (Primitive.named? field.typeName = none → f.engine.make.hasModel field.typeName = true →
      (∀ x ∈ moves, x.2.Spares space entry x.1 ∧ f.InTurn space entry x.1 x.2) →
        (slot.value.IsMapping ↔ slot.state ≠ .plain))

/-- After a chain of moves of the flow, declared entries hold what they should. -/
theorem Goes.holdsDeclared (calm : f.Calm) (default : f.engine.make.coerce = coercePrimitive)
    {moves : Trail} (chain : f.Goes f.blank moves c) (ordinary : f.Ordinary moves) :
    f.HoldsDeclared moves c := by
  intro s e field slot declared sole hs
  have here := mem_declaredNames declared
  refine ⟨?_, ?_⟩
  · intro p named
    have holds : ∀ mappings : Prop, ((∀ x ∈ moves, x.2.Spares s e x.1) ∨ mappings) →
        Holds p mappings slot.value := by
      intro mappings free
      refine (governs_primitive default declared sole named mappings).goes calm here chain ordinary
        (Q := fun _ _ => True) ?_ (fun _ _ => trivial) ?_ slot hs
      · exact free.imp_right fun lets_in fields _ => Or.inr (Or.inr ⟨lets_in, fields, rfl⟩)
      · intro c d actions nexts _ hc _ _ each replay
        exact holds_of_merge replay each hc
    refine ⟨(holds True (Or.inr trivial)).imp_right fun h => h.imp_right And.right, ?_⟩
    intro spares
    exact (holds False (Or.inl spares)).imp_right fun h => h.resolve_right fun none_such =>
      none_such.1
  · intro named known keeps
    have not_primitive : isPrimitive field.typeName = false := by rw [isPrimitive, named]; rfl
    refine (governs_model declared sole not_primitive known).goes calm here chain ordinary
      (Q := f.InTurn s e) (Or.inl fun x hx => (keeps x hx).1) (fun x hx => (keeps x hx).2) ?_
      slot hs
    intro c d actions nexts regular hc turn branched each replay
    exact (survives_proper s e).merge replay (fun next hn => (each next hn).1.toIndexed) hc
      (fun next hn => (each next hn).2) (turn nexts branched) hc (Or.inl rfl)

/-- What declared entries hold in runs. Every run has a trail, the moves that it has made itself.
They are moves of the flow and lead to where the run is, and there the declared entries hold what
they should after these moves, and so they do after every chain of moves of the flow. -/
theorem declared_entries_hold (f : Frame) (calm : f.Calm)
    (default : f.engine.make.coerce = coercePrimitive) :
    (∀ caller inputs s t index c, f.AtBoundary caller inputs s t index c ↔
      ∃ trail, f.HasTrail caller inputs s t index c trail) ∧
    (∀ caller inputs s t index c trail, f.HasTrail caller inputs s t index c trail →
      f.Goes f.blank trail c ∧ f.Ordinary trail ∧ f.HoldsDeclared trail c) ∧
    ∀ moves c, f.Goes f.blank moves c → f.Ordinary moves → f.HoldsDeclared moves c := by
  refine ⟨fun _ _ _ _ _ _ => atBoundary_iff_hasTrail, ?_, ?_⟩
  · intro caller inputs s t index c trail own
    obtain ⟨chain, ordinary⟩ := own.goes
    exact ⟨chain, ordinary, chain.holdsDeclared calm default ordinary⟩
  · exact fun _ _ chain ordinary => chain.holdsDeclared calm default ordinary

/-- A flow that writes inside entries that hold null, takes a mapping away in the batch that writes
inside it, and declares two inputs of one place. -/
def ledger : Frame where
  engine := { catalog := { models := [("hero", {
    id := "hero"
    attributes := [("hp", .leaf { typeName := "int" })] })] } }
  flow := {
    id := "ledger"
    inputs := [{ id := " coins", typeName := "str" }, { id := "coins", typeName := "int" }]
    locals := [{ id := "gold", typeName := "int" }, { id := "hero", typeName := "hero" },
      { id := "ally", typeName := "hero" }]
    steps := [{
      id := "open"
      typeName := "completion"
      actions := [
        ⟨"set_value", .mapping [("path", .text "variables.gold.coins"), ("value", .int 3)]⟩,
        ⟨"set_value", .mapping [("path", .text "variables.hero.hp"), ("value", .int 1)]⟩,
        ⟨"set_value", .mapping [("path", .text "variables.ally"),
          ("value", .mapping [("hp", .text "many")])]⟩] }, {
      id := "merge"
      typeName := "completion"
      parallel := true
      actions := [
        ⟨"set_value", .mapping [("path", .text "variables.ally"), ("value", .null)]⟩,
        ⟨"set_value", .mapping [("path", .text "variables.ally.hp"), ("value", .int 5)]⟩] }] }
  depth := 0

theorem calm_ledger : ledger.Calm := by
  unfold Calm
  decide +kernel

/-- A text stored in an entry of whole numbers is one there. -/
theorem ledger_gold_is_int :
    ∃ c, ledger.Goes ledger.blank [(ledger.blank, .store "variables.gold" (.text "7"))] c
      ∧ c.slot? "variables" "gold" = some ⟨.int 7, .plain⟩
      ∧ (Value.int 7 = .null ∨ Primitive.int.isExact (.int 7) = true) := by
  have coerced : ledger.flow.coerceFor ledger.engine.catalog ledger.engine.make
      "variables.gold" (.text "7") = .ok (.int 7, .plain) := by rfl
  have step : ledger.blank.setTagged "variables.gold" (.int 7) .plain
      = .ok (ledger.blank.putSlot "variables" "gold" ⟨.int 7, .plain⟩) := by rfl
  have chain := Goes.move (.store coerced step) (.rest _)
  have stored : (ledger.blank.putSlot "variables" "gold" ⟨.int 7, .plain⟩).slot? "variables" "gold"
      = some ⟨.int 7, .plain⟩ := by rfl
  have sole : ledger.flow.SoleType "variables" "gold" "int" := Flow.soleType_of_ne (by decide)
  refine ⟨_, chain, stored, ?_⟩
  refine (((declared_entries_hold ledger calm_ledger rfl).2.2 _ _ chain ?_ "variables" "gold" _ _
    (by rfl) sole stored).1 .int (by rfl)).2 ?_
  · intro x hx
    rw [List.mem_singleton.mp hx]
    exact Or.inr trivial
  · intro x hx
    rw [List.mem_singleton.mp hx]
    rintro ⟨⟨segment, rest, hp⟩, _⟩
    have whole : Path.split "variables.gold" = ["variables", "gold"] := by rfl
    rw [whole] at hp
    cases hp

/-- The kind of the value of an entry, with its state. -/
def held? (c : Context) (space entry : String) : Option (Kind × SlotState) :=
  (c.slot? space entry).map fun slot => (slot.value.kind, slot.state)

/-- The flow ends with a text among its whole numbers, and with mappings in the place of one and,
untagged, in the place of two heroes. -/
theorem ledger_breaks_types :
    ledger.Calm ∧ ∃ caller inputs s t index c, ledger.AtBoundary caller inputs s t index c ∧
      held? c "inputs" "coins" = some (.text, .plain) ∧
      held? c "variables" "gold" = some (.mapping, .plain) ∧
      held? c "variables" "hero" = some (.mapping, .plain) ∧
      held? c "variables" "ally" = some (.mapping, .plain) := by
  let caller : Caller := fun id _ => Run.fail (.unknownFlow id)
  let given : Fields := [(" coins", .text "three")]
  let run : Run Context := do
    let c ← Run.traced (ledger.start given)
    ledger.runSteps caller 3 0 c
  let broken (c : Context) : Bool := decide (
    held? c "inputs" "coins" = some (.text, .plain) ∧
    held? c "variables" "gold" = some (.mapping, .plain) ∧
    held? c "variables" "hero" = some (.mapping, .plain) ∧
    held? c "variables" "ally" = some (.mapping, .plain))
  have ends : ((run { host := {} }).1.toOption.any broken) = true := by decide +kernel
  obtain ⟨d, t, ran, held⟩ := Run.exists_of_test ends
  obtain ⟨c, m, begun, ran⟩ := Run.bind_apply_eq_ok ran
  obtain ⟨last, at_end, _⟩ := atBoundary_of_runSteps (.start begun) ran
  exact ⟨calm_ledger, caller, given, _, t, last, d, at_end, of_decide_eq_true held⟩

end Frame

end Tabletop
