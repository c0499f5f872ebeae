/-
Tabletop.Proofs.Context.Labels — mappings that name a model, through merges.

Which model a mapping is checked against is decided by its own field
`model`. A write inside a mapping changes that field only if it leads to it,
and a mapping that a write makes of null has that field only if the write
leads there. Merges compare the field like any other: branches that all hold
it with the same id never write another one.

  §1 Values that name a model
  §2 Writes
  §3 Merges
-/
import Tabletop.Proofs.Context.Tagging

namespace Tabletop

/-! ## §1 Values that name a model -/

namespace Value

/-- If the value is a mapping, it names the model. -/
def Names (model : String) (v : Value) : Prop := v.IsMapping → v.field? "model" = some (.text model)

/-- If the value is a mapping, it names the model, and all its fields of that key do. -/
def NamesOnly (model : String) (v : Value) : Prop :=
  ∀ fields, v = .mapping fields →
    ("model", .text model) ∈ fields ∧ ∀ e ∈ fields, e.1 = "model" → e.2 = .text model

variable {model : String} {v w : Value}

theorem field?_mapping (fields : Fields) (key : String) :
    (Value.mapping fields).field? key = Entries.get? fields key := rfl

theorem IsMapping.of_field? {key : String} (h : v.field? key = some w) : v.IsMapping := by
  cases v with
  | mapping fields => exact isMapping_mapping fields
  | _ => cases h

theorem NamesOnly.names (h : v.NamesOnly model) : v.Names model := by
  rintro ⟨fields, rfl⟩
  obtain ⟨there, only⟩ := h fields rfl
  rw [field?_mapping]
  cases hw : Entries.get? fields "model" with
  | none => exact absurd (Entries.mem_keys_of_mem there) (Entries.get?_eq_none_iff.mp hw)
  | some w => exact congrArg some (only ("model", w) (Entries.mem_of_get? hw) rfl)

/-- Nothing is written inside a text. -/
theorem not_writeAt_text {path segment text : String} {passed rest : Path} {new : Value} :
    Context.writeAt path new passed (.text text) (segment :: rest) ≠ .ok w := by
  intro h
  rcases writeAt_cases h with ⟨_, _, there, _⟩ | ⟨_, _, _, _, a_list, _⟩
  · cases there
  · cases a_list

/-- A write inside a mapping that names the model leaves it named, unless it writes another one;
and so does a write that names it. -/
theorem names_writeAt {path segment : String} {passed rest : Path} {new : Value}
    (h : Context.writeAt path new passed v (segment :: rest) = .ok w)
    (label : segment :: rest = ["model"] → new = .text model)
    (named : v.field? "model" = some (.text model) ∨ segment :: rest = ["model"]) :
    w.field? "model" = some (.text model) := by
  rcases writeAt_cases h with ⟨fields, below, there, inside, rfl⟩ | ⟨items, i, _, _, rfl, hi, _⟩
  · rw [field?_mapping, Entries.get?_insert]
    have old : v.field? "model" = some (.text model) →
        Entries.get? fields "model" = some (.text model) := by
      intro field
      obtain ⟨fields', rfl⟩ := IsMapping.of_field? field
      cases there
      exact field
    by_cases hs : segment = "model"
    · subst hs
      rw [if_pos rfl]
      cases rest with
      | nil =>
        cases inside
        rw [label rfl]
      | cons next more =>
        rcases named with field | here
        · rw [inner_of_get? (old field)] at inside
          exact absurd inside not_writeAt_text
        · cases here
    · rw [if_neg hs]
      exact old (named.resolve_right fun here => hs (List.cons.inj here).1)
  · rcases named with field | here
    · cases field
    · have no_position : Path.index? "model" = none := by decide
      rw [(List.cons.inj here).1, no_position] at hi
      cases hi

end Value

namespace Context

open Tabletop.Value

variable {c d m : Context} {model s e : String}

/-! ## §2 Writes -/

/-- A write inside the entry does not name another model there, and it makes a mapping where there
is none only by naming the model. -/
structure LeavesName (c : Context) (model s e : String) (p : Path) (v : Value) : Prop where
  label : p = [s, e, "model"] → v = .text model
  begun : (∃ segment rest, p = s :: e :: segment :: rest) →
    c.EntryIs s e (fun slot => slot.value = .null) → p = [s, e, "model"]

/-- A write of a whole entry goes inside none. -/
theorem leavesName_whole {space entry : String} {v : Value} :
    c.LeavesName model s e [space, entry] v where
  label h := by cases h
  begun h := by
    obtain ⟨_, _, heq⟩ := h
    cases heq

theorem slot?_write_below {state : SlotState} {v : Value} {segment : String} {rest : Path}
    (h : c.write state v (s :: e :: segment :: rest) = .ok d) :
    ∃ w, writeAt (Path.join (s :: e :: segment :: rest)) v [s, e] (c.opened s e).value
        (segment :: rest) = .ok w
      ∧ d.slot? s e = some ⟨w, (c.opened s e).state.touched⟩ := by
  rcases write_cases h with ⟨_, heq, _⟩ | ⟨_, _, heq, _⟩ | ⟨_, _, _, _, w, heq, inside, rfl⟩
  · cases heq
  · cases heq
  · cases heq
    refine ⟨w, inside, ?_⟩
    rw [slot?_putSlot, if_pos ⟨rfl, rfl⟩]

theorem opened_of_slot {slot : Slot} (hs : c.slot? s e = some slot) : c.opened s e = slot := by
  rw [opened, hs]
  rfl

/-- A write keeps the name of the model. -/
theorem names_of_write {state : SlotState} {v : Value} {p : Path}
    (step : c.write state v p = .ok d) (whole : p = [s, e] → v.Names model)
    (leaves : c.LeavesName model s e p v)
    (hc : c.EntryIs s e fun slot => slot.value.Names model) :
    d.EntryIs s e fun slot => slot.value.Names model := by
  intro slot hs
  rcases slot?_write_cases step hs with ⟨_, old⟩ | ⟨hp, rfl⟩ | ⟨segment, rest, _, hp, rfl, grows⟩
  · exact hc slot old
  · exact whole hp
  · subst hp
    obtain ⟨w, inside, there⟩ := slot?_write_below step
    rw [hs] at there
    cases there
    have label : segment :: rest = ["model"] → v = .text model :=
      fun here => leaves.label (by rw [here])
    intro mapping
    refine names_writeAt inside label ?_
    by_cases begins : c.EntryIs s e fun slot => slot.value = .null
    · have whole_path := leaves.begun ⟨segment, rest, rfl⟩ begins
      exact Or.inr (List.cons.inj (List.cons.inj whole_path).2).2
    · -- there is a value to be written into, which is a mapping
      obtain ⟨old, ho, hne⟩ : ∃ old, c.slot? s e = some old ∧ old.value ≠ .null := by
        by_contra none_held
        push Not at none_held
        exact begins none_held
      rw [opened_of_slot ho] at grows
      have held : old.value.IsMapping := by
        rcases grows with ⟨fields, _⟩ | ⟨_, items, rfl⟩
        · cases hv : old.value with
          | null => exact absurd hv hne
          | mapping fields => exact isMapping_mapping fields
          | _ =>
            rw [hv] at fields
            cases fields
        · obtain ⟨_, heq⟩ := mapping
          cases heq
      rw [opened_of_slot ho]
      exact Or.inl (hc old ho held)

/-- Writes inside an entry that names the model, or of which one names it, leave it named. -/
theorem names_of_writes {changes : List Change} (h : c.applyChanges changes = .ok d)
    (inside : ∀ change ∈ changes, ∃ segment rest v, change = .write (s :: e :: segment :: rest) v
      ∧ (segment = "model" → rest = [] ∧ v = .text model))
    {slot : Slot} (hs : c.slot? s e = some slot)
    (named : slot.value.field? "model" = some (.text model) ∨
      .write [s, e, "model"] (.text model) ∈ changes) :
    ∃ after, d.slot? s e = some after ∧ after.value.field? "model" = some (.text model) := by
  induction changes generalizing c slot with
  | nil =>
    cases h
    exact ⟨slot, hs, named.resolve_right List.not_mem_nil⟩
  | cons change rest ih =>
    rw [List.forall_mem_cons] at inside
    obtain ⟨m, one, others⟩ := applyChanges_cons h
    obtain ⟨⟨segment, place, v, rfl, label⟩, inside⟩ := inside
    have one : c.write .plain v (s :: e :: segment :: place) = .ok m := one
    obtain ⟨w, written, there⟩ := slot?_write_below one
    rw [opened_of_slot hs] at written
    refine ih others inside there ?_
    by_cases here : segment :: place = ["model"]
    · refine Or.inl (names_writeAt written (fun _ => ?_) (Or.inr here))
      exact (label (List.cons.inj here).1).2
    · rcases named with field | later
      · exact Or.inl (names_writeAt written (fun h => absurd h here) (Or.inl field))
      · rcases List.mem_cons.mp later with heq | later
        · cases heq
          exact absurd rfl here
        · exact Or.inr later

/-! ## §3 Merges -/

/-- Between values that name the same model, no other one is written. -/
theorem name_of_mem_byFields {old new : Value} {fields added : Fields}
    (shape : ByFields old new fields added) (hold : old.Names model) (hnew : new.NamesOnly model)
    {change : Change} (h : change ∈ valueChanges [s, e] old new) :
    ∃ segment rest v, change = .write (s :: e :: segment :: rest) v
      ∧ (segment = "model" → rest = [] ∧ v = .text model) := by
  rw [valueChanges_byFields shape] at h
  obtain ⟨⟨k, x⟩, he, hc⟩ := List.mem_flatMap.mp h
  obtain ⟨place, v, heq⟩ := write_of_mem_fieldChange hc
  refine ⟨k, place, v, heq, ?_⟩
  rintro rfl
  have named := (hnew added shape.1).2 _ he rfl
  dsimp only at named
  subst named
  rcases fieldChange_cases [s, e] fields ("model", .text model) with ⟨_, hw⟩ | ⟨w, hw, same⟩
  · rw [hw, List.mem_singleton] at hc
    rw [hc] at heq
    cases heq
    exact ⟨rfl, rfl⟩
  · -- the field is in the old value, which is a mapping then and names the model
    have held : old.field? "model" = some w := by
      rcases shape.2 with rfl | ⟨_, rfl, _⟩
      · exact hw
      · cases hw
    rw [hold (IsMapping.of_field? held), Option.some.injEq] at held
    subst held
    rcases same with ⟨_, none_written⟩ | ⟨differs, _⟩
    · rw [none_written] at hc
      exact absurd hc List.not_mem_nil
    · rw [Value.same] at differs
      simp at differs

/-- The name of the model is among the fields that are written in the place of null. -/
theorem write_name_mem {new : Value} {added : Fields} (shape : ByFields .null new [] added)
    (hnew : new.NamesOnly model) :
    .write [s, e, "model"] (.text model) ∈ valueChanges [s, e] .null new := by
  rw [valueChanges_byFields shape]
  refine List.mem_flatMap.mpr ⟨_, (hnew added shape.1).1, ?_⟩
  exact List.mem_singleton.mpr rfl

/-- An entry goes on naming the model through merges of branches that name it only. -/
theorem survives_names (model s e : String) :
    Survives s e (fun slot => slot.value.Names model) (fun slot => slot.value.NamesOnly model) := by
  intro m d old? new h _ hold hnew hm stage
  cases old? with
  | none =>
    have there := slot?_of_new h
    exact ⟨.of_slot there hnew.names, (hasMapping_iff there).mpr⟩
  | some old =>
    have hold := hold old rfl
    obtain ⟨k, written, tagged⟩ := applyChanges_append h
    by_cases shape : ∃ fields added, ByFields old.value new.value fields added
    · obtain ⟨fields, added, shape⟩ := shape
      obtain ⟨slot, hs, stage⟩ := slot_of_stage (stage ⟨added, shape.1⟩)
      have named : slot.value.field? "model" = some (.text model) ∨
          .write [s, e, "model"] (.text model) ∈ valueChanges [s, e] old.value new.value := by
        rcases stage with rfl | mapping
        · rcases shape.2 with mapping | ⟨null, rfl, _⟩
          · exact Or.inl (hold ⟨fields, mapping⟩)
          · rw [null] at shape ⊢
            exact Or.inr (write_name_mem shape hnew)
        · exact Or.inl (hm slot hs mapping)
      obtain ⟨after, ha, field⟩ := names_of_writes written
        (fun change hc => name_of_mem_byFields shape hold hnew hc) hs named
      have there := slot?_of_retag tagged ha
      exact ⟨.of_slot there fun _ => field,
        fun _ => (hasMapping_iff there).mpr (IsMapping.of_field? field)⟩
    · have whole : ∀ fields added, ¬ ByFields old.value new.value fields added :=
        fun fields added h => shape ⟨fields, added, h⟩
      rw [valueChanges_whole whole] at written
      cases same : old.value.same new.value with
      | true =>
        -- only the tag is written, and the branch holds no mapping
        have no_mapping : ¬ new.value.IsMapping := by
          rintro ⟨added, hn⟩
          obtain ⟨fields, ho⟩ := (isMapping_iff_of_same same).mpr ⟨added, hn⟩
          exact whole fields added ⟨hn, Or.inl ho⟩
        rw [same] at written
        cases written
        refine ⟨?_, fun mapping => absurd mapping no_mapping⟩
        intro slot hs
        rw [map_slot?_of_retag tagged, Option.map_eq_some_iff] at hs
        obtain ⟨before, hb, rfl⟩ := hs
        exact hm before hb
      | false =>
        rw [same] at written
        have there := slot?_of_retag tagged (slot?_of_write_whole written)
        exact ⟨.of_slot there hnew.names, (hasMapping_iff there).mpr⟩

end Context

end Tabletop
