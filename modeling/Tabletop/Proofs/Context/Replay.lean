/-
Tabletop.Proofs.Context.Replay — when replaying the changes of a context
gives the context back.

The changes of a context since its base can always be replayed on the base.
What comes out agrees with the context exactly if every entry of both is
replayable: no key was taken out of a mapping of it, and its state is one
that the replayed writes leave (`replay_agrees_iff`). A removal is no change,
and an entry whose state is the same as before is not tagged, though writes
change states.

  §1 Replayable entries
  §2 The state after the changes of a context
  §3 Replaying the changes of a context
-/
import Tabletop.Proofs.Context.Concern

namespace Tabletop

namespace Context

open Tabletop.Path Tabletop.Value

/-! ## §1 Replayable entries -/

/-- The state is another one, or one that the writes between the values leave: a plain entry stays
plain, a write inside an entry keeps it raw, and an entry without writes keeps its state. -/
def KeepsState (old new : Slot) : Prop :=
  old.state = new.state → new.state = .plain ∨ old.value.same new.value = true ∨
    ∃ model, new.state = .raw model ∧ ∃ fields added, ByFields old.value new.value fields added

/-- No key was taken out of the entries that both contexts have, and their states are kept. -/
def Replayable (base next : Context) : Prop :=
  ∀ space entry old new, base.slot? space entry = some old → next.slot? space entry = some new →
    ¬ old.value.Loses new.value ∧ KeepsState old new

/-- Writes that go into an entry make its state that of a touched entry. -/
theorem stateAfter_byFields {space entry : String} {old new : Value} {fields added : Fields}
    (shape : ByFields old new fields added) (state : SlotState) :
    stateAfter space entry (some state) (valueChanges [space, entry] old new)
      = some (if valueChanges [space, entry] old new = [] then state else state.touched) := by
  have inside : ∀ change ∈ valueChanges [space, entry] old new, ∀ s,
      change.stateAfter space entry (some s) = some s.touched := by
    intro change h s
    obtain ⟨k, place, v, rfl⟩ := write_of_mem_byFields shape h
    exact if_pos ⟨rfl, rfl⟩
  generalize valueChanges [space, entry] old new = changes at inside ⊢
  induction changes generalizing state with
  | nil => rfl
  | cons change rest ih =>
    unfold stateAfter
    rw [List.foldl_cons, inside change List.mem_cons_self]
    have later := ih state.touched fun c hc => inside c (List.mem_cons_of_mem _ hc)
    unfold stateAfter at later
    rw [later, touched_touched]
    simp

/-- The writes of a value that loses nothing leave the state exactly if the state is kept. -/
theorem stateAfter_valueChanges_iff {space entry : String} {old new : Slot}
    (ho : old.value.WellFormed) (hn : new.value.WellFormed)
    (kept : ¬ old.value.Loses new.value) (equal : old.state = new.state) :
    stateAfter space entry (some old.state) (valueChanges [space, entry] old.value new.value)
      = some new.state ↔ KeepsState old new := by
  have none_iff := valueChanges_eq_nil_iff ho hn kept [space, entry]
  unfold KeepsState
  by_cases h : ∃ fields added, ByFields old.value new.value fields added
  · obtain ⟨fields, added, shape⟩ := h
    rw [stateAfter_byFields shape, equal]
    simp only [none_iff]
    cases hs : old.value.same new.value with
    | true => simp
    | false =>
      have split : ∃ fields added, ByFields old.value new.value fields added :=
        ⟨fields, added, shape⟩
      cases new.state <;> simp [SlotState.touched, split]
  · have whole : ∀ fields added, ¬ ByFields old.value new.value fields added :=
      fun fields added shape => h ⟨fields, added, shape⟩
    rw [valueChanges_whole whole, equal]
    cases hs : old.value.same new.value with
    | true => simp [stateAfter]
    | false =>
      cases new.state <;> simp [stateAfter, Change.stateAfter, whole]

/-! ## §2 The state after the changes of a context -/

/-- Only the changes of the entry itself matter to its state. -/
theorem stateAfter_changesSince {base next : Context} (hn : next.Indexed)
    (space entry : String) (state : Option SlotState) :
    stateAfter space entry state (next.changesSince base)
      = match next.slot? space entry with
        | some new =>
            stateAfter space entry state (slotChanges space entry (base.slot? space entry) new)
        | none => state := by
  rcases changesSince_around base hn space entry with
    ⟨gone, elsewhere⟩ | ⟨new, before, after, hs, split, first, last⟩
  · rw [gone]
    exact stateAfter_elsewhere elsewhere state
  · rw [hs, split, stateAfter_append, stateAfter_append, stateAfter_elsewhere first,
      stateAfter_elsewhere last]

/-- What the replayed changes make of the state of an entry of the context. -/
theorem stateAfter_changesSince_eq_iff {base next : Context} (hb : base.WellFormed)
    (hn : next.WellFormed) {space entry : String} {new : Slot}
    (hnew : next.slot? space entry = some new)
    (kept : ∀ old, base.slot? space entry = some old → ¬ old.value.Loses new.value) :
    stateAfter space entry (base.state? space entry) (next.changesSince base) = some new.state
      ↔ ∀ old, base.slot? space entry = some old → KeepsState old new := by
  rw [stateAfter_changesSince hn.toIndexed, hnew]
  change stateAfter space entry (base.state? space entry)
    (slotChanges space entry (base.slot? space entry) new) = _ ↔ _
  unfold state?
  cases hold : base.slot? space entry with
  | none => simp [slotChanges, stateAfter, Change.stateAfter]
  | some old =>
    have kept := kept old hold
    change stateAfter space entry (some old.state) (valueChanges [space, entry] old.value new.value
      ++ if old.state = new.state then [] else [.retag space entry new.state]) = _ ↔ _
    by_cases same : old.state = new.state
    · rw [if_pos same, List.append_nil,
        stateAfter_valueChanges_iff (hb.values hold) (hn.values hnew) kept same]
      simp
    · rw [if_neg same, stateAfter_append]
      have there : (stateAfter space entry (some old.state)
          (valueChanges [space, entry] old.value new.value)).isSome = true :=
        stateAfter_isSome rfl _
      obtain ⟨state, hs⟩ := Option.isSome_iff_exists.mp there
      rw [hs]
      simp [stateAfter, Change.stateAfter, KeepsState, same]

/-! ## §3 Replaying the changes of a context -/

/-- Contexts that come from one base and have the same entries have the same namespaces. -/
theorem mem_spaces_iff {base c d : Context} (hc : base.Edits c) (hd : base.Edits d)
    (slots : ∀ space entry, (c.slot? space entry).isSome = (d.slot? space entry).isSome)
    (space : String) : space ∈ Entries.keys c.spaces ↔ space ∈ Entries.keys d.spaces := by
  have one : ∀ {c d : Context}, base.Edits c → base.Edits d →
      (∀ space entry, (c.slot? space entry).isSome = (d.slot? space entry).isSome) →
      space ∈ Entries.keys c.spaces → space ∈ Entries.keys d.spaces := by
    intro c d hc hd slots h
    rcases hc.new_space h with h | ⟨e, he⟩
    · exact hd.space_mem h
    · rw [slots] at he
      obtain ⟨slot, hs⟩ := Option.isSome_iff_exists.mp he
      exact mem_spaces_of_slot? hs
  exact ⟨one hc hd slots, one hd hc fun s e => (slots s e).symm⟩

/-- What a replay makes of a base resembles the context wherever a change has been or the base
resembles the context. -/
theorem Replayed.resembles_of {base next merged : Context} {changes : List Change}
    (replayed : Replayed base changes merged) (holds : next.Holds changes)
    (wf : merged.WellFormed) {p : Path}
    (h : (∃ q v, .write q v ∈ changes ∧ ¬ Clear q p) ∨ base.Resembles next p) :
    merged.Resembles next p := by
  by_cases clear : ∀ q v, .write q v ∈ changes → Clear q p
  · have kept := replayed.keeps p clear
    rcases h with ⟨q, v, hw, touches⟩ | h
    · exact absurd (clear q v hw) touches
    · match p with
      | [] => exact .none
      | [name] =>
        rw [resembles_alias] at h ⊢
        rw [stored?_alias, stored?_alias] at kept
        rw [kept]
        exact h
      | space :: entry :: rest =>
        rw [resembles_entry] at h ⊢
        rw [kept]
        exact h
  · push Not at clear
    obtain ⟨q, v, hw, touches⟩ := clear
    exact replayed.toHolds.resembles holds wf hw touches

section

variable {base next merged : Context}

/-- If a replay gives the context back, no key was taken out of its entries. -/
theorem not_loses_of_agrees (hn : next.WellFormed) (edits : base.Edits next)
    (unhidden : ∀ name ∈ Entries.keys next.aliases, name ∉ Entries.keys next.spaces)
    (replayed : Replayed base (next.changesSince base) merged) (wf : merged.WellFormed)
    (agrees : merged.Agrees next) {space entry : String} {old new : Slot}
    (hold : base.slot? space entry = some old) (hnew : next.slot? space entry = some new) :
    ¬ old.value.Loses new.value := by
  intro lost
  obtain ⟨rest, there, gone, clear⟩ := exists_lost_place hn hold hnew lost
  have hidden : Entries.get? next.aliases space = none := by
    rw [Entries.get?_eq_none_iff]
    exact fun named => unhidden space named (mem_spaces_of_slot? hnew)
  have hidden' : Entries.get? merged.aliases space = none := by
    have alias_ := replayed.resembles_of (holds_changesSince hn base) wf
      (alias_written_or_resembles hn edits space)
    have there := isSome_eq_of_rel (resembles_alias.mp alias_)
    rw [hidden] at there
    rw [← Option.not_isSome_iff_eq_none, there]
    simp
  -- the lost place reads as in the base after the replay, and not at all in the context
  have equal := isSome_eq_of_rel (agrees.lookup (space :: entry :: rest))
  rw [lookup_entry hidden, lookup_entry hidden', replayed.keeps _ clear, there, gone] at equal
  cases equal

/-- If the entries are replayable, a replay gives the context back. -/
theorem agrees_of_replayable (hb : base.WellFormed) (hn : next.WellFormed)
    (edits : base.Edits next) (ok : base.applyChanges (next.changesSince base) = .ok merged)
    (replayed : Replayed base (next.changesSince base) merged) (wf : merged.WellFormed)
    (replayable : Replayable base next) : merged.Agrees next := by
  have kept : ∀ space entry old new, base.slot? space entry = some old →
      next.slot? space entry = some new → ¬ old.value.Loses new.value :=
    fun s e old new ho hn => (replayable s e old new ho hn).1
  have stored := sameAs_of_resembles wf hn fun p =>
    replayed.resembles_of (holds_changesSince hn base) wf (written_or_resembles hb hn edits kept p)
  have slots : ∀ space entry,
      (merged.slot? space entry).isSome = (next.slot? space entry).isSome := by
    intro space entry
    have there := isSome_eq_of_rel (stored [space, entry])
    rw [stored?_slot, stored?_slot, Option.isSome_map, Option.isSome_map] at there
    exact there
  refine ⟨sameAs_lookup wf hn (mem_spaces_iff (edits_applyChanges ok) edits slots) stored, ?_⟩
  intro space entry
  have state := state?_applyChanges ok space entry
  cases hnew : next.slot? space entry with
  | none =>
    have there := slots space entry
    rw [hnew] at there
    have gone : merged.slot? space entry = none := by
      rw [← Option.not_isSome_iff_eq_none, there]
      simp
    rw [gone]
  | some new =>
    rw [(stateAfter_changesSince_eq_iff hb hn hnew fun old ho =>
      kept space entry old new ho hnew).mpr fun old ho =>
        (replayable space entry old new ho hnew).2] at state
    exact state

end

/-- The changes of a context since its base can be replayed on the base, and what comes out agrees
with the context exactly if its entries are replayable. -/
theorem replay_agrees_iff {base next : Context} (hb : base.WellFormed) (hn : next.WellFormed)
    (edits : base.Edits next)
    (unhidden : ∀ name ∈ Entries.keys next.aliases, name ∉ Entries.keys next.spaces) :
    ∃ merged, base.applyChanges (next.changesSince base) = .ok merged
      ∧ (merged.Agrees next ↔ Replayable base next) := by
  have apart := changesSince_apart hn base fun e he _ => unhidden e.1 (Entries.mem_keys_of_mem he)
  obtain ⟨merged, ok, replayed⟩ := applyChanges_of_admits apart
    fun p v hw => admits_changesSince hn edits hw
  have wf := replayed.wellFormed hb fun p v hw => wellFormed_changesSince hn hw
  refine ⟨merged, ok, ?_, agrees_of_replayable hb hn edits ok replayed wf⟩
  intro agrees space entry old new hold hnew
  have kept : ∀ old, base.slot? space entry = some old → ¬ old.value.Loses new.value :=
    fun old hold => not_loses_of_agrees hn edits unhidden replayed wf agrees hold hnew
  have state : merged.state? space entry = some new.state := by
    have state := agrees.states space entry
    rw [hnew] at state
    exact state
  rw [state?_applyChanges ok] at state
  exact ⟨kept old hold, (stateAfter_changesSince_eq_iff hb hn hnew kept).mp state old hold⟩

end Context

end Tabletop
