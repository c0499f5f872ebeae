/-
Tabletop.Proofs.Context.Tagging — mappings are tagged, through merges.

An entry is proper if it is tagged exactly when it holds a mapping. Applying
the changes of a proper entry to a proper one gives a proper one, with one
exception: writes into an entry from which another branch has taken the
mapping away. So if no branch changes an entry to a mapping after another
one has changed it to something else, a merge leaves it proper.

  §1 Proper entries
  §2 Writes inside an entry
  §3 The changes of one branch
  §4 Merges
-/
import Tabletop.Proofs.Context.Concern
import Tabletop.Proofs.Context.Disjoint

namespace Tabletop

/-! ## §1 Proper entries -/

/-- The value is a mapping. -/
def Value.IsMapping (v : Value) : Prop := ∃ fields, v = .mapping fields

/-- The entry is tagged exactly if it holds a mapping. -/
def Slot.Proper (slot : Slot) : Prop := slot.value.IsMapping ↔ slot.state ≠ .plain

theorem SlotState.touched_eq_plain {state : SlotState} :
    state.touched = .plain ↔ state = .plain := by
  cases state <;> simp [touched]

theorem Value.isMapping_mapping (fields : Fields) : (Value.mapping fields).IsMapping :=
  ⟨fields, rfl⟩

theorem Value.not_isMapping_null : ¬ Value.null.IsMapping := by
  rintro ⟨fields, mapping⟩
  cases mapping

theorem Value.IsMapping.fields? {v : Value} (h : v.IsMapping) : v.fields?.isSome = true := by
  obtain ⟨fields, rfl⟩ := h
  rfl

/-- Only a mapping is the same as a mapping. -/
theorem Value.isMapping_iff_of_same {v w : Value} (h : v.same w = true) :
    v.IsMapping ↔ w.IsMapping := by
  cases v <;> cases w <;> simp_all [Value.same, Value.IsMapping]

theorem Slot.Proper.state_eq_plain {slot : Slot} (h : slot.Proper) (hv : ¬ slot.value.IsMapping) :
    slot.state = .plain := by
  by_cases hs : slot.state = .plain
  · exact hs
  · exact absurd (h.mpr hs) hv

/-- A proper entry stays proper when something is written inside it, unless it holds null. -/
theorem Slot.Proper.grown {slot : Slot} {w : Value} (proper : slot.Proper)
    (hne : slot.value ≠ .null) (grows : Context.Grows slot.value w) :
    Slot.Proper ⟨w, slot.state.touched⟩ := by
  rcases grows with ⟨fields, mapping⟩ | ⟨⟨items, list⟩, items', rfl⟩
  · have held : slot.value.IsMapping := by
      cases hv : slot.value with
      | null => exact absurd hv hne
      | mapping fields => exact Value.isMapping_mapping fields
      | _ =>
        rw [hv] at fields
        cases fields
    refine iff_of_true mapping ?_
    rw [Ne, SlotState.touched_eq_plain]
    exact proper.mp held
  · have not_held : ¬ slot.value.IsMapping := by
      rintro ⟨fields, mapping⟩
      rw [mapping] at list
      cases list
    refine iff_of_false ?_ ?_
    · rintro ⟨fields, mapping⟩
      cases mapping
    · have plain := proper.state_eq_plain not_held
      exact fun tagged => tagged (SlotState.touched_eq_plain.mpr plain)

namespace Context

open Tabletop.Value

/-! ## §2 Writes inside an entry -/

/-- Writes inside an entry with fields leave a mapping there, and take back that it is validated. -/
theorem writes_inside {c d : Context} {changes : List Change} {s e : String}
    (h : c.applyChanges changes = .ok d)
    (inside : ∀ change ∈ changes, ∃ segment rest v, change = .write (s :: e :: segment :: rest) v)
    {slot : Slot} (hs : c.slot? s e = some slot) (open_there : slot.value.fields?.isSome = true) :
    ∃ after, d.slot? s e = some after ∧ (changes = [] ∧ after = slot ∨
      after.value.IsMapping ∧ after.state = slot.state.touched) := by
  induction changes generalizing c slot with
  | nil =>
    cases h
    exact ⟨slot, hs, Or.inl ⟨rfl, rfl⟩⟩
  | cons change rest ih =>
    rw [List.forall_mem_cons] at inside
    obtain ⟨m, one, others⟩ := applyChanges_cons h
    obtain ⟨segment, place, v, rfl⟩ := inside.1
    have one : c.write .plain v (s :: e :: segment :: place) = .ok m := one
    have stays : (m.slot? s e).isSome = true :=
      (Edits.refl.write one).slot_isSome (by rw [hs]; rfl)
    obtain ⟨grown, hg⟩ := Option.isSome_iff_exists.mp stays
    have found : c.opened s e = slot := by rw [opened, hs]; rfl
    have first : grown.value.IsMapping ∧ grown.state = slot.state.touched := by
      rcases slot?_write_cases one hg with ⟨apart, _⟩ | ⟨heq, _⟩ | ⟨_, _, w, _, rfl, grows⟩
      · exact absurd ⟨_, rfl⟩ apart
      · cases heq
      · rw [found] at grows ⊢
        rcases grows with ⟨_, mapping⟩ | ⟨⟨items, list⟩, _⟩
        · exact ⟨mapping, rfl⟩
        · rw [list] at open_there
          cases open_there
    obtain ⟨after, ha, ⟨_, rfl⟩ | ⟨mapping, state⟩⟩ := ih others inside.2 hg first.1.fields?
    · exact ⟨_, ha, Or.inr first⟩
    · refine ⟨after, ha, Or.inr ⟨mapping, ?_⟩⟩
      rw [state, first.2, touched_touched]

/-! ## §3 The changes of one branch -/

/-- What is written whole is there. -/
theorem slot?_of_write_whole {c d : Context} {v : Value} {s e : String}
    (h : c.applyChanges [.write [s, e] v] = .ok d) : d.slot? s e = some ⟨v, .plain⟩ := by
  obtain ⟨m, one, rest⟩ := applyChanges_cons h
  have one : c.write .plain v [s, e] = .ok m := one
  rw [write_slot] at one
  cases one
  cases rest
  rw [slot?_putSlot, if_pos ⟨rfl, rfl⟩]

/-- An entry that the base does not have is written as the branch has it. -/
theorem slot?_of_new {c d : Context} {s e : String} {new : Slot}
    (h : c.applyChanges (slotChanges s e none new) = .ok d) : d.slot? s e = some new := by
  have h : c.applyChanges ([.write [s, e] new.value] ++ [.retag s e new.state]) = .ok d := h
  obtain ⟨k, one, rest⟩ := applyChanges_append h
  obtain ⟨_, two, rest⟩ := applyChanges_cons rest
  cases two
  cases rest
  rw [slot?_retagSlot, if_pos ⟨rfl, rfl⟩, slot?_of_write_whole one]
  rfl

/-- The tag of a branch, where its state is another one than in the base. -/
theorem map_slot?_of_retag {c d : Context} {s e : String} {old new : SlotState}
    (h : c.applyChanges (if old = new then [] else [.retag s e new]) = .ok d) :
    d.slot? s e = (c.slot? s e).map fun slot =>
      { slot with state := if old = new then slot.state else new } := by
  by_cases same : old = new
  · rw [if_pos same] at h
    cases h
    simp [same]
  · rw [if_neg same] at h
    obtain ⟨m, one, rest⟩ := applyChanges_cons h
    cases one
    cases rest
    rw [slot?_retagSlot, if_pos ⟨rfl, rfl⟩]
    simp [same]

theorem slot?_of_retag {c d : Context} {s e : String} {old new : SlotState} {slot : Slot}
    (h : c.applyChanges (if old = new then [] else [.retag s e new]) = .ok d)
    (hs : c.slot? s e = some slot) :
    d.slot? s e = some { slot with state := if old = new then slot.state else new } := by
  rw [map_slot?_of_retag h, hs, Option.map_some]

/-- A branch that writes field by field leaves a tagged mapping, where there is a mapping or what
the base holds. -/
theorem proper_of_byFields {m k d : Context} {s e : String} {old new slot : Slot}
    {fields added : Fields} (shape : ByFields old.value new.value fields added)
    (written : m.applyChanges (valueChanges [s, e] old.value new.value) = .ok k)
    (tagged : k.applyChanges (if old.state = new.state then [] else [.retag s e new.state]) = .ok d)
    (hold : old.Proper) (hnew : new.Proper) (hs : m.slot? s e = some slot) (proper : slot.Proper)
    (stage : slot = old ∨ slot.value.IsMapping) :
    ∃ after, d.slot? s e = some after ∧ after.value.IsMapping ∧ after.state ≠ .plain := by
  have new_tagged : new.state ≠ .plain := hnew.mp ⟨added, shape.1⟩
  have open_there : slot.value.fields?.isSome = true := by
    rcases stage with rfl | mapping
    · rw [shape.fields?]
      rfl
    · exact mapping.fields?
  have inside : ∀ change ∈ valueChanges [s, e] old.value new.value,
      ∃ segment rest v, change = .write (s :: e :: segment :: rest) v :=
    fun change hc => write_of_mem_byFields shape hc
  obtain ⟨inner, hi, filled⟩ := writes_inside written inside hs open_there
  have state : slot.value.IsMapping → inner.state ≠ .plain := by
    intro mapping
    rcases filled with ⟨_, rfl⟩ | ⟨_, touched⟩
    · exact proper.mp mapping
    · rw [touched, Ne, SlotState.touched_eq_plain]
      exact proper.mp mapping
  refine ⟨_, slot?_of_retag tagged hi, ?_, ?_⟩
  · rcases filled with ⟨none_written, rfl⟩ | ⟨mapping, _⟩
    · rcases stage with rfl | mapping
      · -- a mapping in the place of null has a field, which is written
        rcases shape.2 with mapping | ⟨_, rfl, hne⟩
        · exact ⟨fields, mapping⟩
        · rw [valueChanges_byFields shape, List.flatMap_eq_nil_iff] at none_written
          obtain ⟨first, hf⟩ := List.exists_mem_of_ne_nil added hne
          cases none_written first hf
      · exact mapping
    · exact mapping
  · by_cases same : old.state = new.state
    · rw [if_pos same]
      rcases stage with rfl | mapping
      · exact state (hold.mpr (same ▸ new_tagged))
      · exact state mapping
    · rw [if_neg same]
      exact new_tagged

/-- A branch that writes the whole entry leaves it proper. -/
theorem proper_of_whole {m k d : Context} {s e : String} {old new : Slot}
    (whole : ∀ fields added, ¬ ByFields old.value new.value fields added)
    (written : m.applyChanges (valueChanges [s, e] old.value new.value) = .ok k)
    (tagged : k.applyChanges (if old.state = new.state then [] else [.retag s e new.state]) = .ok d)
    (hold : old.Proper) (hnew : new.Proper)
    (some_change : slotChanges s e (some old) new ≠ []) :
    ∃ after, d.slot? s e = some after ∧ after.Proper ∧ after.value = new.value := by
  have apart : new.value.IsMapping → ¬ old.value.IsMapping := by
    rintro ⟨added, hn⟩ ⟨fields, ho⟩
    exact whole fields added ⟨hn, Or.inl ho⟩
  rw [valueChanges_whole whole] at written
  cases same : old.value.same new.value with
  | true =>
    have alike := Value.isMapping_iff_of_same same
    have no_mapping : ¬ new.value.IsMapping := fun h => apart h (alike.mpr h)
    have plain : old.state = new.state := by
      rw [hold.state_eq_plain fun h => no_mapping (alike.mp h), hnew.state_eq_plain no_mapping]
    refine absurd ?_ some_change
    simp [slotChanges, valueChanges_whole whole, same, plain]
  | false =>
    rw [same] at written
    refine ⟨_, slot?_of_retag tagged (slot?_of_write_whole written), ?_, rfl⟩
    by_cases equal : old.state = new.state
    · have no_mapping : ¬ new.value.IsMapping := by
        intro mapping
        exact hnew.mp mapping (equal ▸ hold.state_eq_plain (apart mapping))
      rw [if_pos equal]
      exact iff_of_false no_mapping fun h => h rfl
    · rw [if_neg equal]
      exact hnew

/-! ## §4 Merges -/

/-- The context has changes of the entry since the base. -/
def Alters (base next : Context) (s e : String) : Prop :=
  ∃ change ∈ next.changesSince base, change.Concerns s e

/-- The entry holds a mapping. -/
def HasMapping (c : Context) (s e : String) : Prop :=
  ∃ slot, c.slot? s e = some slot ∧ slot.value.IsMapping

/-- No branch changes the entry to a mapping after another one has changed it to something else. -/
def InOrder (base : Context) (nexts : List Context) (s e : String) : Prop :=
  nexts.Pairwise fun first later =>
    base.Alters first s e → ¬ first.HasMapping s e → base.Alters later s e → ¬ later.HasMapping s e

theorem hasMapping_iff {c : Context} {s e : String} {slot : Slot} (hs : c.slot? s e = some slot) :
    c.HasMapping s e ↔ slot.value.IsMapping := by simp [HasMapping, hs]

theorem EntryIs.of_slot {c : Context} {s e : String} {slot : Slot} {P : Slot → Prop}
    (hs : c.slot? s e = some slot) (h : P slot) : c.EntryIs s e P := by
  intro other ho
  rw [hs] at ho
  cases ho
  exact h

/-- What a branch that leaves a mapping is replayed on. -/
theorem slot_of_stage {m : Context} {s e : String} {old : Slot}
    (stage : m.slot? s e = some old ∨ m.HasMapping s e) :
    ∃ slot, m.slot? s e = some slot ∧ (slot = old ∨ slot.value.IsMapping) := by
  rcases stage with same | ⟨slot, hs, hv⟩
  · exact ⟨old, same, Or.inl rfl⟩
  · exact ⟨slot, hs, Or.inr hv⟩

/-- A replay of the changes of a branch leaves an entry that the branch does not change, and replays
the changes of one that it does. -/
theorem unaltered_or_replayed {base next m d : Context} {s e : String} (hn : next.Indexed)
    (h : m.applyChanges (next.changesSince base) = .ok d) :
    (¬ base.Alters next s e ∧ d.slot? s e = m.slot? s e) ∨
      ∃ (new : Slot) (first last : Context), base.Alters next s e ∧ next.slot? s e = some new
        ∧ slotChanges s e (base.slot? s e) new ≠ []
        ∧ first.applyChanges (slotChanges s e (base.slot? s e) new) = .ok last
        ∧ first.slot? s e = m.slot? s e ∧ d.slot? s e = last.slot? s e := by
  rcases changesSince_around base hn s e with
    ⟨_, elsewhere⟩ | ⟨new, before, after, hs, split, ahead, behind⟩
  · refine Or.inl ⟨?_, slot?_applyChanges_elsewhere h elsewhere⟩
    rintro ⟨change, hc, concerns⟩
    exact elsewhere change hc concerns
  · rw [split] at h
    obtain ⟨last, h, ended⟩ := applyChanges_append h
    obtain ⟨first, begun, h⟩ := applyChanges_append h
    have begin_same := slot?_applyChanges_elsewhere begun ahead
    have end_same := slot?_applyChanges_elsewhere ended behind
    by_cases none_there : slotChanges s e (base.slot? s e) new = []
    · refine Or.inl ⟨?_, ?_⟩
      · rintro ⟨change, hc, concerns⟩
        rw [split, none_there, List.append_nil] at hc
        rcases List.mem_append.mp hc with hc | hc
        · exact ahead change hc concerns
        · exact behind change hc concerns
      · rw [none_there] at h
        cases h
        rw [end_same, begin_same]
    · obtain ⟨change, hc⟩ := List.exists_mem_of_ne_nil _ none_there
      have alters : base.Alters next s e := by
        refine ⟨change, ?_, concerns_of_mem_slotChanges hc⟩
        rw [split]
        exact List.mem_append_left _ (List.mem_append_right _ hc)
      exact Or.inr ⟨new, first, last, alters, hs, none_there, h, begin_same, end_same⟩

/-- Whatever a branch that makes the entry of the second kind has changed there, replaying it keeps
the entry of the first kind, and leaves a mapping if the branch does. Where the branch leaves a
mapping, it is replayed on what the base holds or on a mapping. -/
def Survives (s e : String) (P Q : Slot → Prop) : Prop :=
  ∀ (m d : Context) (old? : Option Slot) (new : Slot),
    m.applyChanges (slotChanges s e old? new) = .ok d → slotChanges s e old? new ≠ [] →
    (∀ old, old? = some old → P old) → Q new → m.EntryIs s e P →
    (new.value.IsMapping → m.slot? s e = old? ∨ m.HasMapping s e) →
      d.EntryIs s e P ∧ (new.value.IsMapping → d.HasMapping s e)

variable {P Q : Slot → Prop}

/-- The changes of one branch leave an entry of its kind. -/
theorem Survives.branch {base next m d : Context} {s e : String} (survives : Survives s e P Q)
    (h : m.applyChanges (next.changesSince base) = .ok d) (hn : next.Indexed)
    (hbase : base.EntryIs s e P) (hnext : next.EntryIs s e Q) (hm : m.EntryIs s e P)
    (stage : base.Alters next s e → next.HasMapping s e →
      m.slot? s e = base.slot? s e ∨ m.HasMapping s e) :
    (¬ base.Alters next s e ∧ d.slot? s e = m.slot? s e) ∨
      base.Alters next s e ∧ d.EntryIs s e P ∧ (next.HasMapping s e → d.HasMapping s e) := by
  rcases unaltered_or_replayed hn h with
    untouched | ⟨new, first, last, alters, hs, some_change, replay, begin_same, end_same⟩
  · exact Or.inl untouched
  · have stage' : new.value.IsMapping →
        first.slot? s e = base.slot? s e ∨ first.HasMapping s e := by
      unfold HasMapping at stage ⊢
      rw [begin_same]
      exact fun mapping => stage alters ⟨new, hs, mapping⟩
    obtain ⟨kept, mapping⟩ := survives first last _ new replay some_change hbase
      (hnext new hs) (fun slot hslot => hm slot (begin_same ▸ hslot)) stage'
    refine Or.inr ⟨alters, fun slot there => kept slot (end_same ▸ there), ?_⟩
    rw [hasMapping_iff hs]
    unfold HasMapping at mapping ⊢
    rw [end_same]
    exact mapping

/-- Branches whose changes are in order leave an entry of its kind. -/
theorem Survives.merge {base m d : Context} {nexts : List Context} {s e : String}
    (survives : Survives s e P Q) (h : m.applyChanges (base.changesOf nexts) = .ok d)
    (indexed : ∀ next ∈ nexts, next.Indexed) (hbase : base.EntryIs s e P)
    (each : ∀ next ∈ nexts, next.EntryIs s e Q) (order : base.InOrder nexts s e)
    (hm : m.EntryIs s e P)
    (stage : m.slot? s e = base.slot? s e ∨ m.HasMapping s e ∨
      ∀ next ∈ nexts, base.Alters next s e → ¬ next.HasMapping s e) :
    d.EntryIs s e P := by
  induction nexts generalizing m with
  | nil =>
    cases h
    exact hm
  | cons next rest ih =>
    rw [changesOf, List.flatMap_cons] at h
    rw [List.forall_mem_cons] at indexed each
    obtain ⟨later, order⟩ := List.pairwise_cons.mp order
    obtain ⟨m', first, others⟩ := applyChanges_append h
    have next_stage : base.Alters next s e → next.HasMapping s e →
        m.slot? s e = base.slot? s e ∨ m.HasMapping s e := by
      intro alters mapping
      rcases stage with same | there | none_later
      · exact Or.inl same
      · exact Or.inr there
      · exact absurd mapping (none_later next List.mem_cons_self alters)
    rcases survives.branch first indexed.1 hbase each.1 hm next_stage with
      ⟨_, same⟩ | ⟨alters, kept, mapping⟩
    · refine ih others indexed.2 each.2 order (fun slot hs => hm slot (same ▸ hs)) ?_
      unfold HasMapping at stage ⊢
      rw [same]
      rcases stage with here | there | none_later
      · exact Or.inl here
      · exact Or.inr (Or.inl there)
      · exact Or.inr (Or.inr fun n hn => none_later n (List.mem_cons_of_mem _ hn))
    · refine ih others indexed.2 each.2 order kept (Or.inr ?_)
      by_cases there : next.HasMapping s e
      · exact Or.inl (mapping there)
      · exact Or.inr fun n hn => later n hn alters there

/-- An entry stays proper through merges. -/
theorem survives_proper (s e : String) : Survives s e Slot.Proper Slot.Proper := by
  intro m d old? new h some_change hold hnew hm stage
  cases old? with
  | none =>
    have there := slot?_of_new h
    exact ⟨.of_slot there hnew, (hasMapping_iff there).mpr⟩
  | some old =>
    have hold := hold old rfl
    obtain ⟨k, written, tagged⟩ := applyChanges_append h
    by_cases shape : ∃ fields added, ByFields old.value new.value fields added
    · obtain ⟨fields, added, shape⟩ := shape
      obtain ⟨slot, hs, stage⟩ := slot_of_stage (stage ⟨added, shape.1⟩)
      obtain ⟨after, ha, hv, state⟩ :=
        proper_of_byFields shape written tagged hold hnew hs (hm slot hs) stage
      exact ⟨.of_slot ha (iff_of_true hv state), fun _ => ⟨after, ha, hv⟩⟩
    · have whole : ∀ fields added, ¬ ByFields old.value new.value fields added :=
        fun fields added h => shape ⟨fields, added, h⟩
      obtain ⟨after, ha, proper, value⟩ :=
        proper_of_whole whole written tagged hold hnew some_change
      exact ⟨.of_slot ha proper, fun mapping => ⟨after, ha, by rwa [value]⟩⟩

end Context

end Tabletop
