/-
Tabletop.Proofs.Context.Concern — the changes of one entry.

Of the changes to a context only those that concern an entry matter to it.
Among the changes of a context since a base they stand together, and what
they do to the entry is read off the values: it is written whole, or field
by field, and then tagged. An entry that is tagged as validated after
changes is as it was, or the last change that concerned it was that tag.

  §1 Changes that concern an entry
  §2 The changes of an entry since a base
  §3 What changes do to the value of an entry
  §4 What changes do to the state of an entry
  §5 Entries tagged as validated
-/
import Tabletop.Proofs.Context.Difference

namespace Tabletop

/-! ## §1 Changes that concern an entry -/

/-- The change writes to the entry or tags it. -/
def Change.Concerns (space entry : String) : Change → Prop
  | .write p _ => ∃ rest, p = space :: entry :: rest
  | .retag s e _ => s = space ∧ e = entry

/-- A change concerns one entry. -/
theorem Change.Concerns.unique {change : Change} {s e s' e' : String}
    (h : change.Concerns s e) (k : change.Concerns s' e') : s = s' ∧ e = e' := by
  cases change with
  | write p v =>
    obtain ⟨rest, rfl⟩ := h
    obtain ⟨_, heq⟩ := k
    cases heq
    exact ⟨rfl, rfl⟩
  | retag s₀ e₀ state =>
    obtain ⟨rfl, rfl⟩ := h
    exact k

/-- The state of an entry after a change. -/
def Change.stateAfter (space entry : String) (old : Option SlotState) :
    Change → Option SlotState
  | .write [s, e] _ => if s = space ∧ e = entry then some .plain else old
  | .write (s :: e :: _ :: _) _ =>
      if s = space ∧ e = entry then some (old.getD .plain).touched else old
  | .write _ _ => old
  | .retag s e state => if s = space ∧ e = entry then old.map fun _ => state else old

/-- A change elsewhere leaves the state. -/
theorem Change.stateAfter_elsewhere {change : Change} {space entry : String}
    (apart : ¬ change.Concerns space entry) (old : Option SlotState) :
    change.stateAfter space entry old = old := by
  cases change with
  | retag s e state => exact if_neg apart
  | write p v =>
    match p with
    | [] => rfl
    | [_] => rfl
    | [s, e] => exact if_neg fun h => apart ⟨[], by rw [h.1, h.2]⟩
    | s :: e :: segment :: rest => exact if_neg fun h => apart ⟨segment :: rest, by rw [h.1, h.2]⟩

namespace Context

open Tabletop.Path Tabletop.Value

/-- Writing inside a value makes a mapping of null and of a mapping, and a list of a list. -/
def Grows (v w : Value) : Prop :=
  (v.fields?.isSome = true ∧ ∃ fields, w = .mapping fields)
    ∨ ((∃ items, v = .list items) ∧ ∃ items, w = .list items)

theorem grows_of_writeAt {path segment : String} {passed rest : Path} {new v w : Value}
    (h : writeAt path new passed v (segment :: rest) = .ok w) : Grows v w := by
  rcases writeAt_cases h with ⟨fields, below, there, _, rfl⟩ | ⟨items, i, item, below, rfl, _, _, _, rfl⟩
  · exact Or.inl ⟨by rw [there]; rfl, _, rfl⟩
  · exact Or.inr ⟨⟨items, rfl⟩, _, rfl⟩

/-- After a write an entry is as it was, what was written whole, or what was written into. -/
theorem slot?_write_cases {c d : Context} {state : SlotState} {v : Value} {p : Path}
    (h : c.write state v p = .ok d) {s e : String} {slot : Slot} (hs : d.slot? s e = some slot) :
    ((¬ ∃ rest, p = s :: e :: rest) ∧ c.slot? s e = some slot) ∨ (p = [s, e] ∧ slot = ⟨v, state⟩) ∨
      ∃ segment rest w, p = s :: e :: segment :: rest ∧ slot = ⟨w, (c.opened s e).state.touched⟩
        ∧ Grows (c.opened s e).value w := by
  have elsewhere : ∀ {space entry : String} {more : Path}, ¬ (space = s ∧ entry = e) →
      ¬ ∃ rest, space :: entry :: more = s :: e :: rest := by
    rintro space entry more hse ⟨rest, heq⟩
    cases heq
    exact hse ⟨rfl, rfl⟩
  rcases write_cases h with ⟨name, rfl, _, rfl⟩ | ⟨space, entry, rfl, rfl⟩
      | ⟨space, entry, segment, rest, w, rfl, inside, rfl⟩
  · refine Or.inl ⟨?_, hs⟩
    rintro ⟨rest, heq⟩
    cases heq
  · rw [slot?_putSlot] at hs
    by_cases hse : space = s ∧ entry = e
    · obtain ⟨rfl, rfl⟩ := hse
      rw [if_pos ⟨rfl, rfl⟩] at hs
      cases hs
      exact Or.inr (Or.inl ⟨rfl, rfl⟩)
    · rw [if_neg hse] at hs
      exact Or.inl ⟨elsewhere hse, hs⟩
  · rw [slot?_putSlot] at hs
    by_cases hse : space = s ∧ entry = e
    · obtain ⟨rfl, rfl⟩ := hse
      rw [if_pos ⟨rfl, rfl⟩] at hs
      cases hs
      exact Or.inr (Or.inr ⟨segment, rest, w, rfl, rfl, grows_of_writeAt inside⟩)
    · rw [if_neg hse] at hs
      exact Or.inl ⟨elsewhere hse, hs⟩

/-- The entry, if it is there, is of the kind. -/
def EntryIs (c : Context) (s e : String) (P : Slot → Prop) : Prop :=
  ∀ slot, c.slot? s e = some slot → P slot

/-- A change leaves every entry that it does not concern. -/
theorem slot?_applyChange_elsewhere {c d : Context} {change : Change} {s e : String}
    (h : c.applyChange change = .ok d) (elsewhere : ¬ change.Concerns s e) :
    d.slot? s e = c.slot? s e := by
  cases change with
  | write p v =>
    rcases slot?_write h s e with same | ⟨_, rest, rfl, _⟩
    · exact same
    · exact absurd ⟨rest, rfl⟩ elsewhere
  | retag space entry state =>
    cases h
    have other : ¬ (space = s ∧ entry = e) := elsewhere
    rw [slot?_retagSlot, if_neg other]

theorem slot?_applyChanges_elsewhere {c d : Context} {changes : List Change} {s e : String}
    (h : c.applyChanges changes = .ok d) (elsewhere : ∀ change ∈ changes, ¬ change.Concerns s e) :
    d.slot? s e = c.slot? s e := by
  induction changes generalizing c with
  | nil =>
    cases h
    rfl
  | cons change rest ih =>
    rw [List.forall_mem_cons] at elsewhere
    obtain ⟨m, one, others⟩ := applyChanges_cons h
    rw [ih others elsewhere.2, slot?_applyChange_elsewhere one elsewhere.1]

theorem applyChanges_append {c d : Context} {few more : List Change}
    (h : c.applyChanges (few ++ more) = .ok d) :
    ∃ m, c.applyChanges few = .ok m ∧ m.applyChanges more = .ok d := by
  induction few generalizing c with
  | nil => exact ⟨c, rfl, h⟩
  | cons change rest ih =>
    obtain ⟨m, one, others⟩ := applyChanges_cons h
    obtain ⟨m', rest_done, more_done⟩ := ih others
    refine ⟨m', ?_, more_done⟩
    simp only [applyChanges, one]
    exact rest_done

/-! ## §2 The changes of an entry since a base -/

/-- The changes of an entry concern it. -/
theorem concerns_of_mem_slotChanges {s e : String} {old : Option Slot} {new : Slot}
    {change : Change} (h : change ∈ slotChanges s e old new) : change.Concerns s e := by
  cases old with
  | none =>
    simp only [slotChanges, List.mem_cons, List.not_mem_nil, or_false] at h
    rcases h with rfl | rfl
    · exact ⟨[], rfl⟩
    · exact ⟨rfl, rfl⟩
  | some slot =>
    rcases List.mem_append.mp h with h | h
    · obtain ⟨place, v, rfl⟩ := write_of_mem_valueChanges _ _ _ change h
      exact ⟨place, rfl⟩
    · split at h
      · exact absurd h List.not_mem_nil
      · rw [List.mem_singleton.mp h]
        exact ⟨rfl, rfl⟩

/-- The changes of the entries in one namespace. -/
def spaceChanges (base : Context) (space : String) (slots : Slots) : List Change :=
  slots.flatMap fun e => slotChanges space e.1 (base.slot? space e.1) e.2

/-- The changes of the aliases. -/
def aliasChanges (base : Context) (aliases : Fields) : List Change :=
  aliases.filterMap fun e =>
    if base.aliasDiffers e.1 e.2 then some (.write [e.1] e.2) else none

theorem changesSince_eq (base next : Context) :
    next.changesSince base
      = (next.spaces.flatMap fun x => spaceChanges base x.1 x.2)
        ++ aliasChanges base next.aliases := rfl

/-- The changes of other entries do not concern the entry. -/
theorem not_concerns_of_mem_spaceChanges {base : Context} {space s e : String} {slots : Slots}
    (other : space = s → ∀ x ∈ slots, x.1 ≠ e) {change : Change}
    (hc : change ∈ spaceChanges base space slots) : ¬ change.Concerns s e := by
  intro concerns
  obtain ⟨x, hx, hc⟩ := List.mem_flatMap.mp hc
  obtain ⟨rfl, rfl⟩ := (concerns_of_mem_slotChanges hc).unique concerns
  exact other rfl x hx rfl

/-- The changes in other namespaces do not concern the entry. -/
theorem not_concerns_of_other_spaces {base : Context} {s : String} (e : String)
    {spaces : Entries Slots} (other : ∀ x ∈ spaces, x.1 ≠ s) {change : Change}
    (hc : change ∈ spaces.flatMap fun x => spaceChanges base x.1 x.2) : ¬ change.Concerns s e := by
  obtain ⟨x, hx, hc⟩ := List.mem_flatMap.mp hc
  exact not_concerns_of_mem_spaceChanges (fun same => absurd same (other x hx)) hc

theorem not_concerns_of_mem_aliasChanges {base : Context} {aliases : Fields} {change : Change}
    (hc : change ∈ aliasChanges base aliases) (s e : String) : ¬ change.Concerns s e := by
  intro concerns
  obtain ⟨a, _, ha⟩ := List.mem_filterMap.mp hc
  simp only [Option.ite_none_right_eq_some, Option.some.injEq] at ha
  rw [← ha.2] at concerns
  obtain ⟨rest, heq⟩ := concerns
  cases heq

/-- Among the changes of a context since a base those of an entry stand together, and the others do
not concern it. -/
theorem changesSince_around (base : Context) {next : Context} (hn : next.Indexed) (s e : String) :
    (next.slot? s e = none ∧ ∀ change ∈ next.changesSince base, ¬ change.Concerns s e) ∨
    ∃ new before after, next.slot? s e = some new
      ∧ next.changesSince base = before ++ slotChanges s e (base.slot? s e) new ++ after
      ∧ (∀ change ∈ before, ¬ change.Concerns s e)
      ∧ ∀ change ∈ after, ¬ change.Concerns s e := by
  cases hs : next.slot? s e with
  | none =>
    refine Or.inl ⟨rfl, ?_⟩
    intro change hc
    rcases List.mem_append.mp hc with hc | hc
    · obtain ⟨⟨space, slots⟩, hspace, hc⟩ := List.mem_flatMap.mp hc
      refine not_concerns_of_mem_spaceChanges ?_ hc
      rintro rfl ⟨_, slot⟩ hx rfl
      have found := hn.spaces.get?_of_mem hspace
      rw [slot?_eq_some_iff.mpr ⟨slots, found, (hn.slots found).get?_of_mem hx⟩] at hs
      cases hs
    · exact not_concerns_of_mem_aliasChanges hc s e
  | some new =>
    obtain ⟨slots, hspace, hentry⟩ := slot?_eq_some_iff.mp hs
    obtain ⟨few, more, hspaces, other⟩ := hn.spaces.around hspace
    obtain ⟨fewer, others, hslots, another⟩ := (hn.slots hspace).around hentry
    rw [List.forall_mem_append] at other another
    refine Or.inr ⟨new,
      (few.flatMap fun x => spaceChanges base x.1 x.2) ++ spaceChanges base s fewer,
      spaceChanges base s others ++ (more.flatMap fun x => spaceChanges base x.1 x.2)
        ++ aliasChanges base next.aliases, rfl, ?_, ?_, ?_⟩
    · have split : spaceChanges base s slots = spaceChanges base s fewer
          ++ slotChanges s e (base.slot? s e) new ++ spaceChanges base s others := by
        rw [hslots]
        simp [spaceChanges]
      rw [changesSince_eq, hspaces, List.flatMap_append, List.flatMap_cons, split]
      simp only [List.append_assoc]
    · rw [List.forall_mem_append]
      exact ⟨fun _ => not_concerns_of_other_spaces e other.1,
        fun _ => not_concerns_of_mem_spaceChanges fun _ => another.1⟩
    · rw [List.forall_mem_append, List.forall_mem_append]
      exact ⟨⟨fun _ => not_concerns_of_mem_spaceChanges fun _ => another.2,
        fun _ => not_concerns_of_other_spaces e other.2⟩,
        fun _ hc => not_concerns_of_mem_aliasChanges hc s e⟩

/-- A change since a base that concerns an entry is one of the changes of the entry. -/
theorem mem_slotChanges_of_concerns {base next : Context} (hn : next.Indexed) {change : Change}
    {s e : String} (h : change ∈ next.changesSince base) (concerns : change.Concerns s e) :
    ∃ new, next.slot? s e = some new ∧ change ∈ slotChanges s e (base.slot? s e) new := by
  rcases changesSince_around base hn s e with
    ⟨_, elsewhere⟩ | ⟨new, before, after, hs, split, first, last⟩
  · exact absurd concerns (elsewhere change h)
  · rw [split] at h
    rcases List.mem_append.mp h with h | h
    · rcases List.mem_append.mp h with h | h
      · exact absurd concerns (first change h)
      · exact ⟨new, hs, h⟩
    · exact absurd concerns (last change h)

/-- A change of an entry writes the new value whole, writes inside a mapping that the new value is,
or tags the entry. -/
theorem slotChanges_cases {s e : String} {old : Option Slot} {new : Slot} {change : Change}
    (h : change ∈ slotChanges s e old new) :
    change = .write [s, e] new.value ∨ change = .retag s e new.state ∨
      (∃ added, new.value = .mapping added) ∧
        ∃ segment rest v, change = .write (s :: e :: segment :: rest) v := by
  cases old with
  | none =>
    simp only [slotChanges, List.mem_cons, List.not_mem_nil, or_false] at h
    rcases h with rfl | rfl
    · exact Or.inl rfl
    · exact Or.inr (Or.inl rfl)
  | some slot =>
    rcases List.mem_append.mp h with h | h
    · by_cases shape : ∃ fields added, ByFields slot.value new.value fields added
      · obtain ⟨fields, added, shape⟩ := shape
        exact Or.inr (Or.inr ⟨⟨added, shape.1⟩, write_of_mem_byFields shape h⟩)
      · exact Or.inl (write_of_mem_whole (fun fields added h => shape ⟨fields, added, h⟩) h)
    · split at h
      · exact absurd h List.not_mem_nil
      · exact Or.inr (Or.inl (List.mem_singleton.mp h))

/-! ## §3 What changes do to the value of an entry -/

/-- What whole writes give, and what writes inside keep, holds of the value of an entry after
changes. -/
theorem value_of_applyChanges {V : Value → Prop} {c d : Context} {changes : List Change}
    {s e : String} (h : c.applyChanges changes = .ok d)
    (whole : ∀ v, .write [s, e] v ∈ changes → V v)
    (inside : ∀ segment rest v, .write (s :: e :: segment :: rest) v ∈ changes →
      ∀ u w, (V u ∨ u = .mapping []) → Grows u w → V w)
    (start : c.EntryIs s e fun slot => V slot.value) : d.EntryIs s e fun slot => V slot.value := by
  induction changes generalizing c with
  | nil =>
    cases h
    exact start
  | cons change rest ih =>
    obtain ⟨m, one, others⟩ := applyChanges_cons h
    refine ih others (fun v hv => whole v (List.mem_cons_of_mem _ hv))
      (fun segment rest v hv => inside segment rest v (List.mem_cons_of_mem _ hv)) ?_
    intro slot hs
    cases change with
    | retag space entry state =>
      cases one
      rw [slot?_retagSlot] at hs
      split at hs
      · obtain ⟨old, ho, rfl⟩ := Option.map_eq_some_iff.mp hs
        exact start old ho
      · exact start slot hs
    | write p v =>
      rcases slot?_write_cases one hs with
        ⟨_, old⟩ | ⟨rfl, rfl⟩ | ⟨segment, place, w, rfl, rfl, grows⟩
      · exact start slot old
      · exact whole v List.mem_cons_self
      · refine inside segment place v List.mem_cons_self _ w ?_ grows
        unfold opened
        cases ho : c.slot? s e with
        | none => exact Or.inr rfl
        | some old => exact Or.inl (start old ho)

/-! ## §4 What changes do to the state of an entry -/

/-- The state of an entry that is there. -/
def state? (c : Context) (space entry : String) : Option SlotState :=
  (c.slot? space entry).map (·.state)

theorem state?_applyChange {c d : Context} {change : Change}
    (h : c.applyChange change = .ok d) (space entry : String) :
    d.state? space entry = change.stateAfter space entry (c.state? space entry) := by
  cases change with
  | retag s e state =>
    cases h
    simp only [state?, Change.stateAfter, slot?_retagSlot]
    by_cases hse : s = space ∧ e = entry
    · rw [if_pos hse, if_pos hse]
      cases c.slot? space entry <;> rfl
    · rw [if_neg hse, if_neg hse]
  | write p v =>
    rcases write_cases h with ⟨name, rfl, _, rfl⟩ | ⟨s, e, rfl, rfl⟩
        | ⟨s, e, segment, rest, w, rfl, _, rfl⟩
    · rfl
    · simp only [state?, Change.stateAfter, slot?_putSlot]
      by_cases hse : s = space ∧ e = entry
      · rw [if_pos hse, if_pos hse]
        rfl
      · rw [if_neg hse, if_neg hse]
    · simp only [state?, Change.stateAfter, slot?_putSlot]
      by_cases hse : s = space ∧ e = entry
      · obtain ⟨rfl, rfl⟩ := hse
        rw [if_pos ⟨rfl, rfl⟩, if_pos ⟨rfl, rfl⟩, opened]
        cases c.slot? s e <;> rfl
      · rw [if_neg hse, if_neg hse]

/-- The state of an entry after changes. -/
def stateAfter (space entry : String) (old : Option SlotState) (changes : List Change) :
    Option SlotState :=
  changes.foldl (fun state change => change.stateAfter space entry state) old

theorem state?_applyChanges {c d : Context} {changes : List Change}
    (h : c.applyChanges changes = .ok d) (space entry : String) :
    d.state? space entry = stateAfter space entry (c.state? space entry) changes := by
  induction changes generalizing c with
  | nil =>
    cases h
    rfl
  | cons change rest ih =>
    obtain ⟨m, one, others⟩ := applyChanges_cons h
    rw [ih others, state?_applyChange one space entry]
    rfl

theorem stateAfter_append (space entry : String) (old : Option SlotState)
    (few more : List Change) :
    stateAfter space entry old (few ++ more)
      = stateAfter space entry (stateAfter space entry old few) more := List.foldl_append

/-- Changes elsewhere leave the state. -/
theorem stateAfter_elsewhere {space entry : String} {changes : List Change}
    (h : ∀ change ∈ changes, ¬ change.Concerns space entry) (old : Option SlotState) :
    stateAfter space entry old changes = old := by
  induction changes with
  | nil => rfl
  | cons change rest ih =>
    unfold stateAfter
    rw [List.foldl_cons, Change.stateAfter_elsewhere (h change List.mem_cons_self)]
    exact ih fun c hc => h c (List.mem_cons_of_mem _ hc)

/-- An entry that is there has a state after changes too. -/
theorem stateAfter_isSome {space entry : String} {old : Option SlotState} (h : old.isSome = true)
    (changes : List Change) : (stateAfter space entry old changes).isSome = true := by
  induction changes generalizing old with
  | nil => exact h
  | cons change rest ih =>
    refine ih ?_
    cases change with
    | retag s e state =>
      simp only [Change.stateAfter]
      split
      · rw [Option.isSome_map]
        exact h
      · exact h
    | write p v =>
      match p with
      | [] => exact h
      | [_] => exact h
      | [s, e] =>
        simp only [Change.stateAfter]
        split
        · rfl
        · exact h
      | s :: e :: _ :: _ =>
        simp only [Change.stateAfter]
        split
        · rfl
        · exact h

/-! ## §5 Entries tagged as validated -/

/-- Of the changes that concern the entry, the last one tags it as validated. -/
def Marks (changes : List Change) (space entry model : String) : Prop :=
  ∃ before after, changes = before ++ .retag space entry (.validated model) :: after
    ∧ ∀ change ∈ after, ¬ change.Concerns space entry

theorem touched_touched (state : SlotState) : state.touched.touched = state.touched := by
  cases state <;> rfl

theorem touched_ne_validated (state : SlotState) (model : String) :
    state.touched ≠ .validated model := by
  cases state <;> simp [SlotState.touched]

/-- An entry that is tagged as validated after changes is as it was, or is marked by them. -/
theorem unchanged_or_marked {c d : Context} {changes : List Change}
    (h : c.applyChanges changes = .ok d) {s e model : String} {slot : Slot}
    (hs : d.slot? s e = some slot) (tagged : slot.state = .validated model) :
    ((∀ change ∈ changes, ¬ change.Concerns s e) ∧ c.slot? s e = some slot)
      ∨ Marks changes s e model := by
  induction changes generalizing c with
  | nil =>
    cases h
    exact Or.inl ⟨fun _ h => absurd h List.not_mem_nil, hs⟩
  | cons change rest ih =>
    obtain ⟨m, one, others⟩ := applyChanges_cons h
    rcases ih others with ⟨elsewhere, there⟩ | ⟨before, after, rfl, last⟩
    · cases change with
      | write p v =>
        rcases slot?_write_cases one there with ⟨apart, old⟩ | ⟨_, rfl⟩ | ⟨_, _, _, _, rfl, _⟩
        · exact Or.inl ⟨List.forall_mem_cons.mpr ⟨apart, elsewhere⟩, old⟩
        · cases tagged
        · exact absurd tagged (touched_ne_validated _ model)
      | retag space entry state =>
        cases one
        by_cases hse : space = s ∧ entry = e
        · obtain ⟨rfl, rfl⟩ := hse
          rw [slot?_retagSlot, if_pos ⟨rfl, rfl⟩, Option.map_eq_some_iff] at there
          obtain ⟨old, _, rfl⟩ := there
          cases tagged
          exact Or.inr ⟨[], rest, rfl, elsewhere⟩
        · rw [slot?_retagSlot, if_neg hse] at there
          exact Or.inl ⟨List.forall_mem_cons.mpr ⟨hse, elsewhere⟩, there⟩
    · exact Or.inr ⟨change :: before, after, rfl, last⟩

/-- An entry that is marked is tagged as validated. -/
theorem Marks.tagged {c d : Context} {changes : List Change} {s e model : String} {slot : Slot}
    (marked : Marks changes s e model) (h : c.applyChanges changes = .ok d)
    (hs : d.slot? s e = some slot) : slot.state = .validated model := by
  obtain ⟨before, after, rfl, last⟩ := marked
  have state : d.state? s e = some slot.state := by rw [state?, hs, Option.map_some]
  rw [state?_applyChanges h, stateAfter_append] at state
  change stateAfter s e (Change.stateAfter s e _ (.retag s e (.validated model))) after = _ at state
  rw [stateAfter_elsewhere last, Change.stateAfter, if_pos ⟨rfl, rfl⟩,
    Option.map_eq_some_iff] at state
  obtain ⟨_, _, same⟩ := state
  exact same.symm

end Context

end Tabletop
