/-
Tabletop.Proofs.Context.Slot — what writing does to entries and aliases.

Every operation that changes a context replaces one entry or one alias, or
gives an entry another state. `write_cases` says which; what it means for
the entries, the namespaces and the aliases is read off `putSlot`,
`putAlias` and `retagSlot` once and for all. `Edits` is the closure of the
operations: what a context can become.

  §1 Replacing an entry or an alias
  §2 What a write does
  §3 What a tag does
  §4 Contexts that come from one another
-/
import Tabletop.Context.Change
import Tabletop.Proofs.Value.Same

namespace Tabletop

namespace Context

/-! ## §1 Replacing an entry or an alias -/

/-- The context with an entry replaced or added. -/
def putSlot (c : Context) (space entry : String) (slot : Slot) : Context :=
  c.withSlots space (Entries.insert ((Entries.get? c.spaces space).getD []) entry slot)

/-- The context with an alias replaced or added. -/
def putAlias (c : Context) (name : String) (v : Value) : Context :=
  { c with aliases := Entries.insert c.aliases name v }

/-- The entry as a write finds it: an empty mapping if it is not there. -/
def opened (c : Context) (space entry : String) : Slot :=
  (c.slot? space entry).getD ⟨.mapping [], .plain⟩

theorem get?_getD_nil {α : Type} (o : Option (Entries α)) (key : String) :
    Entries.get? (o.getD []) key = o.bind fun entries => Entries.get? entries key := by
  cases o <;> rfl

theorem slot?_putSlot (c : Context) (space entry : String) (slot : Slot) (s e : String) :
    (c.putSlot space entry slot).slot? s e
      = if space = s ∧ entry = e then some slot else c.slot? s e := by
  unfold putSlot withSlots slot?
  rw [Entries.get?_insert]
  by_cases hs : space = s
  · subst hs
    rw [if_pos rfl, Option.bind_some, Entries.get?_insert, get?_getD_nil]
    by_cases he : entry = e <;> simp [he]
  · simp [hs]

@[simp] theorem aliases_putAlias (c : Context) (name : String) (v : Value) :
    (c.putAlias name v).aliases = Entries.insert c.aliases name v := rfl

theorem mem_spaces_putSlot {c : Context} {space entry : String} {slot : Slot} {s : String} :
    s ∈ Entries.keys (c.putSlot space entry slot).spaces
      ↔ s = space ∨ s ∈ Entries.keys c.spaces := Entries.mem_keys_insert

theorem isReserved_eq_false_iff {c : Context} {name : String} :
    c.isReserved name = false ↔ name ∉ reservedNames ∧ name ∉ Entries.keys c.spaces := by
  rw [isReserved, Bool.or_eq_false_iff, ← Entries.has_iff_mem_keys, Bool.not_eq_true]
  simp

/-- An entry that is there is in a namespace. -/
theorem mem_spaces_of_slot? {c : Context} {s e : String} {slot : Slot}
    (h : c.slot? s e = some slot) : s ∈ Entries.keys c.spaces := by
  rw [slot?, Option.bind_eq_some_iff] at h
  obtain ⟨slots, hs, _⟩ := h
  exact Entries.mem_keys_of_mem (Entries.mem_of_get? hs)

/-- Without an alias in front, an entry that is there is read. -/
theorem get_of_slot {c : Context} {path space entry : String} {slot : Slot}
    (hp : Path.split path = [space, entry]) (hidden : Entries.get? c.aliases space = none)
    (hs : c.slot? space entry = some slot) : c.get path = some slot.value := by
  unfold get
  rw [hp]
  unfold slot? at hs
  unfold lookup
  cases hn : Entries.get? c.spaces space with
  | none =>
    rw [hn] at hs
    cases hs
  | some slots =>
    rw [hn, Option.bind_some] at hs
    simp only [hidden, hn, hs]
    rfl

/-- Without an alias in front, an entry is read as it is stored. -/
theorem get_entry {c : Context} {path space entry : String} {v : Value} {slot : Slot}
    (hp : Path.split path = [space, entry]) (hidden : Entries.get? c.aliases space = none)
    (hs : c.slot? space entry = some slot) (found : c.get path = some v) : v = slot.value := by
  rw [get_of_slot hp hidden hs] at found
  exact (Option.some.inj found).symm

/-! ## §2 What a write does -/

theorem opened_eq (c : Context) (space entry : String) :
    (Entries.get? ((Entries.get? c.spaces space).getD []) entry).getD ⟨.mapping [], .plain⟩
      = c.opened space entry := by
  rw [opened, slot?, get?_getD_nil]

theorem write_alias {c : Context} {name : String} (h : c.isReserved name = false)
    (state : SlotState) (v : Value) : c.write state v [name] = .ok (c.putAlias name v) := by
  simp only [write, h]
  rfl

theorem write_slot (c : Context) (state : SlotState) (v : Value) (space entry : String) :
    c.write state v [space, entry] = .ok (c.putSlot space entry ⟨v, state⟩) := rfl

theorem write_below (c : Context) (state : SlotState) (v : Value) (space entry segment : String)
    (rest : Path) :
    c.write state v (space :: entry :: segment :: rest)
      = (writeAt (Path.join (space :: entry :: segment :: rest)) v [space, entry]
          (c.opened space entry).value (segment :: rest)).map fun w =>
            c.putSlot space entry ⟨w, (c.opened space entry).state.touched⟩ := by
  simp only [write, opened_eq]
  cases writeAt (Path.join (space :: entry :: segment :: rest)) v [space, entry]
    (c.opened space entry).value (segment :: rest) <;> rfl

/-- A write replaces an alias, a whole entry, or the value of an entry that it goes into. -/
theorem write_cases {c d : Context} {state : SlotState} {v : Value} {p : Path}
    (h : c.write state v p = .ok d) :
    (∃ name, p = [name] ∧ c.isReserved name = false ∧ d = c.putAlias name v) ∨
    (∃ space entry, p = [space, entry] ∧ d = c.putSlot space entry ⟨v, state⟩) ∨
    (∃ space entry segment rest w, p = space :: entry :: segment :: rest ∧
      writeAt (Path.join p) v [space, entry] (c.opened space entry).value (segment :: rest)
        = .ok w ∧
      d = c.putSlot space entry ⟨w, (c.opened space entry).state.touched⟩) := by
  match p with
  | [] => cases h
  | [name] =>
    left
    cases hr : c.isReserved name with
    | true =>
      simp only [write, hr] at h
      cases h
    | false =>
      rw [write_alias hr] at h
      cases h
      exact ⟨name, rfl, hr, rfl⟩
  | [space, entry] =>
    right
    left
    rw [write_slot] at h
    cases h
    exact ⟨space, entry, rfl, rfl⟩
  | space :: entry :: segment :: rest =>
    right
    right
    rw [write_below] at h
    cases hw : writeAt (Path.join (space :: entry :: segment :: rest)) v [space, entry]
        (c.opened space entry).value (segment :: rest) with
    | error e =>
      rw [hw] at h
      cases h
    | ok w =>
      rw [hw] at h
      cases h
      exact ⟨space, entry, segment, rest, w, rfl, hw, rfl⟩

/-- A write leaves every entry that is there in its place, and every alias. -/
theorem slot?_write {c d : Context} {state : SlotState} {v : Value} {p : Path}
    (h : c.write state v p = .ok d) (s e : String) :
    d.slot? s e = c.slot? s e ∨ ∃ slot rest, p = s :: e :: rest ∧ d.slot? s e = some slot := by
  rcases write_cases h with ⟨name, _, _, rfl⟩ | ⟨space, entry, rfl, rfl⟩
      | ⟨space, entry, segment, rest, w, rfl, _, rfl⟩
  · exact Or.inl rfl
  all_goals
    rw [slot?_putSlot]
    by_cases hse : space = s ∧ entry = e
    · obtain ⟨rfl, rfl⟩ := hse
      exact Or.inr ⟨_, _, rfl, if_pos ⟨rfl, rfl⟩⟩
    · exact Or.inl (if_neg hse)

/-! ## §3 What a tag does -/

/-- A tag replaces the state of an entry that is there. -/
theorem retagSlot_eq (c : Context) (space entry : String) (state : SlotState) :
    c.retagSlot space entry state
      = match c.slot? space entry with
        | some slot => c.putSlot space entry { slot with state := state }
        | none => c := by
  unfold retagSlot slot? putSlot
  cases hs : Entries.get? c.spaces space with
  | none => rfl
  | some slots =>
    cases he : Entries.get? slots entry with
    | none => simp [he]
    | some slot => simp [he]

theorem slot?_retagSlot (c : Context) (space entry : String) (state : SlotState) (s e : String) :
    (c.retagSlot space entry state).slot? s e
      = if space = s ∧ entry = e then (c.slot? s e).map fun slot => { slot with state := state }
        else c.slot? s e := by
  rw [retagSlot_eq]
  cases hs : c.slot? space entry with
  | none =>
    by_cases hse : space = s ∧ entry = e
    · obtain ⟨rfl, rfl⟩ := hse
      simp [hs]
    · simp [hse]
  | some slot =>
    change (c.putSlot space entry { slot with state := state }).slot? s e = _
    rw [slot?_putSlot]
    by_cases hse : space = s ∧ entry = e
    · obtain ⟨rfl, rfl⟩ := hse
      simp [hs]
    · simp [hse]

@[simp] theorem aliases_retagSlot (c : Context) (space entry : String) (state : SlotState) :
    (c.retagSlot space entry state).aliases = c.aliases := by
  rw [retagSlot_eq]
  cases c.slot? space entry <;> rfl

theorem mem_spaces_retagSlot {c : Context} {space entry : String} {state : SlotState}
    {s : String} :
    s ∈ Entries.keys (c.retagSlot space entry state).spaces ↔ s ∈ Entries.keys c.spaces := by
  rw [retagSlot_eq]
  cases h : c.slot? space entry with
  | none => rfl
  | some slot =>
    change s ∈ Entries.keys (c.putSlot space entry _).spaces ↔ _
    rw [mem_spaces_putSlot]
    constructor
    · rintro (rfl | hs)
      · exact mem_spaces_of_slot? h
      · exact hs
    · exact Or.inr

/-- The value of an entry does not depend on tags. -/
theorem map_value_retagSlot (c : Context) (space entry : String) (state : SlotState)
    (s e : String) :
    ((c.retagSlot space entry state).slot? s e).map (·.value) = (c.slot? s e).map (·.value) := by
  rw [slot?_retagSlot]
  by_cases hse : space = s ∧ entry = e
  · rw [if_pos hse]
    cases c.slot? s e <;> rfl
  · rw [if_neg hse]

/-! ## §4 Contexts that come from one another -/

/-- The context comes from `base` by writes and tags. -/
inductive Edits (base : Context) : Context → Prop
  | refl : Edits base base
  | write {c d : Context} {state : SlotState} {v : Value} {p : Path} (before : Edits base c)
      (step : c.write state v p = .ok d) : Edits base d
  | retagSlot {c : Context} (space entry : String) (state : SlotState) (before : Edits base c) :
      Edits base (c.retagSlot space entry state)

theorem Edits.set {base c d : Context} {path : String} {v : Value} (before : base.Edits c)
    (step : c.set path v = .ok d) : base.Edits d := before.write step

theorem Edits.setTagged {base c d : Context} {path : String} {v : Value} {state : SlotState}
    (before : base.Edits c) (step : c.setTagged path v state = .ok d) : base.Edits d :=
  before.write step

theorem Edits.retag {base c : Context} (path : String) (state : SlotState)
    (before : base.Edits c) : base.Edits (c.retag path state) := by
  unfold Context.retag
  split
  · exact before.retagSlot _ _ state
  · exact before

/-- What every write and every tag preserves holds of what comes from the context. -/
theorem Edits.preserves {base next : Context} {P : Context → Prop} (h : base.Edits next)
    (start : P base)
    (write : ∀ c d state v p, P c → Context.write c state v p = .ok d → P d)
    (retag : ∀ c space entry state, P c → P (c.retagSlot space entry state)) : P next := by
  induction h with
  | refl => exact start
  | write _ step ih => exact write _ _ _ _ _ ih step
  | retagSlot space entry state _ ih => exact retag _ _ _ _ ih

/-- Entries stay. -/
theorem Edits.slot_isSome {base next : Context} (h : base.Edits next) {s e : String}
    (hs : (base.slot? s e).isSome = true) : (next.slot? s e).isSome = true := by
  refine h.preserves (P := fun c => (c.slot? s e).isSome = true) hs ?_ ?_
  · intro c d state v p hc step
    rcases slot?_write step s e with same | ⟨slot, _, _, new⟩
    · rw [same]
      exact hc
    · rw [new]
      rfl
  · intro c space entry state hc
    rw [slot?_retagSlot]
    by_cases hse : space = s ∧ entry = e
    · rw [if_pos hse, Option.isSome_map]
      exact hc
    · rw [if_neg hse]
      exact hc

/-- Namespaces stay. -/
theorem Edits.space_mem {base next : Context} (h : base.Edits next) {s : String}
    (hs : s ∈ Entries.keys base.spaces) : s ∈ Entries.keys next.spaces := by
  refine h.preserves (P := fun c => s ∈ Entries.keys c.spaces) hs ?_ ?_
  · intro c d state v p hc step
    rcases write_cases step with ⟨name, _, _, rfl⟩ | ⟨space, entry, _, rfl⟩
        | ⟨space, entry, segment, rest, w, _, _, rfl⟩
    · exact hc
    · exact mem_spaces_putSlot.mpr (Or.inr hc)
    · exact mem_spaces_putSlot.mpr (Or.inr hc)
  · intro c space entry state hc
    exact mem_spaces_retagSlot.mpr hc

/-- A namespace that is new has an entry. -/
theorem Edits.new_space {base next : Context} (h : base.Edits next) {s : String}
    (hs : s ∈ Entries.keys next.spaces) :
    s ∈ Entries.keys base.spaces ∨ ∃ e, (next.slot? s e).isSome = true := by
  have put : ∀ (c : Context) (space entry : String) (slot : Slot),
      (s ∈ Entries.keys c.spaces →
        s ∈ Entries.keys base.spaces ∨ ∃ e, (c.slot? s e).isSome = true) →
      s ∈ Entries.keys (c.putSlot space entry slot).spaces →
        s ∈ Entries.keys base.spaces
          ∨ ∃ e, ((c.putSlot space entry slot).slot? s e).isSome = true := by
    intro c space entry slot hc hs
    by_cases hspace : space = s
    · subst hspace
      refine Or.inr ⟨entry, ?_⟩
      rw [slot?_putSlot, if_pos ⟨rfl, rfl⟩]
      rfl
    · rcases mem_spaces_putSlot.mp hs with hs | hs
      · exact absurd hs.symm hspace
      · rcases hc hs with hb | ⟨e, he⟩
        · exact Or.inl hb
        · refine Or.inr ⟨e, ?_⟩
          rw [slot?_putSlot, if_neg fun h => hspace h.1]
          exact he
  refine h.preserves (P := fun c => s ∈ Entries.keys c.spaces →
    s ∈ Entries.keys base.spaces ∨ ∃ e, (c.slot? s e).isSome = true) Or.inl ?_ ?_ hs
  · intro c d state v p hc step
    rcases write_cases step with ⟨name, _, _, rfl⟩ | ⟨space, entry, _, rfl⟩
        | ⟨space, entry, segment, rest, w, _, _, rfl⟩
    · exact hc
    · exact put c space entry _ hc
    · exact put c space entry _ hc
  · intro c space entry state hc
    rw [retagSlot_eq]
    cases c.slot? space entry with
    | none => exact hc
    | some slot => exact put c space entry _ hc

/-- An alias that is new or changed has a name that may be written. -/
theorem Edits.new_alias {base next : Context} (h : base.Edits next) {name : String} {v : Value}
    (hv : Entries.get? next.aliases name = some v) :
    Entries.get? base.aliases name = some v ∨ base.isReserved name = false := by
  induction h with
  | refl => exact Or.inl hv
  | write before step ih =>
    rcases write_cases step with ⟨written, _, free, rfl⟩ | ⟨space, entry, _, rfl⟩
        | ⟨space, entry, segment, rest, w, _, _, rfl⟩
    · rw [aliases_putAlias, Entries.get?_insert] at hv
      by_cases hn : written = name
      · subst hn
        rw [isReserved_eq_false_iff] at free ⊢
        exact Or.inr ⟨free.1, fun hb => free.2 (before.space_mem hb)⟩
      · rw [if_neg hn] at hv
        exact ih hv
    · exact ih hv
    · exact ih hv
  | retagSlot space entry state _ ih =>
    rw [aliases_retagSlot] at hv
    exact ih hv

/-- Aliases stay. -/
theorem Edits.alias_isSome {base next : Context} (h : base.Edits next) {name : String}
    (hn : (Entries.get? base.aliases name).isSome = true) :
    (Entries.get? next.aliases name).isSome = true := by
  refine h.preserves (P := fun c => (Entries.get? c.aliases name).isSome = true) hn ?_ ?_
  · intro c d state v p hc step
    rcases write_cases step with ⟨written, _, _, rfl⟩ | ⟨space, entry, _, rfl⟩
        | ⟨space, entry, segment, rest, w, _, _, rfl⟩
    · rw [aliases_putAlias, Entries.get?_insert]
      by_cases hw : written = name
      · rw [if_pos hw]
        rfl
      · rw [if_neg hw]
        exact hc
    · exact hc
    · exact hc
  · intro c space entry state hc
    rw [aliases_retagSlot]
    exact hc

end Context

end Tabletop
