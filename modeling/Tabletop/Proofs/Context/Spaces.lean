/-
Tabletop.Proofs.Context.Spaces — the namespaces of a context.

A write whose path has a second segment makes the namespace that its first
segment names, if it is not there; nothing else makes one, and nothing takes
one away. So a merge of several contexts has the namespaces of its base and
those that any of the contexts has.

  §1 Writes
  §2 Changes
  §3 Merging
-/
import Tabletop.Proofs.Context.Concern
import Tabletop.Proofs.Context.Disjoint

namespace Tabletop

/-! ## §1 Writes -/

/-- The path leads into the namespace. -/
def Path.Enters (space : String) (p : Path) : Prop := ∃ entry rest, p = space :: entry :: rest

/-- The change writes into the namespace. -/
def Change.Enters (space : String) : Change → Prop
  | .write p _ => p.Enters space
  | .retag .. => False

namespace Context

variable {c d base : Context} {space : String}

/-- After a write there is one namespace more at most, the one that the path leads into. -/
theorem mem_spaces_write {state : SlotState} {v : Value} {p : Path}
    (h : c.write state v p = .ok d) :
    space ∈ Entries.keys d.spaces ↔ p.Enters space ∨ space ∈ Entries.keys c.spaces := by
  have into : ∀ {s entry : String} {rest : Path},
      Path.Enters space (s :: entry :: rest) ↔ space = s := by
    intro s entry rest
    constructor
    · rintro ⟨_, _, heq⟩
      exact (List.cons.inj heq).1.symm
    · rintro rfl
      exact ⟨entry, rest, rfl⟩
  rcases write_cases h with ⟨name, rfl, _, rfl⟩ | ⟨s, entry, rfl, rfl⟩
      | ⟨s, entry, segment, rest, w, rfl, _, rfl⟩
  · have named : ¬ Path.Enters space [name] := by
      rintro ⟨_, _, heq⟩
      cases heq
    rw [or_iff_right named]
    rfl
  · rw [mem_spaces_putSlot, into]
  · rw [mem_spaces_putSlot, into]

/-! ## §2 Changes -/

theorem mem_spaces_applyChanges {changes : List Change} (h : c.applyChanges changes = .ok d) :
    space ∈ Entries.keys d.spaces
      ↔ (∃ change ∈ changes, change.Enters space) ∨ space ∈ Entries.keys c.spaces := by
  induction changes generalizing c with
  | nil =>
    cases h
    simp
  | cons change rest ih =>
    obtain ⟨m, one, others⟩ := applyChanges_cons h
    have here : space ∈ Entries.keys m.spaces
        ↔ change.Enters space ∨ space ∈ Entries.keys c.spaces := by
      cases change with
      | write p v => exact mem_spaces_write one
      | retag s e state =>
        cases one
        rw [mem_spaces_retagSlot, or_iff_right]
        exact fun enters => enters
    rw [ih others, here, List.exists_mem_cons_iff, or_left_comm, or_assoc]

/-- Changes enter namespaces that the changed context has. -/
theorem mem_spaces_of_enters {next : Context} {change : Change}
    (hc : change ∈ next.changesSince base) (enters : change.Enters space) :
    space ∈ Entries.keys next.spaces := by
  rw [changesSince_eq] at hc
  rcases List.mem_append.mp hc with hc | hc
  · obtain ⟨x, hx, hc⟩ := List.mem_flatMap.mp hc
    obtain ⟨y, _, hc⟩ := List.mem_flatMap.mp hc
    have concerns := concerns_of_mem_slotChanges hc
    cases change with
    | retag s e state => exact absurd enters id
    | write p v =>
      obtain ⟨rest, rfl⟩ := concerns
      obtain ⟨_, _, heq⟩ := enters
      rw [← (List.cons.inj heq).1]
      exact Entries.mem_keys_of_mem hx
  · obtain ⟨x, _, hc⟩ := List.mem_filterMap.mp hc
    split at hc
    · cases hc
      obtain ⟨_, _, heq⟩ := enters
      cases heq
    · cases hc

/-- The entry of a namespace that the base does not have is written whole. -/
theorem enters_of_new_space {next : Context} (edits : base.Edits next)
    (fresh : space ∉ Entries.keys base.spaces) (h : space ∈ Entries.keys next.spaces) :
    ∃ change ∈ next.changesSince base, change.Enters space := by
  obtain ⟨e, he⟩ := (edits.new_space h).resolve_left fresh
  obtain ⟨slot, hs⟩ := Option.isSome_iff_exists.mp he
  obtain ⟨slots, hslots, hslot⟩ := Option.bind_eq_some_iff.mp hs
  have absent : base.slot? space e = none := by
    cases hb : base.slot? space e with
    | none => rfl
    | some old => exact absurd (mem_spaces_of_slot? hb) fresh
  refine ⟨.write [space, e] slot.value, ?_, e, [], rfl⟩
  have here : Change.write [space, e] slot.value ∈ spaceChanges base space slots := by
    refine List.mem_flatMap.mpr ⟨(e, slot), Entries.mem_of_get? hslot, ?_⟩
    simp only [absent]
    exact List.mem_cons_self
  exact List.mem_append_left _
    (List.mem_flatMap.mpr ⟨(space, slots), Entries.mem_of_get? hslots, here⟩)

/-! ## §3 Merging -/

/-- A merge has the namespaces of the base, and those that the contexts have. -/
theorem mem_spaces_merge {nexts : List Context} (edits : ∀ next ∈ nexts, base.Edits next)
    (h : base.applyChanges (base.changesOf nexts) = .ok d) :
    space ∈ Entries.keys d.spaces ↔ (∃ next ∈ nexts, space ∈ Entries.keys next.spaces)
      ∨ space ∈ Entries.keys base.spaces := by
  rw [mem_spaces_applyChanges h]
  by_cases fresh : space ∈ Entries.keys base.spaces
  · exact iff_of_true (Or.inr fresh) (Or.inr fresh)
  rw [or_iff_left fresh, or_iff_left fresh]
  constructor
  · rintro ⟨change, hc, enters⟩
    obtain ⟨next, hn, hc⟩ := List.mem_flatMap.mp hc
    exact ⟨next, hn, mem_spaces_of_enters hc enters⟩
  · rintro ⟨next, hn, there⟩
    obtain ⟨change, hc, enters⟩ := enters_of_new_space (edits next hn) fresh there
    exact ⟨change, List.mem_flatMap.mpr ⟨next, hn, hc⟩, enters⟩

end Context

end Tabletop
