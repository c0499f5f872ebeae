/-
Tabletop.Proofs.Context.Agreement — contexts that cannot be told apart.

Contexts agree if every lookup gives the same value and every entry has the
same state. Agreement is found place by place: contexts that hold the same
writes resemble each other wherever a write has been, and contexts that
resemble each other everywhere store the same values.

  §1 Contexts that resemble each other at a place
  §2 From places to stored values
  §3 From stored values to lookups
-/
import Tabletop.Proofs.Context.Stored

namespace Tabletop

namespace Context

open Tabletop.Path Tabletop.Value

/-! ## §1 Contexts that resemble each other at a place -/

/-- The aliases of the name are the same, or what is stored at the place of an entry is alike. -/
def Resembles (c d : Context) : Path → Prop
  | [name] => SameAs (c.stored? [name]) (d.stored? [name])
  | p => AlikeAs (c.stored? p) (d.stored? p)

theorem resembles_alias {c d : Context} {name : String} :
    c.Resembles d [name]
      ↔ SameAs (Entries.get? c.aliases name) (Entries.get? d.aliases name) := Iff.rfl

theorem resembles_entry {c d : Context} {space entry : String} {rest : Path} :
    c.Resembles d (space :: entry :: rest)
      ↔ AlikeAs (c.stored? (space :: entry :: rest)) (d.stored? (space :: entry :: rest)) := Iff.rfl

theorem resembles_of_eq {c d : Context} (hc : c.WellFormed) {p : Path}
    (h : c.stored? p = d.stored? p) : c.Resembles d p := by
  have same : SameAs (c.stored? p) (d.stored? p) := by
    rw [← h]
    exact sameAs_refl fun v hv => hc.stored hv
  match p with
  | [] => exact same.alike
  | [_] => exact same
  | _ :: _ :: _ => exact same.alike

/-- Where a write has been, contexts that hold it resemble each other. -/
theorem Holds.resembles {c d : Context} {changes : List Change} (hc : c.Holds changes)
    (hd : d.Holds changes) (wf : c.WellFormed) {q : Path} {v : Value}
    (hw : .write q v ∈ changes) {p : Path} (touches : ¬ Clear q p) : c.Resembles d p := by
  have apart : ¬ q.Incomparable p := fun h => touches (Or.inl h)
  have kinds : ¬ (q.length = 1 ↔ p.length ≠ 1) := fun h => touches (Or.inr h)
  have written : c.stored? q = d.stored? q := by rw [hc.reads q v hw, hd.reads q v hw]
  match q, p with
  | [], _ => cases hc.reads [] v hw
  | [name], [] => simp at kinds
  | [name], _ :: _ :: _ => simp at kinds
  | _ :: _ :: _, [_] => simp at kinds
  | [name], [other] =>
    rcases prefix_or_incomparable [name] [other] with h | h | h
    · rw [List.cons_prefix_cons] at h
      rw [← h.1]
      exact resembles_of_eq wf written
    · rw [List.cons_prefix_cons] at h
      rw [h.1]
      exact resembles_of_eq wf written
    · exact absurd h apart
  | _ :: _ :: _, [] => exact resembles_of_eq wf rfl
  | space :: entry :: q, s :: e :: p =>
    rcases prefix_or_incomparable (space :: entry :: q) (s :: e :: p) with h | h | h
    · rw [List.cons_prefix_cons, List.cons_prefix_cons] at h
      obtain ⟨rfl, rfl, r, rfl⟩ := h
      refine resembles_of_eq wf ?_
      rw [stored?_append, stored?_append, written]
    · rw [List.cons_prefix_cons, List.cons_prefix_cons] at h
      obtain ⟨rfl, rfl, r, rfl⟩ := h
      cases r with
      | nil =>
        rw [List.append_nil] at written
        exact resembles_of_eq wf written
      | cons segment b =>
        obtain ⟨fc, hfc⟩ := hc.opens s e p segment b v hw
        obtain ⟨fd, hfd⟩ := hd.opens s e p segment b v hw
        rw [resembles_entry, hfc, hfd]
        exact .some (.mapping fc fd)
    · exact absurd h apart

/-! ## §2 From places to stored values -/

/-- Contexts that resemble each other everywhere store the same values. -/
theorem sameAs_of_resembles {c d : Context} (hc : c.WellFormed) (hd : d.WellFormed)
    (h : ∀ p, c.Resembles d p) (p : Path) : SameAs (c.stored? p) (d.stored? p) := by
  match p with
  | [] => exact .none
  | [name] => exact h [name]
  | space :: entry :: rest =>
    have here : AlikeAs (c.stored? (space :: entry :: rest)) (d.stored? (space :: entry :: rest)) :=
      h (space :: entry :: rest)
    cases hv : c.stored? (space :: entry :: rest) with
    | none =>
      have hw : d.stored? (space :: entry :: rest) = none := by
        rw [← Option.not_isSome_iff_eq_none, ← isSome_eq_of_rel here, hv]
        simp
      rw [hw]
      exact .none
    | some v =>
      obtain ⟨w, hw, _⟩ := exists_of_rel here hv
      rw [hw]
      refine .some (same_of_alike (hc.stored hv) (hd.stored hw) ?_)
      intro r
      have below : AlikeAs (c.stored? (space :: entry :: (rest ++ r)))
          (d.stored? (space :: entry :: (rest ++ r))) := h (space :: entry :: (rest ++ r))
      rw [stored?_append, stored?_append, hv, hw] at below
      exact below

/-! ## §3 From stored values to lookups -/

/-- No lookup and no state tells the contexts apart. -/
structure Agrees (c d : Context) : Prop where
  lookup : ∀ p, SameAs (c.lookup p) (d.lookup p)
  states : ∀ space entry,
    (c.slot? space entry).map (·.state) = (d.slot? space entry).map (·.state)

theorem stored?_slot (c : Context) (space entry : String) :
    c.stored? [space, entry] = (c.slot? space entry).map (·.value) := by
  rw [stored?_entry]
  cases c.slot? space entry <;> rfl

/-- An alias hides what is stored under its name. -/
theorem lookup_of_alias {c : Context} {root : String} {v : Value}
    (h : Entries.get? c.aliases root = some v) (rest : Path) :
    c.lookup (root :: rest) = v.at? rest := by
  simp only [Context.lookup, h]

/-- Below an entry that no alias hides a lookup gives what is stored. -/
theorem lookup_entry {c : Context} {space : String}
    (h : Entries.get? c.aliases space = none) (entry : String) (rest : Path) :
    c.lookup (space :: entry :: rest) = c.stored? (space :: entry :: rest) := by
  rw [stored?_entry, slot?]
  simp only [Context.lookup, h]
  cases Entries.get? c.spaces space <;> rfl

theorem lookup_space {c : Context} {space : String}
    (h : Entries.get? c.aliases space = none) :
    c.lookup [space] = (Entries.get? c.spaces space).map slotsValue := by
  simp only [Context.lookup, h]
  cases Entries.get? c.spaces space <;> rfl

/-- Namespaces with the same entries are the same as mappings. -/
theorem same_slotsValue {a b : Slots} (ha : Entries.NodupKeys a) (hb : Entries.NodupKeys b)
    (h : ∀ e, SameAs ((Entries.get? a e).map (·.value)) ((Entries.get? b e).map (·.value))) :
    (slotsValue a).same (slotsValue b) = true := by
  refine same_mapping_iff.mpr ⟨?_, ?_⟩
  · rw [List.length_map, List.length_map]
    refine ha.length_eq hb ?_
    intro e
    have there := isSome_eq_of_rel (h e)
    rw [Option.isSome_map, Option.isSome_map] at there
    rw [← Entries.isSome_get?_iff, ← Entries.isSome_get?_iff, there]
  · intro x hx
    obtain ⟨⟨k, slot⟩, hs, rfl⟩ := List.mem_map.mp hx
    have hk : (Entries.get? a k).map (·.value) = some slot.value := by
      rw [ha.get?_of_mem hs]
      rfl
    obtain ⟨w, hw, same⟩ := exists_of_rel (h k) hk
    refine ⟨w, ?_, same⟩
    rw [Entries.get?_map, hw]

/-- Contexts with the same namespaces that store the same values read the same. -/
theorem sameAs_lookup {c d : Context} (hc : c.WellFormed) (hd : d.WellFormed)
    (spaces : ∀ s, s ∈ Entries.keys c.spaces ↔ s ∈ Entries.keys d.spaces)
    (h : ∀ p, SameAs (c.stored? p) (d.stored? p)) (p : Path) :
    SameAs (c.lookup p) (d.lookup p) := by
  match p with
  | [] => exact .none
  | root :: rest =>
    cases hv : Entries.get? c.aliases root with
    | some v =>
      obtain ⟨w, hw, same⟩ := exists_of_rel (h [root]) hv
      rw [lookup_of_alias hv, lookup_of_alias hw]
      exact same_at? (hc.aliasValues hv) same rest
    | none =>
      have hw : Entries.get? d.aliases root = none := by
        have there := isSome_eq_of_rel (h [root])
        rw [stored?_alias, stored?_alias, hv] at there
        rw [← Option.not_isSome_iff_eq_none, ← there]
        simp
      match rest with
      | entry :: rest =>
        rw [lookup_entry hv, lookup_entry hw]
        exact h _
      | [] =>
        rw [lookup_space hv, lookup_space hw]
        have there := spaces root
        rw [← Entries.isSome_get?_iff, ← Entries.isSome_get?_iff] at there
        cases ha : Entries.get? c.spaces root with
        | none =>
          cases hb : Entries.get? d.spaces root with
          | none => exact .none
          | some b => simp [ha, hb] at there
        | some a =>
          cases hb : Entries.get? d.spaces root with
          | none => simp [ha, hb] at there
          | some b =>
            refine .some (same_slotsValue (hc.slots ha) (hd.slots hb) ?_)
            intro e
            have entry := h [root, e]
            rw [stored?_slot, stored?_slot, slot?, slot?, ha, hb] at entry
            exact entry

end Context

end Tabletop
