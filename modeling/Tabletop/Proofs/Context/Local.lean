/-
Tabletop.Proofs.Context.Local — writes are local.

Two paths diverge if they part before either ends, and their segments part
for every value: as keys of a mapping and as positions in a list. Different
segments may denote the same position, as 1 and 01 do, so paths with these
segments need not diverge. A write that succeeds leaves every lookup at a
path that diverges from its own as it was, aliases and namespaces included.

  §1 Paths that diverge
  §2 Writes inside values
  §3 Writes in contexts
-/
import Tabletop.Proofs.Context.Agreement

namespace Tabletop

namespace Path

/-! ## §1 Paths that diverge -/

/-- No value has the same child under both segments by their spelling alone. -/
def Parts (a b : String) : Prop := a ≠ b ∧ (index? a = index? b → index? a = none)

instance (a b : String) : Decidable (Parts a b) := by
  unfold Parts
  infer_instance

/-- At the first place where the segments of the paths differ, they part. -/
inductive Diverges : Path → Path → Prop
  | here {a b : String} {p q : Path} (parts : Parts a b) : Diverges (a :: p) (b :: q)
  | later {a : String} {p q : Path} (further : Diverges p q) : Diverges (a :: p) (a :: q)

theorem diverges_cons {a b : String} {p q : Path} :
    Diverges (a :: p) (b :: q) ↔ Parts a b ∨ (a = b ∧ Diverges p q) := by
  constructor
  · intro h
    cases h with
    | here parts => exact Or.inl parts
    | later further => exact Or.inr ⟨rfl, further⟩
  · rintro (parts | ⟨rfl, further⟩)
    · exact .here parts
    · exact .later further

theorem Parts.symm {a b : String} (h : Parts a b) : Parts b a :=
  ⟨h.1.symm, fun same => same.trans (h.2 same.symm)⟩

theorem Diverges.symm {p q : Path} (h : p.Diverges q) : q.Diverges p := by
  induction h with
  | here parts => exact .here parts.symm
  | later _ ih => exact .later ih

theorem not_diverges_nil_left {q : Path} : ¬ Diverges [] q := nofun

theorem not_diverges_nil_right {p : Path} : ¬ Diverges p [] := nofun

/-- Divergence is decided segment by segment. -/
instance decideDiverges : (p q : Path) → Decidable (Diverges p q)
  | _ :: p, _ :: q =>
      have := decideDiverges p q
      decidable_of_iff' _ diverges_cons
  | [], _ => isFalse not_diverges_nil_left
  | _ :: _, [] => isFalse not_diverges_nil_right

theorem Diverges.exists_cons {p q : Path} (h : Diverges p q) :
    ∃ segment rest, q = segment :: rest := by
  cases h <;> exact ⟨_, _, rfl⟩

/-- A path diverges from a joined path on the way through its first part, or after it. -/
theorem diverges_append {p rest q : Path} :
    Diverges (p ++ rest) q ↔ Diverges p q ∨ ∃ after, q = p ++ after ∧ Diverges rest after := by
  induction p generalizing q with
  | nil => simp [not_diverges_nil_left]
  | cons a p ih =>
    cases q with
    | nil => simp [not_diverges_nil_right]
    | cons b q =>
      rw [List.cons_append, diverges_cons, diverges_cons, ih, or_assoc]
      refine or_congr Iff.rfl ?_
      constructor
      · rintro ⟨rfl, apart | ⟨after, rfl, apart⟩⟩
        · exact Or.inl ⟨rfl, apart⟩
        · exact Or.inr ⟨after, rfl, apart⟩
      · rintro (⟨rfl, apart⟩ | ⟨after, hq, apart⟩)
        · exact ⟨rfl, Or.inl apart⟩
        · rw [List.cons_append] at hq
          cases hq
          exact ⟨rfl, Or.inr ⟨after, rfl, apart⟩⟩

end Path

open Tabletop.Path Tabletop.Value

/-! ## §2 Writes inside values -/

/-- A write inside a value leaves what is at a path that diverges from its own. -/
theorem Value.at?_writeAt_of_diverges {path : String} {new v w : Value} {passed p q : Path}
    (h : Context.writeAt path new passed v p = .ok w) (apart : p.Diverges q) :
    w.at? q = v.at? q := by
  induction p generalizing passed v w q with
  | nil => exact absurd apart not_diverges_nil_left
  | cons a p ih =>
    obtain ⟨b, q, rfl⟩ := apart.exists_cons
    rw [at?_cons, at?_cons]
    rcases writeAt_cases h with ⟨fields, below, there, written, rfl⟩
        | ⟨items, i, item, below, rfl, position, found, written, rfl⟩
    · rw [child?_mapping, child?_of_fields? there, Entries.get?_insert]
      rcases diverges_cons.mp apart with parts | ⟨rfl, further⟩
      · rw [if_neg parts.1]
      · obtain ⟨segment, rest, rfl⟩ := further.exists_cons
        rw [if_pos rfl, Option.bind_some, ih written further]
        exact at?_inner fields a segment rest
    · rw [child?, child?]
      rcases diverges_cons.mp apart with parts | ⟨rfl, further⟩
      · have elsewhere : ∀ j, index? b = some j → i ≠ j := by
          rintro j hj rfl
          cases position.symm.trans (parts.2 (position.trans hj.symm))
        cases hj : index? b with
        | none => rfl
        | some j =>
          rw [Option.bind_some, Option.bind_some, List.getElem?_set_ne (elsewhere j hj)]
      · have inside : i < items.length := (List.getElem?_eq_some_iff.mp found).1
        rw [position, Option.bind_some, Option.bind_some, List.getElem?_set_self inside, found]
        exact ih written further

/-! ## §3 Writes in contexts -/

namespace Context

theorem lookup_putAlias {c : Context} {name : String} {v : Value} {q : Path}
    (apart : Diverges [name] q) : (c.putAlias name v).lookup q = c.lookup q := by
  obtain ⟨root, rest, rfl⟩ := apart.exists_cons
  rcases diverges_cons.mp apart with parts | ⟨_, further⟩
  · simp only [lookup, aliases_putAlias, Entries.get?_insert_ne _ parts.1]
    rfl
  · exact absurd further not_diverges_nil_left

/-- A write to an entry leaves the lookups that lead past it, whatever it does in it. -/
theorem lookup_putSlot {c : Context} {space entry : String} {slot : Slot} {q : Path}
    (apart : Diverges [space, entry] q) : (c.putSlot space entry slot).lookup q = c.lookup q := by
  obtain ⟨root, rest, rfl⟩ := apart.exists_cons
  cases ha : Entries.get? c.aliases root with
  | some v =>
    have kept : Entries.get? (c.putSlot space entry slot).aliases root = some v := ha
    rw [lookup_of_alias kept, lookup_of_alias ha]
  | none =>
    rcases diverges_cons.mp apart with parts | ⟨rfl, further⟩
    · simp only [lookup, putSlot, withSlots, Entries.get?_insert_ne _ parts.1]
    · obtain ⟨other, rest, rfl⟩ := further.exists_cons
      rcases diverges_cons.mp further with parts | ⟨_, ended⟩
      · have kept : Entries.get? (c.putSlot space entry slot).aliases space = none := ha
        rw [lookup_entry kept, lookup_entry ha, stored?_entry, stored?_entry, slot?_putSlot,
          if_neg fun h => parts.1 h.2]
      · exact absurd ended not_diverges_nil_left

/-- A write inside an entry leaves the lookups in it that its value leaves. -/
theorem lookup_putSlot_below {c : Context} {space entry : String} {slot : Slot} {q : Path}
    (h : slot.value.at? q = c.stored? (space :: entry :: q)) :
    (c.putSlot space entry slot).lookup (space :: entry :: q)
      = c.lookup (space :: entry :: q) := by
  cases ha : Entries.get? c.aliases space with
  | some v =>
    have kept : Entries.get? (c.putSlot space entry slot).aliases space = some v := ha
    rw [lookup_of_alias kept, lookup_of_alias ha]
  | none =>
    have kept : Entries.get? (c.putSlot space entry slot).aliases space = none := ha
    rw [lookup_entry kept, lookup_entry ha, stored?_entry, slot?_putSlot, if_pos ⟨rfl, rfl⟩]
    exact h

/-- A write leaves the lookups at paths that diverge from its own. -/
theorem lookup_write_of_diverges {c d : Context} {state : SlotState} {v : Value} {p q : Path}
    (h : c.write state v p = .ok d) (apart : p.Diverges q) : d.lookup q = c.lookup q := by
  rcases write_cases h with ⟨name, rfl, _, rfl⟩ | ⟨space, entry, rfl, rfl⟩
      | ⟨space, entry, segment, rest, w, rfl, inside, rfl⟩
  · exact lookup_putAlias apart
  · exact lookup_putSlot apart
  · rcases diverges_append (p := [space, entry]).mp apart with outside | ⟨after, rfl, further⟩
    · exact lookup_putSlot outside
    · obtain ⟨next, after, rfl⟩ := further.exists_cons
      exact lookup_putSlot_below ((at?_writeAt_of_diverges inside further).trans
        (stored?_below c space entry next after).symm)

end Context

end Tabletop
