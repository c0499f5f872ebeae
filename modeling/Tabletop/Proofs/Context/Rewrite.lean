/-
Tabletop.Proofs.Context.Rewrite — which branch of a merge writes an entry.

A merge writes an entry for those branches only whose value of it differs
from the base's: the changes of the others have no write to it. So after a
merge the entry holds the value of the last branch that rewrites it, and what
the base holds if no branch does. A branch that has stored a value there
without rewriting it has stored what the base holds already.

  §1 Changes with a write to an entry
  §2 The changes of one branch
  §3 Merges
-/
import Tabletop.Proofs.Context.Tagging

namespace Tabletop

namespace Context

open Tabletop.Value

variable {c d base next : Context} {s e : String}

/-! ## §1 Changes with a write to an entry -/

/-- Among the changes is a write to the entry or inside it. -/
def WriteTo (changes : List Change) (s e : String) : Prop :=
  ∃ rest v, Change.write (s :: e :: rest) v ∈ changes

theorem writeTo_append {few more : List Change} :
    WriteTo (few ++ more) s e ↔ WriteTo few s e ∨ WriteTo more s e := by
  simp only [WriteTo, List.mem_append, exists_or]

theorem not_writeTo_elsewhere {changes : List Change}
    (elsewhere : ∀ change ∈ changes, ¬ change.Concerns s e) : ¬ WriteTo changes s e := by
  rintro ⟨rest, v, written⟩
  exact elsewhere _ written ⟨rest, rfl⟩

/-- A write elsewhere leaves the value of an entry. -/
theorem stored?_write_elsewhere {state : SlotState} {v : Value} {p : Path}
    (h : c.write state v p = .ok d) (elsewhere : ∀ rest, p ≠ s :: e :: rest) :
    d.stored? [s, e] = c.stored? [s, e] := by
  rcases slot?_write h s e with same | ⟨_, rest, here, _⟩
  · rw [stored?_entry, stored?_entry, same]
  · exact absurd here (elsewhere rest)

/-- Without a write to it an entry keeps its value, whatever its tags become. -/
theorem stored?_applyChanges_of_unwritten {changes : List Change}
    (h : c.applyChanges changes = .ok d) (unwritten : ¬ WriteTo changes s e) :
    d.stored? [s, e] = c.stored? [s, e] := by
  induction changes generalizing c with
  | nil =>
    cases h
    rfl
  | cons change rest ih =>
    obtain ⟨m, one, others⟩ := applyChanges_cons h
    rw [← List.singleton_append, writeTo_append, not_or] at unwritten
    rw [ih others unwritten.2]
    cases change with
    | retag space entry state =>
      cases one
      exact stored?_retagSlot c space entry state [s, e]
    | write p v =>
      refine stored?_write_elsewhere one ?_
      rintro place rfl
      exact unwritten.1 ⟨place, v, List.mem_singleton_self _⟩

/-! ## §2 The changes of one branch -/

/-- Among the changes of the context since the base is a write to the entry. -/
def Rewrites (base next : Context) (s e : String) : Prop := WriteTo (next.changesSince base) s e

/-- A value that is no mapping is written whole, unless it is the same as before; what follows is
the tag. -/
theorem slotChanges_of_whole (s e : String) (old : Option Slot) {new : Slot}
    (whole : ¬ new.value.IsMapping) :
    ∃ tags, ¬ WriteTo tags s e ∧
      (slotChanges s e old new = .write [s, e] new.value :: tags ∨
        slotChanges s e old new = tags ∧
          ∃ slot, old = some slot ∧ slot.value.same new.value = true) := by
  cases old with
  | none =>
    refine ⟨[.retag s e new.state], ?_, Or.inl rfl⟩
    rintro ⟨rest, v, written⟩
    cases List.mem_singleton.mp written
  | some old =>
    have apart : ∀ fields added, ¬ ByFields old.value new.value fields added :=
      fun fields added shape => whole ⟨added, shape.1⟩
    refine ⟨if old.state = new.state then [] else [.retag s e new.state], ?_, ?_⟩
    · rintro ⟨rest, v, written⟩
      split at written
      · exact absurd written List.not_mem_nil
      · cases List.mem_singleton.mp written
    · rw [slotChanges, valueChanges_whole apart]
      cases same : old.value.same new.value with
      | true => exact Or.inr ⟨rfl, old, rfl, same⟩
      | false => exact Or.inl rfl

/-- The changes of an entry leave a value that is no mapping, or leave the entry as it is. -/
theorem stored?_slotChanges_of_whole {old : Option Slot} {new : Slot}
    (whole : ¬ new.value.IsMapping) (h : c.applyChanges (slotChanges s e old new) = .ok d) :
    WriteTo (slotChanges s e old new) s e ∧ d.stored? [s, e] = some new.value ∨
      ¬ WriteTo (slotChanges s e old new) s e ∧ d.stored? [s, e] = c.stored? [s, e]
        ∧ ∃ slot, old = some slot ∧ slot.value.same new.value = true := by
  obtain ⟨tags, unwritten, split | ⟨split, held⟩⟩ := slotChanges_of_whole s e old whole
  · rw [split] at h ⊢
    obtain ⟨m, one, others⟩ := applyChanges_cons h
    cases one
    refine Or.inl ⟨⟨[], new.value, List.mem_cons_self⟩, ?_⟩
    rw [stored?_applyChanges_of_unwritten others unwritten, stored?_entry]
    change ((c.putSlot s e ⟨new.value, .plain⟩).slot? s e).bind _ = _
    rw [slot?_putSlot, if_pos ⟨rfl, rfl⟩]
    rfl
  · rw [split] at h ⊢
    exact Or.inr ⟨unwritten, stored?_applyChanges_of_unwritten h unwritten, held⟩

/-- A branch that stores a value which is no mapping rewrites the entry with it, or stores what the
base holds. -/
theorem stored?_branch_of_whole {m : Context} (hn : next.Indexed)
    (h : m.applyChanges (next.changesSince base) = .ok d) {new : Slot}
    (hs : next.slot? s e = some new) (whole : ¬ new.value.IsMapping) :
    base.Rewrites next s e ∧ d.stored? [s, e] = some new.value ∨
      ¬ base.Rewrites next s e ∧ d.stored? [s, e] = m.stored? [s, e]
        ∧ ∃ old, base.stored? [s, e] = some old ∧ old.same new.value = true := by
  rcases changesSince_around base hn s e with
    ⟨gone, _⟩ | ⟨_, before, after, there, split, ahead, behind⟩
  · rw [hs] at gone
    cases gone
  rw [hs] at there
  cases there
  have ahead := not_writeTo_elsewhere ahead
  have behind := not_writeTo_elsewhere behind
  have rewrites : base.Rewrites next s e ↔ WriteTo (slotChanges s e (base.slot? s e) new) s e := by
    rw [Rewrites, split, writeTo_append, writeTo_append]
    simp only [ahead, behind, false_or, or_false]
  rw [split] at h
  obtain ⟨last, h, ended⟩ := applyChanges_append h
  obtain ⟨first, begun, h⟩ := applyChanges_append h
  rw [rewrites, stored?_applyChanges_of_unwritten ended behind,
    ← stored?_applyChanges_of_unwritten begun ahead]
  rcases stored?_slotChanges_of_whole whole h with written | ⟨unwritten, kept, old, held, same⟩
  · exact Or.inl written
  · refine Or.inr ⟨unwritten, kept, old.value, ?_, same⟩
    rw [stored?_entry, held]
    rfl

/-! ## §3 Merges -/

/-- Branches that do not rewrite an entry leave its value. -/
theorem stored?_merge_of_spared {nexts : List Context}
    (h : c.applyChanges (base.changesOf nexts) = .ok d)
    (spared : ∀ next ∈ nexts, ¬ base.Rewrites next s e) :
    d.stored? [s, e] = c.stored? [s, e] := by
  refine stored?_applyChanges_of_unwritten h ?_
  rintro ⟨rest, v, written⟩
  obtain ⟨next, hn, written⟩ := List.mem_flatMap.mp written
  exact spared next hn ⟨rest, v, written⟩

/-- Of the branches that rewrite the entry, if there are any, the one that stands between the others
is the last. -/
structure LastToRewrite (base : Context) (few : List Context) (next : Context)
    (more : List Context) (s e : String) : Prop where
  earlier : ∀ other ∈ few, base.Rewrites other s e → base.Rewrites next s e
  later : ∀ other ∈ more, ¬ base.Rewrites other s e

/-- After a merge an entry holds what the last branch that rewrites it has stored there. -/
theorem stored?_merge_of_last {few more : List Context} (hn : next.Indexed)
    (h : base.applyChanges (base.changesOf (few ++ next :: more)) = .ok d)
    (last : base.LastToRewrite few next more s e) {new : Slot}
    (hs : next.slot? s e = some new) (whole : ¬ new.value.IsMapping) :
    ∃ v, d.stored? [s, e] = some v ∧ (v = new.value ∨ v.same new.value = true) := by
  have parts : base.changesOf (few ++ next :: more)
      = base.changesOf few ++ (next.changesSince base ++ base.changesOf more) := by
    simp [changesOf]
  rw [parts] at h
  obtain ⟨m, begun, h⟩ := applyChanges_append h
  obtain ⟨k, here, ended⟩ := applyChanges_append h
  rw [stored?_merge_of_spared ended last.later]
  rcases stored?_branch_of_whole hn here hs whole with
    ⟨_, written⟩ | ⟨spared, kept, old, held, same⟩
  · exact ⟨new.value, written, Or.inl rfl⟩
  · have none_ahead : ∀ other ∈ few, ¬ base.Rewrites other s e :=
      fun other ho rewrites => spared (last.earlier other ho rewrites)
    exact ⟨old, by rw [kept, stored?_merge_of_spared begun none_ahead, held], Or.inr same⟩

end Context

end Tabletop
