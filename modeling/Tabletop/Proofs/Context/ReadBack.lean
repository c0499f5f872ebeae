/-
Tabletop.Proofs.Context.ReadBack — what a context reads after a write.

A write that succeeds stores its value at its path, whatever stood on the
way there: a missing namespace or entry, mappings, null, or the items of
lists. A lookup resolves the first segment as an alias before it looks for
a namespace. So the value is read back unless an alias has the name of the
namespace that the write went to (`read_back_iff`). A single name is refused
as an alias if a namespace has it; the first write into a namespace is not
refused though an alias has its name (`nested_write_hidden`). Whatever the
write does, the paths that diverge from its own read as before
(`set_local`).

  §1 What a write stores
  §2 What is read back
  §3 What is read elsewhere
-/
import Tabletop.Proofs.Context.Local

namespace Tabletop

namespace Context

open Tabletop.Path Tabletop.Value

variable {c d : Context}

/-! ## §1 What a write stores -/

/-- A write that succeeds stores its value at its path. -/
theorem stored?_write {state : SlotState} {v : Value} {p : Path} (h : c.write state v p = .ok d) :
    d.stored? p = some v := by
  rcases write_cases h with ⟨name, rfl, _, rfl⟩ | ⟨space, entry, rfl, rfl⟩
      | ⟨space, entry, segment, rest, w, rfl, inside, rfl⟩
  · exact Entries.get?_insert_self _ _ _
  · rw [stored?_entry, slot?_putSlot, if_pos ⟨rfl, rfl⟩]
    rfl
  · rw [stored?_entry, slot?_putSlot, if_pos ⟨rfl, rfl⟩, Option.bind_some]
    exact at?_writeAt_self inside

/-- A write into a namespace leaves the aliases. -/
theorem aliases_write {state : SlotState} {v : Value} {space entry : String} {rest : Path}
    (h : c.write state v (space :: entry :: rest) = .ok d) : d.aliases = c.aliases := by
  rcases write_cases h with ⟨_, one_segment, _⟩ | ⟨_, _, _, rfl⟩ | ⟨_, _, _, _, _, _, _, rfl⟩
  · cases one_segment
  · rfl
  · rfl

/-! ## §2 What is read back -/

/-- A write into an entry is read back, and what is below the value with it. -/
theorem lookup_write_self {state : SlotState} {v : Value} {space entry : String} {rest : Path}
    (h : c.write state v (space :: entry :: rest) = .ok d)
    (shown : Entries.get? c.aliases space = none) (below : Path) :
    d.lookup (space :: entry :: (rest ++ below)) = v.at? below := by
  rw [← aliases_write h] at shown
  rw [lookup_entry shown, stored?_append, stored?_write h, Option.bind_some]

/-- No alias has the name of the namespace that the path leads into, or else the alias itself holds
the value at the rest of the path. -/
def Shows (c : Context) (v : Value) : Path → Prop
  | space :: entry :: rest =>
      ∀ w, Entries.get? c.aliases space = some w → w.at? (entry :: rest) = some v
  | _ => True

theorem shows_entry {v : Value} {space entry : String} {rest : Path} :
    c.Shows v (space :: entry :: rest)
      ↔ ∀ w, Entries.get? c.aliases space = some w → w.at? (entry :: rest) = some v := Iff.rfl

/-- A write is read back exactly if no alias hides it. -/
theorem lookup_write_self_iff {state : SlotState} {v : Value} {p : Path}
    (h : c.write state v p = .ok d) : d.lookup p = some v ↔ c.Shows v p := by
  match p with
  | [] => cases h
  | [name] =>
    have read : d.lookup [name] = some v := lookup_of_alias (stored?_write h) []
    exact iff_of_true read trivial
  | space :: entry :: rest =>
    rw [shows_entry, ← aliases_write h]
    cases hidden : Entries.get? d.aliases space with
    | none =>
      rw [lookup_entry hidden, stored?_write h]
      simp
    | some w =>
      rw [lookup_of_alias hidden]
      simp

/-- A successful write stores its value at its path, and it is read back there exactly if no alias
hides it. -/
theorem read_back_iff {path : String} {v : Value} (h : c.set path v = .ok d) :
    d.stored? (Path.split path) = some v
      ∧ (d.get path = some v ↔ c.Shows v (Path.split path)) :=
  ⟨stored?_write h, lookup_write_self_iff h⟩

/-- A write to a field of an item of a list, next to an alias. -/
theorem nested_write_read_back :
    let party := fun hp => Value.list [.mapping [("hp", .int hp)]]
    let base := (Context.empty.putAlias "result" (.int 1)).putSlot "variables" "party"
      ⟨party 3, .plain⟩
    let next := base.putSlot "variables" "party" ⟨party 5, .plain⟩
    base.set "variables.party[0].hp" (.int 5) = .ok next
      ∧ next.get "variables.party[0].hp" = some (.int 5) := by
  intro party base next
  have written : base.set "variables.party[0].hp" (.int 5) = .ok next := by rfl
  refine ⟨written, (read_back_iff written).2.mpr ?_⟩
  have segments : Path.split "variables.party[0].hp" = ["variables", "party", "0", "hp"] := by rfl
  rw [segments]
  intro w named
  cases named

/-- An alias hides the namespace that a write of a later path makes under its name. In the other
order the write of the alias is refused. -/
theorem nested_write_hidden :
    let noted := Context.empty.putAlias "result" (.int 1)
    let nested := noted.putSlot "result" "total" ⟨.int 2, .plain⟩
    Context.empty.set "result" (.int 1) = .ok noted
      ∧ noted.set "result.total" (.int 2) = .ok nested
      ∧ nested.get "result.total" = none
      ∧ ∃ first, Context.empty.set "result.total" (.int 2) = .ok first
          ∧ first.set "result" (.int 1) = .error (.reserved "result") :=
  ⟨rfl, rfl, rfl, _, rfl, rfl⟩

/-! ## §3 What is read elsewhere -/

/-- A successful write leaves what is read at every path that diverges from its own. -/
theorem set_local {path other : String} {v : Value} (h : c.set path v = .ok d)
    (apart : (Path.split path).Diverges (Path.split other)) : d.get other = c.get other :=
  lookup_write_of_diverges h apart

/-- A write that makes a namespace and an entry, with mappings on the way, leaves the item of a list
and the alias next to it. -/
theorem new_namespace_leaves_alias :
    let base := Context.empty.putAlias "item" (.list [.int 1, .int 2])
    ∃ next, base.set "loot.chest.gold" (.int 5) = .ok next
      ∧ (Path.split "loot.chest.gold").Diverges (Path.split "item[1]")
      ∧ next.get "item[1]" = base.get "item[1]" := by
  intro base
  have segments : Path.split "loot.chest.gold" = ["loot", "chest", "gold"] := by rfl
  have others : Path.split "item[1]" = ["item", "1"] := by rfl
  have apart : (Path.split "loot.chest.gold").Diverges (Path.split "item[1]") := by
    rw [segments, others]
    decide
  have written : base.set "loot.chest.gold" (.int 5) = .ok
      (base.putSlot "loot" "chest" ⟨.mapping [("gold", .int 5)], .plain⟩) := by rfl
  exact ⟨_, written, apart, set_local written apart⟩

end Context

end Tabletop
