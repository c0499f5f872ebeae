/-
Tabletop.Proofs.Context.Snapshot — the snapshot says what the context says.

A context looks a path up in its aliases first, then in its namespaces, entry
by entry; its snapshot is one mapping, in which an alias has taken the place
of a namespace of its name. A path with at least one segment leads to the
same value in both. Templates ask for no other paths, so they cannot tell the
context from its snapshot.

  §1 Namespaces as values
  §2 Paths
  §3 Templates
-/
import Tabletop.Proofs.Context.Agreement
import Tabletop.Proofs.Template.Scope

namespace Tabletop

namespace Context

/-! ## §1 Namespaces as values -/

/-- A namespace as a mapping has the values of its entries. -/
theorem child?_slotsValue (slots : Slots) (entry : String) :
    (slotsValue slots).child? entry = (Entries.get? slots entry).map Slot.value :=
  Entries.get?_map Slot.value slots entry

/-- A root of the snapshot is the alias of the name, or else the namespace. -/
theorem child?_snapshot {c : Context} (distinct : Entries.NodupKeys c.aliases) (root : String) :
    c.snapshot.child? root
      = (Entries.get? c.aliases root).or ((Entries.get? c.spaces root).map slotsValue) := by
  rw [← Entries.get?_map slotsValue c.spaces root]
  exact distinct.get?_override _ _

/-! ## §2 Paths -/

/-- A path that begins with a name leads to the same value in the context and in its snapshot. -/
theorem lookup_eq_at?_snapshot {c : Context} (distinct : Entries.NodupKeys c.aliases)
    (root : String) (rest : Path) : c.lookup (root :: rest) = c.snapshot.at? (root :: rest) := by
  rw [Value.at?_cons, child?_snapshot distinct]
  cases ha : Entries.get? c.aliases root with
  | some v => exact lookup_of_alias ha rest
  | none =>
    rw [Option.none_or]
    cases rest with
    | nil =>
      rw [lookup_space ha]
      cases Entries.get? c.spaces root <;> rfl
    | cons entry rest =>
      rw [lookup_entry ha, stored?_entry, slot?]
      cases Entries.get? c.spaces root with
      | none => rfl
      | some slots =>
        change _ = (slotsValue slots).at? (entry :: rest)
        rw [Value.at?_cons, child?_slotsValue, Option.bind_map]
        rfl

/-! ## §3 Templates -/

/-- The snapshot agrees with the context: a template has the same value or the same error in both,
and a path with at least one segment leads to the same value. -/
theorem snapshot_agrees (c : Context) (distinct : Entries.NodupKeys c.aliases) :
    (∀ template, Resolver.expressions.resolve template c.scope
      = Resolver.expressions.resolve template c.snapshot.scope) ∧
    ∀ path, Path.split path ≠ [] → c.get path = c.snapshot.at? (Path.split path) := by
  have agree : Scope.Agree c.scope c.snapshot.scope := lookup_eq_at?_snapshot distinct
  exact ⟨resolveTemplate_of_agree agree, fun _ present => agree.path present⟩

/-- A pack with a torch, kept as an alias. -/
def torch : Fields := [("torch", .int 3)]

/-- The alias `pack`, and then a namespace of its name: a write below a name makes one. -/
def packed : Except ContextError Context := do
  let c ← Context.empty.set "pack" (.mapping torch)
  c.set "pack.rope" (.int 2)

/-- The torches and ropes of the pack; a rope that is not found counts as one. -/
def packCount : String := "\x7b\x7b pack.torch + pack.rope|default(1) \x7d\x7d"

/-- The alias hides the namespace of its name, in the context as in its snapshot: the rope is found
in neither. -/
theorem packed_hides_rope :
    ∃ c, packed = .ok c ∧ (c.slot? "pack" "rope").isSome = true ∧ Entries.NodupKeys c.aliases ∧
      Resolver.expressions.resolve packCount c.scope
        = Resolver.expressions.resolve packCount c.snapshot.scope ∧
      ((Resolver.expressions.resolve packCount c.scope).toOption.bind Value.asInt64?) = some 4 ∧
      c.get "pack.rope" = none ∧ c.snapshot.at? ["pack", "rope"] = none := by
  obtain ⟨c, made⟩ : ∃ c, packed = .ok c := ⟨_, rfl⟩
  have distinct : Entries.NodupKeys c.aliases := by
    cases made
    decide
  obtain ⟨templates, paths⟩ := snapshot_agrees c distinct
  have hidden : c.get "pack.rope" = none := by
    cases made
    rfl
  have split : Path.split "pack.rope" = ["pack", "rope"] := by decide
  have nowhere := paths "pack.rope" (by decide)
  rw [hidden, split] at nowhere
  have counted : ((Resolver.expressions.resolve packCount c.scope).toOption.bind Value.asInt64?)
      = some 4 := by
    cases made
    decide +kernel
  refine ⟨c, made, ?_, distinct, templates _, counted, hidden, nowhere.symm⟩
  cases made
  rfl

end Context

end Tabletop
