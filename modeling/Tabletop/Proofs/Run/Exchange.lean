/-
Tabletop.Proofs.Run.Exchange — what a swap of two values does.

A swap reads both values and then writes them, one after the other. The
first write may make mappings on its way, or go through lists that lie on
the way of the second one too; but what it leaves at a path that diverges
from its own is what was there. So after a swap each path reads what the
other one read, and everything beside them is left. Where a value is read, a
write succeeds, so a second swap takes the first one back: what was absent
is null then.

  §1 Writes where a value is
  §2 Paths into entries
  §3 Swaps
-/
import Tabletop.Proofs.Context.ReadBack
import Tabletop.Proofs.Run.Contest
import Tabletop.Proofs.Traversal

namespace Tabletop

open Tabletop.Path Tabletop.Value Traced

/-! ## §1 Writes where a value is -/

/-- A write succeeds where there is a value already. -/
theorem Value.exists_writeAt_of_at? {v old : Value} {p : Path} (h : v.at? p = some old)
    (path : String) (new : Value) (passed : Path) :
    ∃ w, Context.writeAt path new passed v p = .ok w := by
  induction p generalizing v passed with
  | nil => exact ⟨new, rfl⟩
  | cons segment rest ih =>
    rw [at?_cons, Option.bind_eq_some_iff] at h
    obtain ⟨below, child, there⟩ := h
    obtain ⟨w, written⟩ := ih there (passed ++ [segment])
    cases v with
    | mapping fields =>
      rw [child?_mapping] at child
      refine ⟨.mapping (Entries.insert fields segment w), ?_⟩
      simp only [Context.writeAt, Value.isNull, Bool.false_eq_true, if_false, child,
        Option.getD_some, written]
      rfl
    | list items =>
      rw [child?, Option.bind_eq_some_iff] at child
      obtain ⟨i, position, item⟩ := child
      refine ⟨.list (items.set i w), ?_⟩
      simp only [Context.writeAt, Value.isNull, Bool.false_eq_true, if_false, position, item,
        written]
      rfl
    | _ => cases child

namespace Context

variable {c d e : Context} {p q : Path}

/-! ## §2 Paths into entries -/

/-- The path leads to an entry or into it, in a namespace that no alias hides. -/
def LeadsIn (c : Context) (p : Path) : Prop :=
  ∃ space entry rest, p = space :: entry :: rest ∧ Entries.get? c.aliases space = none

/-- A write to an entry hides nothing. -/
theorem LeadsIn.write {state : SlotState} {v : Value} (h : c.write state v p = .ok d)
    (hp : c.LeadsIn p) (hq : c.LeadsIn q) : d.LeadsIn q := by
  obtain ⟨space, entry, rest, rfl, _⟩ := hp
  obtain ⟨other, inside, further, rfl, shown⟩ := hq
  exact ⟨other, inside, further, rfl, aliases_write h ▸ shown⟩

/-- What is written to an entry is read. -/
theorem LeadsIn.lookup_write {state : SlotState} {v : Value} (h : c.write state v p = .ok d)
    (hp : c.LeadsIn p) : d.lookup p = some v := by
  obtain ⟨space, entry, rest, rfl, shown⟩ := hp
  have read := lookup_write_self h shown []
  rwa [List.append_nil] at read

/-- What is read in an entry can be replaced. -/
theorem LeadsIn.exists_write {old : Value} (hp : c.LeadsIn p) (h : c.lookup p = some old)
    (state : SlotState) (v : Value) : ∃ d, c.write state v p = .ok d := by
  obtain ⟨space, entry, rest, rfl, shown⟩ := hp
  cases rest with
  | nil => exact ⟨_, write_slot c state v space entry⟩
  | cons segment rest =>
    rw [lookup_entry shown, stored?_entry, Option.bind_eq_some_iff] at h
    obtain ⟨slot, there, held⟩ := h
    have opened : c.opened space entry = slot := by rw [opened, there, Option.getD_some]
    obtain ⟨w, written⟩ := exists_writeAt_of_at? held
      (Path.join (space :: entry :: segment :: rest)) v [space, entry]
    rw [write_below, opened, written]
    exact ⟨_, rfl⟩

/-! ## §3 Swaps -/

/-- What is read at the path; null if it is absent. -/
def valueAt (c : Context) (path : String) : Value := (c.get path).getD .null

/-- Each of the two paths reads in `d` what the other one reads in `c`, and paths that diverge from
both read the same. -/
structure Exchanged (c d : Context) (one other : String) : Prop where
  reads_one : d.get one = some (c.valueAt other)
  reads_other : d.get other = some (c.valueAt one)
  elsewhere : ∀ path, (split one).Diverges (split path) → (split other).Diverges (split path) →
    d.get path = c.get path

theorem valueAt_of_get {path : String} {v : Value} (h : c.get path = some v) :
    c.valueAt path = v := by
  rw [valueAt, h, Option.getD_some]

/-- A swap is a write of each value to the path of the other one. -/
theorem outcome_swap_eq_ok {written written' one other : String}
    (first : (c.resolvePath written).outcome = .ok one)
    (second : (c.resolvePath written').outcome = .ok other) :
    (c.swap written written').outcome = .ok d ↔
      ∃ m, c.set one (c.valueAt other) = .ok m ∧ m.set other (c.valueAt one) = .ok d := by
  constructor
  · intro h
    obtain ⟨_, found, h⟩ := outcome_bind_eq_ok.mp h
    rw [first] at found
    cases found
    obtain ⟨_, found, h⟩ := outcome_bind_eq_ok.mp h
    rw [second] at found
    cases found
    obtain ⟨m, there, back⟩ := outcome_bind_eq_ok.mp h
    exact ⟨m, outcome_writeTraced_eq_ok.mp there, outcome_writeTraced_eq_ok.mp back⟩
  · rintro ⟨m, there, back⟩
    refine outcome_bind_eq_ok.mpr ⟨one, first, outcome_bind_eq_ok.mpr ⟨other, second, ?_⟩⟩
    exact outcome_bind_eq_ok.mpr ⟨m, outcome_writeTraced_eq_ok.mpr there,
      outcome_writeTraced_eq_ok.mpr back⟩

section

variable {one other : String} (leads : c.LeadsIn (split one)) (leads' : c.LeadsIn (split other))
  (apart : (split one).Diverges (split other))

include leads leads' apart

/-- The second write leaves what the first one has written. -/
theorem exchanged_of_writes {m : Context} (there : c.set one (c.valueAt other) = .ok m)
    (back : m.set other (c.valueAt one) = .ok d) : c.Exchanged d one other where
  reads_one := (set_local back apart.symm).trans (leads.lookup_write there)
  reads_other := (leads.write there leads').lookup_write back
  elsewhere := fun _ aside aside' => (set_local back aside').trans (set_local there aside)

/-- What is read at two paths that diverge can be exchanged. -/
theorem exists_exchanged {v w : Value} (reads : c.get one = some v)
    (reads' : c.get other = some w) :
    ∃ m, c.set one (c.valueAt other) = .ok m ∧
      ∃ d, m.set other (c.valueAt one) = .ok d ∧ c.Exchanged d one other := by
  obtain ⟨m, there⟩ := leads.exists_write reads .plain (c.valueAt other)
  have kept : m.get other = some w := (set_local there apart).trans reads'
  obtain ⟨d, back⟩ := (leads.write there leads').exists_write kept .plain (c.valueAt one)
  exact ⟨m, there, d, back, exchanged_of_writes leads leads' apart there back⟩

end

/-- A swap of two paths into entries that diverge, if it succeeds, exchanges what they read and
leaves everything beside them. If the same paths are swapped again, that succeeds and takes the
first swap back. The paths of a swap are written as templates: here they are what the templates
give. -/
theorem swap_exchanges {written written' one other : String}
    (first : (c.resolvePath written).outcome = .ok one)
    (second : (c.resolvePath written').outcome = .ok other)
    (leads : c.LeadsIn (split one)) (leads' : c.LeadsIn (split other))
    (apart : (split one).Diverges (split other))
    (h : (c.swap written written').outcome = .ok d) :
    c.Exchanged d one other ∧ ∀ again again' : String,
      (d.resolvePath again).outcome = .ok one → (d.resolvePath again').outcome = .ok other →
        ∃ e, (d.swap again again').outcome = .ok e ∧ d.Exchanged e one other
          ∧ e.get one = some (c.valueAt one) ∧ e.get other = some (c.valueAt other)
          ∧ ∀ path, (split one).Diverges (split path) → (split other).Diverges (split path) →
              e.get path = c.get path := by
  obtain ⟨m, there, back⟩ := (outcome_swap_eq_ok first second).mp h
  have swapped := exchanged_of_writes leads leads' apart there back
  refine ⟨swapped, ?_⟩
  intro again again' first' second'
  have still : d.LeadsIn (split one) :=
    (leads.write there leads').write back (leads.write there leads)
  have still' : d.LeadsIn (split other) :=
    (leads.write there leads').write back (leads.write there leads')
  obtain ⟨n, there', e, back', restored⟩ :=
    exists_exchanged still still' apart swapped.reads_one swapped.reads_other
  refine ⟨e, (outcome_swap_eq_ok first' second').mpr ⟨n, there', back'⟩, restored, ?_, ?_, ?_⟩
  · rw [restored.reads_one, valueAt_of_get swapped.reads_other]
  · rw [restored.reads_other, valueAt_of_get swapped.reads_one]
  · intro path aside aside'
    exact (restored.elsewhere path aside aside').trans (swapped.elsewhere path aside aside')

/-- A party whose second member is not there yet. -/
def party : Context :=
  (Context.empty.putAlias "result" (.int 1)).putSlot "variables" "party"
    ⟨.list [.mapping [("name", .text "Ada"), ("hp", .int 3)], .null], .plain⟩

theorem resolvePath_party :
    (party.resolvePath "variables.party[\x7b\x7b result \x7d\x7d].hp").outcome
      = .ok "variables.party[1].hp" := eq_ok_of_toOption (by decide +kernel)

/-- The points of the first member go to the second one, whom an alias tells. Swapped again, they
are back, and the second member has none. -/
theorem swap_makes_mapping :
    ∃ next, (party.swap "variables.party[0].hp"
        "variables.party[\x7b\x7b result \x7d\x7d].hp").outcome = .ok next
      ∧ next.get "variables.party[0].hp" = some .null
      ∧ next.get "variables.party[1].hp" = some (.int 3)
      ∧ next.get "variables.party[0].name" = some (.text "Ada")
      ∧ ∃ last, (next.swap "variables.party[0].hp" "variables.party[1].hp").outcome = .ok last
        ∧ last.get "variables.party[0].hp" = some (.int 3)
        ∧ last.get "variables.party[1].hp" = some .null := by
  have first : (party.resolvePath "variables.party[0].hp").outcome = .ok "variables.party[0].hp" :=
    resolvePath_of_plain rfl (by decide) (by rfl)
  have segments : split "variables.party[0].hp" = ["variables", "party", "0", "hp"] := by rfl
  have segments' : split "variables.party[1].hp" = ["variables", "party", "1", "hp"] := by rfl
  have beside : split "variables.party[0].name" = ["variables", "party", "0", "name"] := by rfl
  have apart : (split "variables.party[0].hp").Diverges (split "variables.party[1].hp") := by
    rw [segments, segments']
    decide
  let next := party.putSlot "variables" "party"
    ⟨.list [.mapping [("name", .text "Ada"), ("hp", .null)], .mapping [("hp", .int 3)]], .plain⟩
  have swapped : (party.swap "variables.party[0].hp"
      "variables.party[\x7b\x7b result \x7d\x7d].hp").outcome = .ok next :=
    (outcome_swap_eq_ok first resolvePath_party).mpr ⟨_, by rfl, by rfl⟩
  obtain ⟨exchanged, undone⟩ := swap_exchanges first resolvePath_party
    ⟨"variables", "party", ["0", "hp"], segments, rfl⟩
    ⟨"variables", "party", ["1", "hp"], segments', rfl⟩ apart swapped
  obtain ⟨last, back, _, restored, restored', _⟩ := undone _ _
    (resolvePath_of_plain rfl (by decide) (by rfl)) (resolvePath_of_plain rfl (by decide) (by rfl))
  refine ⟨next, swapped, exchanged.reads_one, exchanged.reads_other, ?_, last, back, restored,
    restored'⟩
  refine (exchanged.elsewhere _ ?_ ?_).trans (by rfl)
  · rw [segments, beside]
    decide
  · rw [segments', beside]
    decide

end Context

end Tabletop
