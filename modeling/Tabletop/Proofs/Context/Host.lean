/-
Tabletop.Proofs.Context.Host — paths that a context already has room for.

A context hosts a path if inside the entry that the path leads into every
place on the way holds a mapping or null. Aliases and whole entries are
hosted always. Writes that do not touch a hosted path leave what is stored
there, also those that go through lists and those that make entries; and
nothing but a write above a hosted path takes its room away.

  §1 Hosted paths
  §2 One write
  §3 Lists of changes
-/
import Tabletop.Proofs.Context.Difference
import Tabletop.Proofs.Value.Host

namespace Tabletop

namespace Context

open Tabletop.Path Tabletop.Value

variable {c d : Context} {state : SlotState} {v : Value} {p q : Path}

/-! ## §1 Hosted paths -/

/-- Inside the entry of the path every place on the way holds a mapping or null. -/
def Hosts (c : Context) (p : Path) : Prop :=
  ∀ q segment rest, p = q ++ segment :: rest → 2 ≤ q.length →
    ∃ u fields, c.stored? q = some u ∧ u.fields? = some fields

/-- A context that hosts a path hosts the paths on the way there. -/
theorem Hosts.above (h : c.Hosts p) (on : q <+: p) : c.Hosts q := by
  obtain ⟨more, rfl⟩ := on
  intro r segment rest hq inside
  refine h r segment (rest ++ more) ?_ inside
  rw [hq, List.append_assoc, List.cons_append]

/-- Paths of at most two segments are hosted. -/
theorem hosts_of_short (short : p.length ≤ 2) : c.Hosts p := by
  rintro q segment rest rfl inside
  simp only [List.length_append, List.length_cons] at short
  omega

theorem at?_opened {space entry : String} {rest : Path} {u : Value}
    (held : c.stored? (space :: entry :: rest) = some u) :
    (c.opened space entry).value.at? rest = some u := by
  rw [stored?_entry, Option.bind_eq_some_iff] at held
  obtain ⟨slot, hs, held⟩ := held
  rw [opened, hs]
  exact held

/-- The entry of a hosted path hosts the rest of it. -/
theorem Hosts.entry {space entry : String} {rest : Path}
    (h : c.Hosts (space :: entry :: rest)) : (c.opened space entry).value.Hosts rest := by
  intro q segment more hq
  obtain ⟨u, fields, held, opened⟩ :=
    h (space :: entry :: q) segment more (by rw [hq]; rfl) (by simp)
  exact ⟨u, fields, at?_opened held, opened⟩

/-- A write to a hosted path that succeeds is one that the context admits. -/
theorem Hosts.admits (h : c.Hosts p) (written : c.write state v p = .ok d) : c.Admits p := by
  rcases write_cases written with ⟨name, rfl, free, _⟩ | ⟨space, entry, rfl, _⟩
      | ⟨space, entry, segment, rest, _, rfl, _⟩
  · exact free
  · exact h.entry.admits
  · exact h.entry.admits

/-! ## §2 One write -/

theorem Clear.symm (h : Clear p q) : Clear q p := by
  rcases h with apart | kinds
  · exact Or.inl apart.symm
  · exact Or.inr (by omega)

/-- A write that leaves a hosted path clear leaves what is stored there. -/
theorem stored?_write_of_clear (hosts : c.Hosts p) (h : c.write state v q = .ok d)
    (clear : Clear q p) : d.stored? p = c.stored? p := by
  rcases write_cases h with ⟨name, rfl, _, rfl⟩ | ⟨space, entry, rfl, rfl⟩
      | ⟨space, entry, segment, rest, w, rfl, inside, rfl⟩
  · exact (written_putAlias v).keeps p clear
  · have here : c.Admits [space, entry] := (c.opened space entry).value.admits_nil
    exact (written_putSlot here state).keeps p clear
  · match p with
    | [] => rfl
    | [_] => rfl
    | s :: e :: place =>
      by_cases here : space = s ∧ entry = e
      · obtain ⟨rfl, rfl⟩ := here
        have apart : Incomparable (space :: entry :: segment :: rest) (space :: entry :: place) :=
          clear.resolve_right (by simp)
        have apart := incomparable_cons.mp (incomparable_cons.mp apart rfl) rfl
        cases place with
        | nil => exact absurd apart not_incomparable_nil_right
        | cons next more =>
          rw [stored?_below, stored?_below, opened, slot?_putSlot, if_pos ⟨rfl, rfl⟩]
          exact at?_writeAt_of_incomparable hosts.entry inside apart
      · rw [stored?_entry, stored?_entry, slot?_putSlot, if_neg here]

/-- A write below a place of an entry that holds a mapping or null leaves a mapping there that is
not empty. -/
theorem stored?_write_above {u : Value} {fields : Fields} {segment : String} {rest : Path}
    (hosts : c.Hosts p) (inside : 2 ≤ p.length) (held : c.stored? p = some u)
    (opened : u.fields? = some fields) (h : c.write state v (p ++ segment :: rest) = .ok d) :
    ∃ added, d.stored? p = some (.mapping added) ∧ added ≠ [] := by
  match p with
  | [] => simp at inside
  | [_] => simp at inside
  | space :: entry :: place =>
    rcases write_cases h with ⟨_, short, _⟩ | ⟨_, _, short, _⟩
        | ⟨s, e, first, more, w, same, written, rfl⟩
    · cases short
    · cases place <;> cases short
    · obtain ⟨rfl, rfl, below⟩ :
          space = s ∧ entry = e ∧ place ++ segment :: rest = first :: more := by
        simpa using same
      rw [← below] at written
      obtain ⟨added, found, filled⟩ :=
        at?_writeAt_above hosts.entry (at?_opened held) opened written
      refine ⟨added, ?_, filled⟩
      rw [stored?_entry, slot?_putSlot, if_pos ⟨rfl, rfl⟩, Option.bind_some]
      exact found

/-- A write that leaves a hosted path clear, or goes there or below, leaves it hosted. -/
theorem Hosts.write (hosts : c.Hosts p) (h : c.write state v q = .ok d)
    (spared : Clear q p ∨ p <+: q) : d.Hosts p := by
  intro place segment rest hp inside
  have on : place <+: p := ⟨segment :: rest, hp.symm⟩
  obtain ⟨u, fields, held, opened⟩ := hosts place segment rest hp inside
  by_cases clear : Clear q place
  · rw [stored?_write_of_clear (hosts.above on) h clear]
    exact ⟨u, fields, held, opened⟩
  · have kinds : q.length ≠ 1 := fun one => clear (Or.inr (by omega))
    have not_above : ¬ q <+: place := by
      intro above
      have short := above.length_le
      have long : p.length = place.length + (rest.length + 1) := by
        rw [hp, List.length_append, List.length_cons]
      rcases spared with (apart | one) | beyond
      · exact apart.1 (above.trans on)
      · omega
      · have := beyond.length_le
        omega
    rcases prefix_or_incomparable q place with above | ⟨more, rfl⟩ | apart
    · exact absurd above not_above
    · cases more with
      | nil =>
        rw [List.append_nil] at not_above
        exact absurd List.prefix_rfl not_above
      | cons next more =>
        obtain ⟨added, found, _⟩ := stored?_write_above (hosts.above on) inside held opened h
        exact ⟨.mapping added, added, found, rfl⟩
    · exact absurd (Or.inl apart) clear

/-- Writing well-formed values keeps a context well-formed. -/
theorem WellFormed.write (hc : c.WellFormed) (hv : v.WellFormed)
    (h : c.write state v p = .ok d) : d.WellFormed := by
  rcases write_cases h with ⟨name, _, _, rfl⟩ | ⟨space, entry, _, rfl⟩
      | ⟨space, entry, segment, rest, w, _, inside, rfl⟩
  · exact hc.putAlias hv name
  · exact hc.putSlot space entry hv
  · exact hc.putSlot space entry ((hc.opened space entry).writeAt hv inside)

/-! ## §3 Lists of changes -/

variable {changes : List Change}

/-- Changes of which every write leaves a hosted path clear, or goes there or below, leave it
hosted. -/
theorem Hosts.applyChanges (hosts : c.Hosts p) (h : c.applyChanges changes = .ok d)
    (spared : ∀ q v, .write q v ∈ changes → Clear q p ∨ p <+: q) : d.Hosts p := by
  induction changes generalizing c with
  | nil =>
    cases h
    exact hosts
  | cons change rest ih =>
    obtain ⟨m, one, others⟩ := applyChanges_cons h
    refine ih ?_ others fun q v hw => spared q v (List.mem_cons_of_mem _ hw)
    cases change with
    | write q v => exact hosts.write one (spared q v List.mem_cons_self)
    | retag space entry state =>
      cases one
      intro q segment rest hp inside
      rw [stored?_retagSlot]
      exact hosts q segment rest hp inside

/-- Changes of which every write leaves a hosted path clear leave what is stored there. -/
theorem stored?_applyChanges_of_clear (hosts : c.Hosts p) (h : c.applyChanges changes = .ok d)
    (clear : ∀ q v, .write q v ∈ changes → Clear q p) : d.stored? p = c.stored? p := by
  induction changes generalizing c with
  | nil =>
    cases h
    rfl
  | cons change rest ih =>
    obtain ⟨m, one, others⟩ := applyChanges_cons h
    have later := fun q v hw => clear q v (List.mem_cons_of_mem change hw)
    cases change with
    | write q v =>
      have here := clear q v List.mem_cons_self
      rw [ih (hosts.write one (Or.inl here)) others later, stored?_write_of_clear hosts one here]
    | retag space entry state =>
      have alone : c.applyChanges [.retag space entry state] = .ok m := by
        cases one
        rfl
      have kept : m.Hosts p := hosts.applyChanges alone (by simp)
      rw [ih kept others later]
      cases one
      exact stored?_retagSlot c space entry state p

/-- Changes that write well-formed values keep a context well-formed. -/
theorem WellFormed.applyChanges (hc : c.WellFormed) (h : c.applyChanges changes = .ok d)
    (values : ∀ q v, .write q v ∈ changes → v.WellFormed) : d.WellFormed := by
  induction changes generalizing c with
  | nil =>
    cases h
    exact hc
  | cons change rest ih =>
    obtain ⟨m, one, others⟩ := applyChanges_cons h
    refine ih ?_ others fun q v hw => values q v (List.mem_cons_of_mem _ hw)
    cases change with
    | write q v => exact hc.write (values q v List.mem_cons_self) one
    | retag space entry state =>
      cases one
      exact hc.retagSlot space entry state

end Context

end Tabletop
