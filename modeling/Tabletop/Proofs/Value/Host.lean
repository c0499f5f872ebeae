/-
Tabletop.Proofs.Value.Host — places that a value already has room for.

A value hosts a place if every place on the way there holds a mapping or
null. Writes go into such places without making anything on the way, so a
write next to a hosted place leaves what it holds, and a write that is not
above it leaves it hosted. A write is refused a place, or bent into the
items of a list, exactly where something that is neither a mapping nor null
stands on the way; no write below such an obstacle or next to it moves it.

  §1 Hosted places
  §2 Writes into hosted places
  §3 Obstacles
-/
import Tabletop.Proofs.Value.Place

namespace Tabletop

open Tabletop.Path

namespace Value

variable {v w u new : Value} {fields : Fields} {segment path : String} {passed p q : Path}

/-! ## §1 Hosted places -/

/-- Every place on the way to the path holds a mapping or null. -/
def Hosts (v : Value) (p : Path) : Prop :=
  ∀ q segment rest, p = q ++ segment :: rest →
    ∃ u fields, v.at? q = some u ∧ u.fields? = some fields

theorem hosts_nil (v : Value) : v.Hosts [] := by
  intro q segment rest h
  exact absurd h.symm (List.append_ne_nil_of_right_ne_nil q (List.cons_ne_nil segment rest))

/-- A value that hosts a place hosts the places on the way there. -/
theorem Hosts.above (h : v.Hosts p) (on : q <+: p) : v.Hosts q := by
  obtain ⟨more, rfl⟩ := on
  intro r segment rest hq
  refine h r segment (rest ++ more) ?_
  rw [hq, List.append_assoc, List.cons_append]

/-- The way to a hosted place begins at a value with fields. -/
theorem Hosts.opened (h : v.Hosts (segment :: p)) : ∃ fields, v.fields? = some fields := by
  obtain ⟨u, fields, here, opened⟩ := h [] segment p rfl
  cases here
  exact ⟨fields, opened⟩

/-- The way to a hosted place goes on in the field, which is there unless the way ends. -/
theorem Hosts.below (h : v.Hosts (segment :: p)) (hf : v.fields? = some fields) :
    p = [] ∨ ∃ u, Entries.get? fields segment = some u ∧ u.Hosts p := by
  cases p with
  | nil => exact Or.inl rfl
  | cons next rest =>
    obtain ⟨u, _, there, _⟩ := h [segment] next rest rfl
    rw [at?_cons, child?_of_fields? hf, Option.bind_eq_some_iff] at there
    obtain ⟨u, found, _⟩ := there
    refine Or.inr ⟨u, found, fun q s r hq => ?_⟩
    obtain ⟨x, fields', below, opened⟩ := h (segment :: q) s r (by rw [hq, List.cons_append])
    rw [at?_cons, child?_of_fields? hf, found, Option.bind_some] at below
    exact ⟨x, fields', below, opened⟩

/-- A field as a write finds it hosts the rest of the way. -/
theorem Hosts.inner (h : v.Hosts (segment :: p)) (hf : v.fields? = some fields) :
    (inner fields segment).Hosts p := by
  rcases h.below hf with rfl | ⟨u, found, below⟩
  · exact hosts_nil _
  · rw [inner_of_get? found]
    exact below

/-- What a write finds at a hosted place it finds there in the field too. -/
theorem Hosts.at?_inner (h : v.Hosts (segment :: p)) (hf : v.fields? = some fields) :
    ((Value.inner fields segment).at? p).getD (.mapping [])
      = (v.at? (segment :: p)).getD (.mapping []) := by
  rw [at?_cons, child?_of_fields? hf]
  rcases h.below hf with rfl | ⟨u, found, _⟩
  · unfold Value.inner
    cases Entries.get? fields segment <;> rfl
  · rw [inner_of_get? found, found]
    rfl

/-- Hosted places admit writes. -/
theorem Hosts.admits (h : v.Hosts p) : v.Admits p := by
  induction p generalizing v with
  | nil => exact admits_nil v
  | cons segment rest ih =>
    obtain ⟨fields, hf⟩ := h.opened
    exact ⟨fields, hf, ih (h.inner hf)⟩

/-! ## §2 Writes into hosted places -/

/-- A write past a hosted place writes into what is found there. -/
theorem writeAt_through (hosts : v.Hosts p) {rest : Path}
    (h : Context.writeAt path new passed v (p ++ rest) = .ok w) :
    ∃ x, Context.writeAt path new (passed ++ p) ((v.at? p).getD (.mapping [])) rest = .ok x
      ∧ w.at? p = some x := by
  induction p generalizing v w passed with
  | nil =>
    rw [List.append_nil]
    exact ⟨w, h, rfl⟩
  | cons segment p ih =>
    obtain ⟨fields, hf⟩ := hosts.opened
    rcases writeAt_cases h with ⟨fields', below, there, written, rfl⟩
        | ⟨items, _, _, _, rfl, _⟩
    · rw [hf] at there
      cases there
      obtain ⟨x, inside, found⟩ := ih (hosts.inner hf) written
      rw [hosts.at?_inner hf, List.append_assoc, List.singleton_append] at inside
      refine ⟨x, inside, ?_⟩
      rw [at?_cons, child?_mapping, Entries.get?_insert_self]
      exact found
    · cases hf

/-- A write next to a hosted place leaves what it holds. -/
theorem at?_writeAt_of_incomparable (hosts : v.Hosts p)
    (h : Context.writeAt path new passed v q = .ok w) (apart : q.Incomparable p) :
    w.at? p = v.at? p := by
  induction p generalizing v w passed q with
  | nil => exact absurd apart not_incomparable_nil_right
  | cons segment p ih =>
    cases q with
    | nil => exact absurd apart not_incomparable_nil_left
    | cons other q =>
      obtain ⟨fields, hf⟩ := hosts.opened
      rcases writeAt_cases h with ⟨fields', below, there, written, rfl⟩
          | ⟨items, _, _, _, rfl, _⟩
      · rw [hf] at there
        cases there
        rw [at?_cons, at?_cons, child?_mapping, child?_of_fields? hf]
        by_cases same : other = segment
        · subst same
          have apart := incomparable_cons.mp apart rfl
          rw [Entries.get?_insert_self, Option.bind_some, ih (hosts.inner hf) written apart]
          cases p with
          | nil => exact absurd apart not_incomparable_nil_right
          | cons next rest => exact Value.at?_inner fields other next rest
        · rw [Entries.get?_insert_ne _ same]
      · cases hf

/-- A write below a place that holds a mapping or null leaves a mapping there that is not empty. -/
theorem at?_writeAt_above (hosts : v.Hosts p) (held : v.at? p = some u)
    (opened : u.fields? = some fields) {rest : Path}
    (h : Context.writeAt path new passed v (p ++ segment :: rest) = .ok w) :
    ∃ added, w.at? p = some (.mapping added) ∧ added ≠ [] := by
  obtain ⟨x, inside, found⟩ := writeAt_through hosts h
  rw [held, Option.getD_some] at inside
  rcases writeAt_cases inside with ⟨fields', below, _, _, rfl⟩ | ⟨_, _, _, _, rfl, _⟩
  · refine ⟨_, found, fun none_there => ?_⟩
    have there := Entries.get?_insert_self fields' segment below
    rw [none_there] at there
    cases there
  · cases opened

/-- A write that is not above a hosted place leaves it hosted. -/
theorem Hosts.writeAt (hosts : v.Hosts p) (h : Context.writeAt path new passed v q = .ok w)
    (spared : ∀ segment rest, p ≠ q ++ segment :: rest) : w.Hosts p := by
  intro x segment rest hp
  have on : x <+: p := ⟨segment :: rest, hp.symm⟩
  obtain ⟨u, fields, held, opened⟩ := hosts x segment rest hp
  rcases prefix_or_incomparable q x with ⟨more, rfl⟩ | ⟨more, rfl⟩ | apart
  · rw [List.append_assoc] at hp
    cases more with
    | nil => exact absurd hp (spared segment rest)
    | cons first more => exact absurd hp (spared first (more ++ segment :: rest))
  · cases more with
    | nil =>
      rw [List.append_nil] at spared
      exact absurd hp (spared segment rest)
    | cons first more =>
      obtain ⟨added, found, _⟩ := at?_writeAt_above (hosts.above on) held opened h
      exact ⟨.mapping added, added, found, rfl⟩
  · rw [at?_writeAt_of_incomparable (hosts.above on) h apart]
    exact ⟨u, fields, held, opened⟩

/-- Writing well-formed values keeps values well-formed, in lists too. -/
theorem WellFormed.writeAt (hv : v.WellFormed) (hn : new.WellFormed)
    (h : Context.writeAt path new passed v p = .ok w) : w.WellFormed := by
  induction p generalizing v w passed with
  | nil =>
    rw [Context.writeAt] at h
    cases h
    exact hn
  | cons segment rest ih =>
    rcases writeAt_cases h with ⟨fields, below, there, written, rfl⟩
        | ⟨items, i, item, below, rfl, _, found, written, rfl⟩
    · have mapping : (Value.mapping fields).WellFormed := by
        have all := hv.fields
        rw [there] at all
        exact all
      exact mapping.insert segment (ih (mapping.inner segment) written)
    · cases hv with
      | list each =>
        have written := ih (each item (List.mem_of_getElem? found)) written
        refine .list fun x hx => ?_
        rcases List.mem_or_eq_of_mem_set hx with old | rfl
        · exact each x old
        · exact written

/-! ## §3 Obstacles -/

/-- The way to the place leads to something that is neither a mapping nor null. -/
structure Blocks (v : Value) (p : Path) : Prop where
  hosts : v.Hosts p
  holds : ∃ u, v.at? p = some u ∧ u.fields? = none

/-- Where a write is not admitted there is an obstacle on the way. -/
theorem exists_blocks (refused : ¬ v.Admits p) :
    ∃ q segment rest, p = q ++ segment :: rest ∧ v.Blocks q := by
  induction p generalizing v with
  | nil => exact absurd (admits_nil v) refused
  | cons segment rest ih =>
    cases hf : v.fields? with
    | none => exact ⟨[], segment, rest, rfl, hosts_nil v, v, rfl, hf⟩
    | some fields =>
      rw [admits_cons hf] at refused
      obtain ⟨q, next, more, rfl, hosts, u, held, closed⟩ := ih refused
      cases found : Entries.get? fields segment with
      | none =>
        -- a missing field is found as an empty mapping, which has no obstacles
        rw [inner_of_none found] at held
        cases q with
        | nil =>
          cases held
          cases closed
        | cons => cases held
      | some x =>
        rw [inner_of_get? found] at held hosts
        refine ⟨segment :: q, next, more, rfl, ?_, u, ?_, closed⟩
        · intro r s t hr
          cases r with
          | nil => exact ⟨v, fields, rfl, hf⟩
          | cons first r =>
            obtain ⟨rfl, hq⟩ := List.cons.inj hr
            rw [at?_cons, child?_of_fields? hf, found]
            exact hosts r s t hq
        · rw [at?_cons, child?_of_fields? hf, found]
          exact held

/-- A write below an obstacle or next to it leaves an obstacle there. -/
theorem Blocks.writeAt (h : v.Blocks p) (written : Context.writeAt path new passed v q = .ok w)
    (spared : ¬ q <+: p) : w.Blocks p := by
  obtain ⟨hosts, u, held, closed⟩ := h
  refine ⟨hosts.writeAt written fun segment rest hp => spared ⟨_, hp.symm⟩, ?_⟩
  rcases prefix_or_incomparable q p with on | ⟨more, rfl⟩ | apart
  · exact absurd on spared
  · cases more with
    | nil =>
      rw [List.append_nil] at spared
      exact absurd List.prefix_rfl spared
    | cons segment rest =>
      obtain ⟨x, inside, found⟩ := writeAt_through hosts written
      rw [held, Option.getD_some] at inside
      refine ⟨x, found, ?_⟩
      rcases writeAt_cases inside with ⟨_, _, opened, _⟩ | ⟨_, _, _, _, _, _, _, _, rfl⟩
      · rw [closed] at opened
        cases opened
      · rfl
  · rw [at?_writeAt_of_incomparable hosts written apart]
    exact ⟨u, held, closed⟩

end Value

end Tabletop
