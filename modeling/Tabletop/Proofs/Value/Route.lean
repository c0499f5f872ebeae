/-
Tabletop.Proofs.Value.Route — mappings on the way to a place.

A place inside a mapping is led to if every place on the way there holds a
mapping. Ways that meet are joined, and a way is split at each of its places.
Formulas of a sound build write only to such places. A write there is read
back, and changes nothing at all if it writes what the place holds; no write
takes away the way to a place beside its own.

  §1 Ways of mappings
  §2 Writes on such ways
  §3 Writing fields
-/
import Tabletop.Model.Instantiate
import Tabletop.Proofs.Value.Place

namespace Tabletop

open Tabletop.Path

/-- Giving a key the value it has changes nothing. -/
theorem Entries.insert_of_get? {α : Type} {entries : Entries α} {key : String} {v : α}
    (h : get? entries key = some v) : insert entries key v = entries := by
  induction entries with
  | nil => cases h
  | cons e rest ih =>
    obtain ⟨k, w⟩ := e
    rw [get?_cons] at h
    unfold insert
    by_cases hk : k = key
    · rw [if_pos hk] at h ⊢
      rw [Option.some.inj h]
    · rw [if_neg hk] at h ⊢
      rw [ih h]

namespace Value

variable {v w new : Value} {fields other : Fields} {name : String} {p q : Path}

/-! ## §1 Ways of mappings -/

/-- Every place on the way to the path holds a mapping. -/
def Leads (v : Value) (p : Path) : Prop :=
  ∀ q, q <+: p → q ≠ p → ∃ fields, v.at? q = some (.mapping fields)

theorem leads_single : (mapping fields).Leads [name] := by
  intro q on short
  rcases List.prefix_cons_iff.mp on with rfl | ⟨rest, rfl, below⟩
  · exact ⟨fields, rfl⟩
  · rw [List.prefix_nil.mp below] at short
    exact absurd rfl short

/-- A way goes on below a field. -/
theorem Leads.cons (there : Entries.get? fields name = some w) (h : w.Leads p) :
    (mapping fields).Leads (name :: p) := by
  intro q on short
  rcases List.prefix_cons_iff.mp on with rfl | ⟨rest, rfl, below⟩
  · exact ⟨fields, rfl⟩
  · rw [at?_cons, child?_mapping, there]
    exact h rest below fun same => short (same ▸ rfl)

/-- The way below a field of a mapping. -/
theorem Leads.below (h : (mapping fields).Leads (name :: p)) (more : p ≠ []) :
    ∃ inner, Entries.get? fields name = some (.mapping inner) ∧ (mapping inner).Leads p := by
  obtain ⟨inner, found⟩ := h [name] (List.cons_prefix_cons.mpr ⟨rfl, List.nil_prefix⟩)
    fun same => more (List.cons.inj same).2.symm
  have there : Entries.get? fields name = some (.mapping inner) := by
    rw [at?_cons, child?_mapping] at found
    cases hw : Entries.get? fields name with
    | none =>
      rw [hw] at found
      cases found
    | some w =>
      rw [hw] at found
      exact found
  refine ⟨inner, there, fun q on short => ?_⟩
  have := h (name :: q) (List.cons_prefix_cons.mpr ⟨rfl, on⟩)
    fun same => short (List.cons.inj same).2
  rwa [at?_cons, child?_mapping, there] at this

/-- Only the field that a path starts with counts for the way. -/
theorem Leads.of_get? (same : Entries.get? fields name = Entries.get? other name)
    (h : (mapping fields).Leads (name :: p)) : (mapping other).Leads (name :: p) := by
  by_cases more : p = []
  · rw [more]
    exact leads_single
  · obtain ⟨inner, there, below⟩ := h.below more
    exact .cons (same ▸ there) below

/-- A way of mappings is open to a write. -/
theorem Leads.admits (h : (mapping fields).Leads p) : (mapping fields).Admits p := by
  induction p generalizing fields with
  | nil => exact admits_nil _
  | cons name rest ih =>
    rw [admits_cons rfl]
    by_cases more : rest = []
    · rw [more]
      exact admits_nil _
    · obtain ⟨inner, there, below⟩ := h.below more
      rw [inner_of_get? there]
      exact ih below

/-- A way that ends in a value goes on inside it. -/
theorem Leads.append (h : v.Leads p) (found : v.at? p = some w) (below : w.Leads q) :
    v.Leads (p ++ q) := by
  intro place on short
  rcases prefix_or_incomparable place p with before | ⟨rest, rfl⟩ | aside
  · by_cases whole : place = p
    · subst whole
      have more : [] ≠ q := fun nothing => short (by rw [← nothing, List.append_nil])
      rw [found]
      exact below [] List.nil_prefix more
    · exact h place before whole
  · rw [at?_append, found]
    refine below rest ((List.prefix_append_right_inj p).mp on) fun same => short ?_
    rw [same]
  · exact absurd (List.prefix_or_prefix_of_prefix on (List.prefix_append p q))
      (not_or.mpr ⟨aside.1, aside.2⟩)

/-- On a way that goes on there is a mapping, with the rest of the way inside. -/
theorem Leads.split (h : v.Leads (p ++ q)) (more : q ≠ []) :
    v.Leads p ∧ ∃ inner, v.at? p = some (.mapping inner) ∧ (mapping inner).Leads q := by
  have earlier : ∀ place, place <+: p → place ≠ p ++ q := by
    rintro place on rfl
    have shorter := on.length_le
    rw [List.length_append] at shorter
    have longer := List.length_pos_of_ne_nil more
    omega
  refine ⟨fun place on _ => h place (on.trans (List.prefix_append p q)) (earlier place on), ?_⟩
  obtain ⟨inner, found⟩ := h p (List.prefix_append p q) (earlier p List.prefix_rfl)
  refine ⟨inner, found, fun place on short => ?_⟩
  have below := h (p ++ place) ((List.prefix_append_right_inj p).mpr on)
    fun same => short (List.append_cancel_left same)
  rwa [at?_append, found] at below

/-- A write makes mappings on the way to its place. -/
theorem leads_withAt_self (v : Value) (p : Path) (new : Value) : (v.withAt p new).Leads p := by
  rintro q ⟨rest, rfl⟩ short
  cases rest with
  | nil => exact absurd (List.append_nil q).symm short
  | cons segment rest => exact at?_withAt_prefix v q segment rest new

/-- A write beside a way of mappings leaves the way and what it ends in, even if it replaces values
on its own way. -/
theorem Leads.withAt_beside (h : v.Leads q) (apart : Incomparable p q) (new : Value) :
    (v.withAt p new).Leads q ∧ (v.withAt p new).at? q = v.at? q := by
  induction p generalizing v q with
  | nil => exact absurd apart not_incomparable_nil_left
  | cons a p ih =>
    cases q with
    | nil => exact absurd apart not_incomparable_nil_right
    | cons b q =>
      obtain ⟨fields, a_mapping⟩ := h [] List.nil_prefix (List.cons_ne_nil _ _).symm
      cases a_mapping
      rw [withAt_cons rfl]
      by_cases same : a = b
      · subst same
        have apart := incomparable_cons.mp apart rfl
        have more : q ≠ [] := by
          rintro rfl
          exact not_incomparable_nil_right apart
        obtain ⟨inner, there, below⟩ := h.below more
        rw [inner_of_get? there]
        obtain ⟨leads, found⟩ := ih below apart
        have written := Entries.get?_insert_self fields a ((Value.mapping inner).withAt p new)
        refine ⟨.cons written leads, ?_⟩
        rw [at?_cons, at?_cons, child?_mapping, child?_mapping, written, there]
        exact found
      · have kept : Entries.get? (Entries.insert fields a ((inner fields a).withAt p new)) b
            = Entries.get? fields b := Entries.get?_insert_ne _ same
        refine ⟨h.of_get? kept.symm, ?_⟩
        rw [at?_cons, at?_cons, child?_mapping, child?_mapping, kept]

/-- Writing what a place holds changes nothing. -/
theorem withAt_of_at? (h : v.Leads p) (held : v.at? p = some w) : v.withAt p w = v := by
  induction p generalizing v with
  | nil => exact (Option.some.inj held).symm
  | cons name rest ih =>
    obtain ⟨fields, a_mapping⟩ := h [] List.nil_prefix (List.cons_ne_nil _ _).symm
    cases a_mapping
    rw [at?_cons, child?_mapping] at held
    obtain ⟨u, there, held⟩ := Option.bind_eq_some_iff.mp held
    have below : u.Leads rest := by
      by_cases more : rest = []
      · rw [more]
        exact fun q on short => absurd (List.prefix_nil.mp on) short
      · obtain ⟨inner, same, below⟩ := h.below more
        rw [there] at same
        cases same
        exact below
    rw [withAt_cons rfl, inner_of_get? there, ih below held, Entries.insert_of_get? there]

end Value

/-! ## §3 Writing fields -/

/-- Named values answer for paths as the mapping of them does. -/
theorem Fields.scope_eq_at? {fields : Fields} {p : Path} (h : p ≠ []) :
    Fields.scope fields p = (Value.mapping fields).at? p := by
  cases p with
  | nil => exact absurd rfl h
  | cons name rest => rfl

/-- A value written among fields is written into their mapping. -/
theorem mapping_insertAt (fields : Fields) {p : Path} (h : p ≠ []) (v : Value) :
    Value.mapping (insertAt fields p v) = (Value.mapping fields).withAt p v := by
  induction p generalizing fields with
  | nil => exact absurd rfl h
  | cons name rest ih =>
    rw [Value.withAt_cons rfl]
    cases rest with
    | nil => rfl
    | cons next more =>
      have opened : ∀ inner, (Value.inner fields name).fields?.getD [] = inner →
          (Value.mapping inner).withAt (next :: more) v
            = (Value.inner fields name).withAt (next :: more) v := by
        rintro _ rfl
        rw [Value.withAt, Value.withAt]
        rfl
      rw [insertAt.eq_3 _ _ _ _ (List.cons_ne_nil _ _), ih _ (List.cons_ne_nil _ _), opened]
      unfold Value.inner
      cases Entries.get? fields name with
      | none => rfl
      | some w => cases w <;> rfl

end Tabletop
