/-
Tabletop.Proofs.Value.Place — writing at a place inside a value.

A write goes down through mappings; null and what is missing count as empty
mappings. Where it meets only such values it succeeds, and what it gives is
the total function `withAt`. Two paths of which neither leads to the other
name places that do not touch: a write at one leaves the other as it was,
and leaves it as writable as it was.

  §1 Paths that do not touch
  §2 Values that admit a write
  §3 What a write leaves
  §4 The write of contexts
-/
import Tabletop.Context
import Tabletop.Proofs.Value.Same

namespace Tabletop

/-! ## §1 Paths that do not touch -/

/-- Neither path is equal to the other or leads to it. -/
def Path.Incomparable (p q : Path) : Prop := ¬ p <+: q ∧ ¬ q <+: p

namespace Path

theorem Incomparable.symm {p q : Path} (h : p.Incomparable q) : q.Incomparable p := ⟨h.2, h.1⟩

theorem incomparable_cons {a b : String} {p q : Path} :
    Incomparable (a :: p) (b :: q) ↔ (a = b → Incomparable p q) := by
  unfold Incomparable
  rw [List.cons_prefix_cons, List.cons_prefix_cons]
  constructor
  · intro h hab
    exact ⟨fun hp => h.1 ⟨hab, hp⟩, fun hq => h.2 ⟨hab.symm, hq⟩⟩
  · intro h
    exact ⟨fun hp => (h hp.1).1 hp.2, fun hq => (h hq.1.symm).2 hq.2⟩

theorem incomparable_append_left {p q r : Path} :
    Incomparable (p ++ q) (p ++ r) ↔ Incomparable q r := by
  induction p with
  | nil => rfl
  | cons a p ih =>
    rw [List.cons_append, List.cons_append, incomparable_cons, ih]
    exact ⟨fun h => h rfl, fun h _ => h⟩

theorem not_incomparable_nil_left {q : Path} : ¬ Incomparable [] q := fun h => h.1 List.nil_prefix

theorem not_incomparable_nil_right {p : Path} : ¬ Incomparable p [] := fun h => h.2 List.nil_prefix

/-- Of two paths one leads to the other, unless they do not touch. -/
theorem prefix_or_incomparable (p q : Path) : p <+: q ∨ q <+: p ∨ Incomparable p q := by
  by_cases hp : p <+: q
  · exact Or.inl hp
  · by_cases hq : q <+: p
    · exact Or.inr (Or.inl hq)
    · exact Or.inr (Or.inr ⟨hp, hq⟩)

/-- A path that touches a place on the way to `p`, but not `p`, goes on from that place. -/
theorem Incomparable.goes_on {p q place : Path} (apart : Incomparable p q) (on : place <+: p)
    (touches : ¬ Incomparable q place) : ∃ segment rest, q = place ++ segment :: rest := by
  rcases prefix_or_incomparable q place with h | ⟨rest, rfl⟩ | h
  · exact absurd (h.trans on) apart.2
  · cases rest with
    | nil =>
      rw [List.append_nil] at apart
      exact absurd on apart.2
    | cons segment rest => exact ⟨segment, rest, rfl⟩
  · exact absurd h touches

end Path

namespace Value

open Tabletop.Path

/-! ## §2 Values that admit a write -/

/-- The fields that a write finds in the value: those of a mapping, and none in null. -/
def fields? : Value → Option Fields
  | .null => some []
  | .mapping fields => some fields
  | _ => none

/-- The field as a write finds it. -/
def inner (fields : Fields) (segment : String) : Value :=
  (Entries.get? fields segment).getD (.mapping [])

/-- A write at the path meets mappings, nulls and missing fields only. -/
def Admits (v : Value) : Path → Prop
  | [] => True
  | segment :: rest => ∃ fields, v.fields? = some fields ∧ (inner fields segment).Admits rest

/-- The value with `new` at a place inside it. -/
def withAt (v : Value) : Path → Value → Value
  | [], new => new
  | segment :: rest, new =>
      let fields := v.fields?.getD []
      .mapping (Entries.insert fields segment ((inner fields segment).withAt rest new))

theorem admits_nil (v : Value) : v.Admits [] := trivial

theorem admits_cons {v : Value} {fields : Fields} (h : v.fields? = some fields)
    (segment : String) (rest : Path) :
    v.Admits (segment :: rest) ↔ (inner fields segment).Admits rest := by
  constructor
  · intro ⟨other, ho, admits⟩
    rw [h] at ho
    cases ho
    exact admits
  · intro admits
    exact ⟨fields, h, admits⟩

theorem withAt_cons {v : Value} {fields : Fields} (h : v.fields? = some fields)
    (segment : String) (rest : Path) (new : Value) :
    v.withAt (segment :: rest) new
      = .mapping (Entries.insert fields segment ((inner fields segment).withAt rest new)) := by
  rw [withAt, h]
  rfl

/-- One step below a value with fields is the field. -/
theorem child?_of_fields? {v : Value} {fields : Fields} (h : v.fields? = some fields)
    (segment : String) : v.child? segment = Entries.get? fields segment := by
  cases v with
  | null =>
    cases h
    rfl
  | mapping =>
    cases h
    rfl
  | _ => cases h

theorem inner_of_get? {fields : Fields} {segment : String} {v : Value}
    (h : Entries.get? fields segment = some v) : inner fields segment = v := by
  rw [inner, h]
  rfl

theorem inner_of_none {fields : Fields} {segment : String}
    (h : Entries.get? fields segment = none) : inner fields segment = .mapping [] := by
  rw [inner, h]
  rfl

theorem inner_insert (fields : Fields) (key : String) (v : Value) (other : String) :
    inner (Entries.insert fields key v) other = if key = other then v else inner fields other := by
  rw [inner, Entries.get?_insert]
  by_cases h : key = other
  · simp [h]
  · simp [h, inner]

/-! ## §3 What a write leaves -/

/-- A write is read back. -/
theorem at?_withAt_self (v : Value) (p : Path) (new : Value) :
    (v.withAt p new).at? p = some new := by
  induction p generalizing v with
  | nil => rfl
  | cons segment rest ih =>
    rw [withAt, at?_cons, child?_mapping, Entries.get?_insert_self]
    exact ih _

/-- A field as a write finds it reads like the field, except at its root. -/
theorem at?_inner (fields : Fields) (segment next : String) (rest : Path) :
    (inner fields segment).at? (next :: rest)
      = (Entries.get? fields segment).bind fun w => w.at? (next :: rest) := by
  unfold inner
  cases Entries.get? fields segment <;> rfl

/-- A write leaves what it does not touch. -/
theorem at?_withAt_incomparable {v : Value} {p q : Path} (admits : v.Admits p)
    (apart : Incomparable p q) (new : Value) : (v.withAt p new).at? q = v.at? q := by
  induction p generalizing v q with
  | nil => exact absurd apart not_incomparable_nil_left
  | cons a p ih =>
    cases q with
    | nil => exact absurd apart not_incomparable_nil_right
    | cons b q =>
      obtain ⟨fields, hf, admits⟩ := admits
      rw [withAt_cons hf, at?_cons, at?_cons, child?_mapping, child?_of_fields? hf]
      by_cases hab : a = b
      · subst hab
        have apart := incomparable_cons.mp apart rfl
        rw [Entries.get?_insert_self, Option.bind_some, ih admits apart]
        cases q with
        | nil => exact absurd apart not_incomparable_nil_right
        | cons c q => exact at?_inner fields a c q
      · rw [Entries.get?_insert_ne _ hab]

/-- A write leaves open what it does not touch. -/
theorem admits_withAt {v : Value} {p q : Path} (hp : v.Admits p) (hq : v.Admits q)
    (apart : Incomparable p q) (new : Value) : (v.withAt p new).Admits q := by
  induction p generalizing v q with
  | nil => exact absurd apart not_incomparable_nil_left
  | cons a p ih =>
    cases q with
    | nil => exact absurd apart not_incomparable_nil_right
    | cons b q =>
      obtain ⟨fields, hf, hp⟩ := hp
      rw [admits_cons hf] at hq
      rw [withAt_cons hf]
      refine ⟨_, rfl, ?_⟩
      rw [inner_insert]
      by_cases hab : a = b
      · subst hab
        rw [if_pos rfl]
        exact ih hp hq (incomparable_cons.mp apart rfl)
      · rw [if_neg hab]
        exact hq

/-- On the way to what is written there are mappings. -/
theorem at?_withAt_prefix (v : Value) (p : Path) (segment : String) (rest : Path) (new : Value) :
    ∃ fields, (v.withAt (p ++ segment :: rest) new).at? p = some (.mapping fields) := by
  induction p generalizing v with
  | nil => exact ⟨_, rfl⟩
  | cons a p ih =>
    rw [List.cons_append, withAt, at?_cons, child?_mapping, Entries.get?_insert_self]
    exact ih _

theorem WellFormed.inner {fields : Fields} (h : (Value.mapping fields).WellFormed)
    (segment : String) : (inner fields segment).WellFormed := by
  cases hs : Entries.get? fields segment with
  | none =>
    rw [inner_of_none hs]
    exact wellFormed_mapping_nil
  | some v =>
    rw [inner_of_get? hs]
    exact h.field hs

theorem WellFormed.fields {v : Value} (h : v.WellFormed) :
    (Value.mapping (v.fields?.getD [])).WellFormed := by
  cases v with
  | mapping => exact h
  | _ => exact wellFormed_mapping_nil

/-- Writing well-formed values keeps values well-formed. -/
theorem WellFormed.withAt {v new : Value} (hv : v.WellFormed) (hn : new.WellFormed) (p : Path) :
    (v.withAt p new).WellFormed := by
  induction p generalizing v with
  | nil => exact hn
  | cons segment rest ih =>
    unfold Value.withAt
    exact hv.fields.insert segment (ih (hv.fields.inner segment))

/-! ## §4 The write of contexts -/

/-- Where a value admits a write, the write succeeds with `withAt`. -/
theorem writeAt_eq_withAt {v : Value} {p : Path} (admits : v.Admits p) (path : String)
    (new : Value) (passed : Path) :
    Context.writeAt path new passed v p = .ok (v.withAt p new) := by
  induction p generalizing v passed with
  | nil => rfl
  | cons segment rest ih =>
    obtain ⟨fields, hf, admits⟩ := admits
    have opened : (if v.isNull then .mapping [] else v) = Value.mapping fields := by
      cases v <;> cases hf <;> rfl
    rw [withAt_cons hf]
    unfold Context.writeAt
    rw [opened]
    have below := ih admits (passed ++ [segment])
    unfold inner at below
    simp only [below]
    rfl

/-- A write below a value goes into a field of it, which may be missing, or into an item. -/
theorem writeAt_cases {path segment : String} {passed rest : Path} {new v w : Value}
    (h : Context.writeAt path new passed v (segment :: rest) = .ok w) :
    (∃ fields below, v.fields? = some fields
      ∧ Context.writeAt path new (passed ++ [segment]) (inner fields segment) rest = .ok below
      ∧ w = .mapping (Entries.insert fields segment below)) ∨
    (∃ items i item below, v = .list items ∧ Path.index? segment = some i ∧ items[i]? = some item
      ∧ Context.writeAt path new (passed ++ [segment]) item rest = .ok below
      ∧ w = .list (items.set i below)) := by
  unfold Context.writeAt at h
  split at h
  · rename_i fields opened
    have there : v.fields? = some fields := by
      cases v <;> cases opened <;> rfl
    cases hb : Context.writeAt path new (passed ++ [segment]) (inner fields segment) rest with
    | error e =>
      rw [inner] at hb
      rw [hb] at h
      cases h
    | ok below =>
      rw [inner] at hb
      rw [hb] at h
      cases h
      exact Or.inl ⟨fields, below, there, hb, rfl⟩
  · rename_i items opened
    have a_list : v = .list items := by
      cases v <;> cases opened
      rfl
    split at h
    · cases h
    · rename_i i position
      split at h
      · cases h
      · rename_i item found
        cases hb : Context.writeAt path new (passed ++ [segment]) item rest with
        | error e =>
          rw [hb] at h
          cases h
        | ok below =>
          rw [hb] at h
          cases h
          exact Or.inr ⟨items, i, item, below, a_list, position, found, hb, rfl⟩
  · cases h

/-- A write inside a value is read back. -/
theorem at?_writeAt_self {path : String} {new v w : Value} {passed p : Path}
    (h : Context.writeAt path new passed v p = .ok w) : w.at? p = some new := by
  induction p generalizing passed v w with
  | nil =>
    rw [Context.writeAt] at h
    cases h
    rfl
  | cons segment rest ih =>
    rw [at?_cons]
    rcases writeAt_cases h with ⟨fields, below, _, written, rfl⟩
        | ⟨items, i, item, below, rfl, position, found, written, rfl⟩
    · rw [child?_mapping, Entries.get?_insert_self]
      exact ih written
    · have inside : i < items.length := (List.getElem?_eq_some_iff.mp found).1
      rw [child?, position, Option.bind_some, List.getElem?_set_self inside]
      exact ih written

end Value

end Tabletop
