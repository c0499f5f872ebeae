/-
Tabletop.Proofs.Context.Difference — what the changes between two contexts say.

Each write between an old and a new value carries what the new value holds
there, and the old value admits it (`mem_valueChanges`). The writes do not
touch each other (`valueChanges_apart`). Together they lead to every place
at which the two values are not alike, except where a key was taken out of
a mapping (`Loses`): there the writes say nothing at all. The same is then
said of whole contexts.

  §1 Changes field by field
  §2 What the writes between values say
  §3 What the writes between values leave out
  §4 The changes between contexts
-/
import Tabletop.Proofs.Context.Agreement

namespace Tabletop

namespace Context

open Tabletop.Path Tabletop.Value

/-! ## §1 Changes field by field -/

/-- The changes of one field. -/
def fieldChange (path : Path) (old : Fields) (e : String × Value) : List Change :=
  match Entries.get? old e.1 with
  | none => [.write (path ++ [e.1]) e.2]
  | some w => if w.same e.2 then [] else valueChanges (path ++ [e.1]) w e.2

theorem fieldChanges_eq (path : Path) (old new : Fields) :
    fieldChanges path old new = new.flatMap (fieldChange path old) := by
  induction new with
  | nil => simp [fieldChanges]
  | cons e rest ih =>
    obtain ⟨k, v⟩ := e
    rw [fieldChanges, ih, List.flatMap_cons]
    rfl

/-- A field is written if it is new, left if it is the same, and else compared. -/
theorem fieldChange_cases (path : Path) (fields : Fields) (e : String × Value) :
    (Entries.get? fields e.1 = none ∧ fieldChange path fields e = [.write (path ++ [e.1]) e.2]) ∨
    ∃ w, Entries.get? fields e.1 = some w ∧
      (w.same e.2 = true ∧ fieldChange path fields e = [] ∨
        w.same e.2 = false ∧ fieldChange path fields e = valueChanges (path ++ [e.1]) w e.2) := by
  unfold fieldChange
  cases hw : Entries.get? fields e.1 with
  | none => exact Or.inl ⟨rfl, rfl⟩
  | some w =>
    refine Or.inr ⟨w, rfl, ?_⟩
    cases hs : w.same e.2 with
    | true => exact Or.inl ⟨rfl, by simp [hs]⟩
    | false => exact Or.inr ⟨rfl, by simp [hs]⟩

/-- The new value is written field by field into the fields of the old one; null counts as an
empty mapping then. -/
def ByFields (old new : Value) (fields added : Fields) : Prop :=
  new = .mapping added ∧ (old = .mapping fields ∨ old = .null ∧ fields = [] ∧ added ≠ [])

theorem ByFields.fields? {old new : Value} {fields added : Fields}
    (h : ByFields old new fields added) : old.fields? = some fields := by
  rcases h.2 with rfl | ⟨rfl, rfl, _⟩ <;> rfl

theorem writesOf_eq (path : Path) (new : Fields) :
    writesOf path new = new.flatMap (fieldChange path []) := by
  induction new with
  | nil => rfl
  | cons e rest ih =>
    rw [List.flatMap_cons, ← ih]
    rfl

theorem valueChanges_byFields {old new : Value} {fields added : Fields}
    (h : ByFields old new fields added) (path : Path) :
    valueChanges path old new = added.flatMap (fieldChange path fields) := by
  rcases h with ⟨rfl, rfl | ⟨rfl, rfl, hne⟩⟩
  · rw [valueChanges, fieldChanges_eq]
  · rw [← writesOf_eq]
    cases added with
    | nil => exact absurd rfl hne
    | cons e rest => simp [valueChanges]

/-- A value that is not taken apart is written whole, if it is another one. -/
theorem valueChanges_whole {old new : Value} (h : ∀ fields added, ¬ ByFields old new fields added)
    (path : Path) :
    valueChanges path old new = if old.same new then [] else [.write path new] := by
  cases new with
  | mapping added =>
    cases old with
    | mapping fields => exact absurd ⟨rfl, Or.inl rfl⟩ (h fields added)
    | null =>
      cases added with
      | nil => rfl
      | cons e rest => exact absurd ⟨rfl, Or.inr ⟨rfl, rfl, by simp⟩⟩ (h [] (e :: rest))
    | _ => simp [valueChanges, same]
  | _ => simp [valueChanges]

/-- Induction along the comparison of two values: a new value is either whole, or made of fields
that are compared with those of the old value. -/
theorem compare_induction {motive : Value → Value → Prop}
    (whole : ∀ old new, new.WellFormed → (∀ fields added, ¬ ByFields old new fields added) →
      motive old new)
    (parts : ∀ old new fields added, new.WellFormed → ByFields old new fields added →
      (∀ e ∈ added, ∀ w, Entries.get? fields e.1 = some w → motive w e.2) → motive old new)
    (old : Value) {new : Value} (wf : new.WellFormed) : motive old new := by
  have all := wf
  induction wf generalizing old with
  | mapping keys each ih =>
    rename_i new
    by_cases h : ∃ fields added, ByFields old (.mapping new) fields added
    · obtain ⟨fields, added, shape⟩ := h
      refine parts old _ fields added all shape ?_
      intro e he w _
      have hnew := shape.1
      cases hnew
      exact ih e he w (each e he)
    · exact whole old _ all fun fields added shape => h ⟨fields, added, shape⟩
  | _ => exact whole old _ all fun _ _ shape => by cases shape.1

theorem append_cons_eq (path : Path) (k : String) (place : Path) :
    path ++ [k] ++ place = path ++ k :: place := by simp

/-- A value that is not taken apart is written at the path. -/
theorem write_of_mem_whole {old new : Value} (h : ∀ fields added, ¬ ByFields old new fields added)
    {path : Path} {change : Change} (hc : change ∈ valueChanges path old new) :
    change = .write path new := by
  rw [valueChanges_whole h] at hc
  split at hc
  · exact absurd hc List.not_mem_nil
  · exact List.mem_singleton.mp hc

mutual

/-- Every change between values is a write at the path or below it. -/
theorem write_of_mem_valueChanges (path : Path) (old : Value) : (new : Value) →
    ∀ change ∈ valueChanges path old new, ∃ place v, change = .write (path ++ place) v
  | .mapping new => by
    intro change h
    have here : change ∈ [.write path (.mapping new)] →
        ∃ place v, change = .write (path ++ place) v :=
      fun hv => ⟨[], _, by rw [List.mem_singleton.mp hv, List.append_nil]⟩
    cases old with
    | mapping fields =>
      rw [valueChanges] at h
      exact write_of_mem_fieldChanges path fields new change h
    | null =>
      rw [valueChanges] at h
      split at h
      · exact here h
      · obtain ⟨e, _, rfl⟩ := List.mem_map.mp h
        exact ⟨[e.1], e.2, rfl⟩
    | _ => exact here h
  | .null | .bool _ | .int _ | .float _ | .text _ | .list _ => by
    intro change h
    rw [write_of_mem_whole (fun _ _ shape => by cases shape.1) h]
    exact ⟨[], _, by rw [List.append_nil]⟩

theorem write_of_mem_fieldChanges (path : Path) (old : Fields) : (new : List (String × Value)) →
    ∀ change ∈ fieldChanges path old new, ∃ place v, change = .write (path ++ place) v
  | [] => fun _ h => absurd h List.not_mem_nil
  | (k, v) :: rest => by
    intro change h
    rw [fieldChanges] at h
    rcases List.mem_append.mp h with h | h
    · cases hw : Entries.get? old k with
      | none =>
        simp only [hw] at h
        exact ⟨[k], v, List.mem_singleton.mp h⟩
      | some w =>
        simp only [hw] at h
        split at h
        · exact absurd h List.not_mem_nil
        · obtain ⟨place, x, rfl⟩ := write_of_mem_valueChanges (path ++ [k]) w v change h
          exact ⟨k :: place, x, by rw [append_cons_eq]⟩
    · exact write_of_mem_fieldChanges path old rest change h

end

/-- A change of a field is a write at or below the field. -/
theorem write_of_mem_fieldChange {fields : Fields} {e : String × Value} {path : Path}
    {change : Change} (h : change ∈ fieldChange path fields e) :
    ∃ place v, change = .write (path ++ e.1 :: place) v := by
  rcases fieldChange_cases path fields e with ⟨_, hc⟩ | ⟨w, _, ⟨_, hc⟩ | ⟨_, hc⟩⟩
  · rw [hc, List.mem_singleton] at h
    exact ⟨[], e.2, h⟩
  · rw [hc] at h
    exact absurd h List.not_mem_nil
  · rw [hc] at h
    obtain ⟨place, v, rfl⟩ := write_of_mem_valueChanges _ w e.2 change h
    exact ⟨place, v, by rw [append_cons_eq]⟩

/-- Every change between values that are compared field by field is a write below the path. -/
theorem write_of_mem_byFields {old new : Value} {fields added : Fields}
    (shape : ByFields old new fields added) {path : Path} {change : Change}
    (h : change ∈ valueChanges path old new) :
    ∃ k place v, change = .write (path ++ k :: place) v := by
  rw [valueChanges_byFields shape] at h
  obtain ⟨e, _, h⟩ := List.mem_flatMap.mp h
  exact ⟨e.1, write_of_mem_fieldChange h⟩

/-! ## §2 What the writes between values say -/

/-- The new value holds `v` at the place, inside mappings, and the old value admits a write
there. -/
structure Carries (old new : Value) (place : Path) (v : Value) : Prop where
  holds : new.at? place = some v
  admits : old.Admits place
  opens : ∀ a segment b, place = a ++ segment :: b →
    ∃ fields, new.at? a = some (.mapping fields)

theorem carries_root (old new : Value) : Carries old new [] new where
  holds := rfl
  admits := admits_nil old
  opens := by
    intro a segment b h
    cases a <;> cases h

/-- What a field carries its mapping carries one step deeper. -/
theorem Carries.below {old new : Value} {fields added : Fields} {k : String} {v x : Value}
    {place : Path} (shape : ByFields old new fields added) (hk : Entries.get? added k = some v)
    (h : Carries (inner fields k) v place x) : Carries old new (k :: place) x := by
  obtain ⟨rfl, _⟩ := id shape
  refine ⟨?_, ⟨fields, shape.fields?, h.admits⟩, ?_⟩
  · rw [at?_cons, child?_mapping, hk]
    exact h.holds
  · intro a segment b hab
    cases a with
    | nil => exact ⟨added, rfl⟩
    | cons a as =>
      cases hab
      rw [at?_cons, child?_mapping, hk]
      exact h.opens as segment b rfl

/-- Every change between values is a write of what the new value holds at a place below the path. -/
theorem mem_valueChanges {old new : Value} (wf : new.WellFormed) {path : Path} {change : Change}
    (h : change ∈ valueChanges path old new) :
    ∃ place v, change = .write (path ++ place) v ∧ Carries old new place v := by
  refine compare_induction (motive := fun old new => ∀ path, change ∈ valueChanges path old new →
    ∃ place v, change = .write (path ++ place) v ∧ Carries old new place v) ?_ ?_ old wf path h
  · intro old new _ whole path h
    rw [valueChanges_whole whole] at h
    cases hs : old.same new with
    | true => simp [hs] at h
    | false =>
      simp only [hs] at h
      rw [List.mem_singleton.mp h]
      exact ⟨[], new, by rw [List.append_nil], carries_root old new⟩
  · intro old new fields added wf shape ih path h
    rw [valueChanges_byFields shape] at h
    obtain ⟨e, he, h⟩ := List.mem_flatMap.mp h
    have hk : Entries.get? added e.1 = some e.2 := by
      have hnew := shape.1
      subst hnew
      exact wf.nodupKeys.get?_of_mem he
    rcases fieldChange_cases path fields e with ⟨hw, hc⟩ | ⟨w, hw, ⟨_, hc⟩ | ⟨_, hc⟩⟩
    · rw [hc, List.mem_singleton] at h
      exact ⟨[e.1], e.2, h, .below shape hk (carries_root _ _)⟩
    · rw [hc] at h
      exact absurd h List.not_mem_nil
    · rw [hc] at h
      obtain ⟨place, x, rfl, carries⟩ := ih e he w hw _ h
      rw [← inner_of_get? hw] at carries
      exact ⟨e.1 :: place, x, by rw [append_cons_eq], .below shape hk carries⟩

/-- The writes between two values do not touch each other. -/
theorem valueChanges_apart (old : Value) {new : Value} (wf : new.WellFormed) (path : Path) :
    (valueChanges path old new).Pairwise Change.Apart := by
  refine compare_induction (motive := fun old new => ∀ path,
    (valueChanges path old new).Pairwise Change.Apart) ?_ ?_ old wf path
  · intro old new _ whole path
    rw [valueChanges_whole whole]
    cases old.same new <;> simp
  · intro old new fields added wf shape ih path
    rw [valueChanges_byFields shape, List.pairwise_flatMap]
    obtain ⟨rfl, _⟩ := shape
    cases wf with
    | mapping keys _ =>
      constructor
      · intro e he
        rcases fieldChange_cases path fields e with ⟨_, hc⟩ | ⟨w, hw, ⟨_, hc⟩ | ⟨_, hc⟩⟩
        · rw [hc]
          exact List.pairwise_singleton _ _
        · rw [hc]
          exact .nil
        · rw [hc]
          exact ih e he w hw _
      · have distinct : added.Pairwise fun a b => a.1 ≠ b.1 := List.pairwise_map.mp keys
        refine distinct.imp_of_mem ?_
        intro a b ha hb hab x hx y hy
        obtain ⟨p, v, rfl⟩ := write_of_mem_fieldChange hx
        obtain ⟨q, w, rfl⟩ := write_of_mem_fieldChange hy
        refine incomparable_append_left.mpr (incomparable_cons.mpr ?_)
        intro h
        exact absurd h hab

end Context

/-! ## §3 What the writes between values leave out -/

/-- A key of a mapping of the old value is missing in the mapping that stands in its place. -/
inductive Value.Loses : Value → Value → Prop
  | here {old new : Fields} {key : String} (had : key ∈ Entries.keys old)
      (gone : key ∉ Entries.keys new) : Loses (.mapping old) (.mapping new)
  | deeper {old new : Fields} {key : String} {v w : Value} (had : Entries.get? old key = some v)
      (has : Entries.get? new key = some w) (inside : Loses v w) :
      Loses (.mapping old) (.mapping new)

namespace Context

open Tabletop.Path Tabletop.Value

/-- A write among the changes has been at the place, above it or below it. -/
def Touches (changes : List Change) (p : Path) : Prop :=
  ∃ q v, .write q v ∈ changes ∧ ¬ q.Incomparable p

theorem Touches.under {changes : List Change} {q : Path} {v : Value}
    (hw : .write q v ∈ changes) (rest : Path) : Touches changes (q ++ rest) :=
  ⟨q, v, hw, fun h => h.1 ⟨rest, rfl⟩⟩

theorem Touches.mono {few many : List Change} {p : Path} (sub : ∀ c ∈ few, c ∈ many)
    (h : Touches few p) : Touches many p := by
  obtain ⟨q, v, hw, touches⟩ := h
  exact ⟨q, v, sub _ hw, touches⟩

/-- Nothing is lost in a field if nothing is lost in the values compared field by field. -/
theorem not_loses_field {old new : Value} {fields added : Fields} {k : String} {v w : Value}
    (shape : ByFields old new fields added) (kept : ¬ old.Loses new)
    (hw : Entries.get? fields k = some w) (hv : Entries.get? added k = some v) : ¬ w.Loses v := by
  intro lost
  obtain ⟨rfl, rfl | ⟨rfl, rfl, _⟩⟩ := shape
  · exact kept (.deeper hw hv lost)
  · cases hw

/-- A field that the new value has not, the old value has not either if nothing is lost. -/
theorem get?_eq_none_of_kept {old new : Value} {fields added : Fields} {k : String}
    (shape : ByFields old new fields added) (kept : ¬ old.Loses new)
    (hv : Entries.get? added k = none) : Entries.get? fields k = none := by
  obtain ⟨rfl, rfl | ⟨rfl, rfl, _⟩⟩ := shape
  · rw [Entries.get?_eq_none_iff]
    exact fun had => kept (.here had (Entries.get?_eq_none_iff.mp hv))
  · rfl

/-- Values that are compared field by field are alike, or a field is written that was not there. -/
theorem touched_or_alike_here {old new : Value} {fields added : Fields}
    (shape : ByFields old new fields added) (path : Path) :
    Touches (valueChanges path old new) path ∨ Alike old new := by
  obtain ⟨rfl, rfl | ⟨rfl, rfl, hne⟩⟩ := id shape
  · exact Or.inr (.mapping _ _)
  · obtain ⟨e, rest, rfl⟩ := List.exists_cons_of_ne_nil hne
    refine Or.inl ⟨path ++ [e.1], e.2, ?_, fun h => h.2 ⟨[e.1], rfl⟩⟩
    rw [valueChanges_byFields shape, List.flatMap_cons]
    exact List.mem_append_left _ (List.mem_singleton.mpr rfl)

/-- Where no write has been, the two values are alike, unless keys were taken out. -/
theorem touched_or_alike (old : Value) {new : Value} (ho : old.WellFormed) (hn : new.WellFormed)
    (kept : ¬ old.Loses new) (path p : Path) :
    Touches (valueChanges path old new) (path ++ p) ∨ AlikeAs (old.at? p) (new.at? p) := by
  refine compare_induction (motive := fun old new => old.WellFormed → ¬ old.Loses new →
    ∀ path p, Touches (valueChanges path old new) (path ++ p) ∨ AlikeAs (old.at? p) (new.at? p))
    ?_ ?_ old hn ho kept path p
  · intro old new _ whole ho _ path p
    rw [valueChanges_whole whole]
    cases hs : old.same new with
    | true => exact Or.inr (same_at? ho hs p).alike
    | false => exact Or.inl (.under (List.mem_singleton.mpr rfl) p)
  · intro old new fields added hn shape ih ho kept path p
    cases p with
    | nil =>
      rw [List.append_nil]
      exact (touched_or_alike_here shape path).imp_right .some
    | cons k q =>
      have hold := child?_of_fields? shape.fields? k
      have hnew : new.child? k = Entries.get? added k := by rw [shape.1, child?_mapping]
      rw [at?_cons, at?_cons, hold, hnew]
      cases hv : Entries.get? added k with
      | none =>
        rw [get?_eq_none_of_kept shape kept hv]
        exact Or.inr .none
      | some v =>
        have he := Entries.mem_of_get? hv
        have part : ∀ c ∈ fieldChange path fields (k, v), c ∈ valueChanges path old new := by
          intro c hc
          rw [valueChanges_byFields shape]
          exact List.mem_flatMap.mpr ⟨_, he, hc⟩
        rcases fieldChange_cases path fields (k, v) with
          ⟨hw, hc⟩ | ⟨w, hw, ⟨same, _⟩ | ⟨_, hc⟩⟩
        · rw [hc] at part
          rw [← append_cons_eq]
          exact Or.inl (.under (part _ (List.mem_singleton.mpr rfl)) q)
        · change Entries.get? fields k = some w at hw
          rw [hw]
          exact Or.inr (same_at? (ho.child (hold.trans hw)) same q).alike
        · change Entries.get? fields k = some w at hw
          rw [hc] at part
          rw [hw, ← append_cons_eq]
          have inside := ih (k, v) he w hw (ho.child (hold.trans hw))
            (not_loses_field shape kept hw hv) (path ++ [k]) q
          exact inside.imp_left (.mono part)

/-- A write at a place inside a field is among the changes of that field. -/
theorem Touches.field {old new : Value} {fields added : Fields}
    (shape : ByFields old new fields added) {path q : Path} {k : String}
    (h : Touches (valueChanges path old new) (path ++ k :: q)) :
    ∃ v, (k, v) ∈ added ∧ Touches (fieldChange path fields (k, v)) (path ++ k :: q) := by
  obtain ⟨p, x, hw, touches⟩ := h
  rw [valueChanges_byFields shape] at hw
  obtain ⟨⟨key, v⟩, he, hc⟩ := List.mem_flatMap.mp hw
  obtain ⟨place, y, hy⟩ := write_of_mem_fieldChange hc
  cases hy
  by_cases same : key = k
  · subst same
    exact ⟨v, he, _, x, hc, touches⟩
  · refine absurd (incomparable_append_left.mpr (incomparable_cons.mpr ?_)) touches
    exact fun h => absurd h same

/-- Where a key was taken out there is a place that the old value has and the new one has not, and
that no write has been at. -/
theorem exists_lost {old new : Value} (hn : new.WellFormed) (lost : old.Loses new) (path : Path) :
    ∃ p, (old.at? p).isSome = true ∧ new.at? p = none ∧
      ¬ Touches (valueChanges path old new) (path ++ p) := by
  induction lost generalizing path with
  | here had gone =>
    rename_i old new key
    obtain ⟨v, hv⟩ := Option.isSome_iff_exists.mp (Entries.isSome_get?_iff.mpr had)
    refine ⟨[key], ?_, ?_, ?_⟩
    · rw [at?_cons, child?_mapping, hv]
      rfl
    · rw [at?_cons, child?_mapping, Entries.get?_eq_none_iff.mpr gone]
      rfl
    · intro touches
      obtain ⟨w, he, _⟩ := touches.field ⟨rfl, Or.inl rfl⟩
      exact gone (Entries.mem_keys_of_mem he)
  | deeper had has inside ih =>
    rename_i old new key v w
    obtain ⟨p, hp, hnone, untouched⟩ := ih (hn.field has) (path ++ [key])
    refine ⟨key :: p, ?_, ?_, ?_⟩
    · rw [at?_cons, child?_mapping, had]
      exact hp
    · rw [at?_cons, child?_mapping, has]
      exact hnone
    · intro touches
      obtain ⟨x, he, touches⟩ := touches.field ⟨rfl, Or.inl rfl⟩
      have found := hn.nodupKeys.get?_of_mem he
      rw [has] at found
      cases found
      rcases fieldChange_cases path old (key, w) with ⟨hu, _⟩ | ⟨u, hu, ⟨_, hc⟩ | ⟨_, hc⟩⟩
      · rw [had] at hu
        cases hu
      · rw [hc] at touches
        obtain ⟨_, _, none_such, _⟩ := touches
        cases none_such
      · rw [had] at hu
        cases hu
        rw [hc] at touches
        rw [append_cons_eq] at untouched
        exact untouched touches

/-- Values that lose nothing are the same exactly when there is nothing to write between them. -/
theorem valueChanges_eq_nil_iff {old new : Value} (ho : old.WellFormed) (hn : new.WellFormed)
    (kept : ¬ old.Loses new) (path : Path) :
    valueChanges path old new = [] ↔ old.same new = true := by
  constructor
  · intro h
    refine same_of_alike ho hn ?_
    intro p
    rcases touched_or_alike old ho hn kept path p with ⟨q, v, hw, _⟩ | alike
    · rw [h] at hw
      exact absurd hw List.not_mem_nil
    · exact alike
  · intro same
    by_cases h : ∃ fields added, ByFields old new fields added
    · obtain ⟨fields, added, shape⟩ := h
      rw [valueChanges_byFields shape, List.flatMap_eq_nil_iff]
      intro e he
      obtain ⟨rfl, rfl | ⟨rfl, _⟩⟩ := shape
      · have field := same_child? ho same e.1
        have hk := hn.nodupKeys.get?_of_mem he
        rw [child?_mapping, child?_mapping, hk] at field
        rcases fieldChange_cases path fields e with ⟨hw, _⟩ | ⟨w, hw, ⟨_, hc⟩ | ⟨hs, _⟩⟩
        · rw [hw] at field
          cases field
        · exact hc
        · rw [hw] at field
          cases field with
          | some hwe =>
            rw [hs] at hwe
            cases hwe
      · simp [Value.same] at same
    · have whole : ∀ fields added, ¬ ByFields old new fields added :=
        fun fields added shape => h ⟨fields, added, shape⟩
      rw [valueChanges_whole whole, if_pos same]

/-! ## §4 The changes between contexts -/

theorem slot?_eq_some_iff {c : Context} {space entry : String} {slot : Slot} :
    c.slot? space entry = some slot
      ↔ ∃ slots, Entries.get? c.spaces space = some slots
        ∧ Entries.get? slots entry = some slot := by
  rw [slot?, Option.bind_eq_some_iff]

/-- The changes between contexts are those of the entries and of the aliases. -/
theorem mem_changesSince {base next : Context} (wf : next.Indexed) {change : Change} :
    change ∈ next.changesSince base ↔
      (∃ space entry slot, next.slot? space entry = some slot
        ∧ change ∈ slotChanges space entry (base.slot? space entry) slot) ∨
      ∃ name v, Entries.get? next.aliases name = some v ∧ base.aliasDiffers name v = true
        ∧ change = .write [name] v := by
  rw [changesSince, List.mem_append, List.mem_flatMap, List.mem_filterMap]
  constructor
  · rintro (⟨⟨space, slots⟩, hs, h⟩ | ⟨⟨name, v⟩, ha, h⟩)
    · obtain ⟨⟨entry, slot⟩, he, hc⟩ := List.mem_flatMap.mp h
      have hs := wf.spaces.get?_of_mem hs
      have he := (wf.slots hs).get?_of_mem he
      exact Or.inl ⟨space, entry, slot, slot?_eq_some_iff.mpr ⟨slots, hs, he⟩, hc⟩
    · cases hd : base.aliasDiffers name v with
      | false => simp [hd] at h
      | true =>
        simp only [hd] at h
        cases h
        exact Or.inr ⟨name, v, wf.aliases.get?_of_mem ha, hd, rfl⟩
  · rintro (⟨space, entry, slot, hs, hc⟩ | ⟨name, v, ha, hd, rfl⟩)
    · obtain ⟨slots, hs, he⟩ := slot?_eq_some_iff.mp hs
      refine Or.inl ⟨(space, slots), Entries.mem_of_get? hs, ?_⟩
      exact List.mem_flatMap.mpr ⟨(entry, slot), Entries.mem_of_get? he, hc⟩
    · exact Or.inr ⟨(name, v), Entries.mem_of_get? ha, by simp [hd]⟩

/-- A write between two states of an entry carries what the new one holds. -/
theorem write_mem_slotChanges {space entry : String} {old : Option Slot} {new : Slot}
    (wf : new.value.WellFormed) {p : Path} {v : Value}
    (h : .write p v ∈ slotChanges space entry old new) :
    ∃ place, p = space :: entry :: place
      ∧ Carries (old.getD ⟨.mapping [], .plain⟩).value new.value place v := by
  cases old with
  | none =>
    simp only [slotChanges, List.mem_cons, List.not_mem_nil, or_false, reduceCtorEq] at h
    cases h
    exact ⟨[], rfl, carries_root _ _⟩
  | some slot =>
    have h : .write p v ∈ valueChanges [space, entry] slot.value new.value := by
      rcases List.mem_append.mp h with h | h
      · exact h
      · by_cases hs : slot.state = new.state <;> simp [hs] at h
    obtain ⟨place, x, heq, carries⟩ := mem_valueChanges wf h
    cases heq
    exact ⟨place, rfl, carries⟩

/-- A write between contexts is one of an entry or one of an alias. -/
theorem write_mem_changesSince {base next : Context} (wf : next.WellFormed) {p : Path} {v : Value}
    (h : .write p v ∈ next.changesSince base) :
    (∃ space entry place slot, p = space :: entry :: place ∧ next.slot? space entry = some slot
      ∧ Carries (base.opened space entry).value slot.value place v) ∨
    ∃ name, p = [name] ∧ Entries.get? next.aliases name = some v
      ∧ base.aliasDiffers name v = true := by
  rcases (mem_changesSince wf.toIndexed).mp h with
    ⟨space, entry, slot, hs, h⟩ | ⟨name, w, ha, hd, heq⟩
  · obtain ⟨place, rfl, carries⟩ := write_mem_slotChanges (wf.values hs) h
    exact Or.inl ⟨space, entry, place, slot, rfl, hs, carries⟩
  · cases heq
    exact Or.inr ⟨name, rfl, ha, hd⟩

/-- The context that the changes lead to holds them. -/
theorem holds_changesSince {next : Context} (wf : next.WellFormed) (base : Context) :
    next.Holds (next.changesSince base) where
  reads := by
    intro p v h
    rcases write_mem_changesSince wf h with
      ⟨space, entry, place, slot, rfl, hs, carries⟩ | ⟨name, rfl, ha, _⟩
    · rw [stored?_entry, hs]
      exact carries.holds
    · exact ha
  opens := by
    intro s e a segment b v h
    rcases write_mem_changesSince wf h with
      ⟨space, entry, place, slot, heq, hs, carries⟩ | ⟨name, heq, _, _⟩
    · cases heq
      obtain ⟨fields, hf⟩ := carries.opens a segment b rfl
      refine ⟨fields, ?_⟩
      rw [stored?_entry, hs]
      exact hf
    · cases heq

/-- The context that the changes start from admits each of their writes. -/
theorem admits_changesSince {base next : Context} (wf : next.WellFormed)
    (edits : base.Edits next) {p : Path} {v : Value}
    (h : .write p v ∈ next.changesSince base) :
    base.Admits p := by
  rcases write_mem_changesSince wf h with
    ⟨space, entry, place, slot, rfl, _, carries⟩ | ⟨name, rfl, ha, hd⟩
  · exact carries.admits
  · rcases edits.new_alias ha with hb | free
    · -- an alias that was there already differs from itself only if it is not well-formed
      unfold aliasDiffers at hd
      simp only [hb, Value.same_refl (wf.aliasValues ha)] at hd
      cases hd
    · exact free

/-- Changes between contexts write well-formed values. -/
theorem wellFormed_changesSince {base next : Context} (wf : next.WellFormed) {p : Path}
    {v : Value} (h : .write p v ∈ next.changesSince base) : v.WellFormed :=
  wf.stored ((holds_changesSince wf base).reads p v h)

theorem slotChanges_apart {space entry : String} (old : Option Slot) {new : Slot}
    (wf : new.value.WellFormed) :
    (slotChanges space entry old new).Pairwise Change.Apart := by
  cases old with
  | none =>
    rw [slotChanges, List.pairwise_pair]
    trivial
  | some slot =>
    refine List.pairwise_append.mpr ⟨valueChanges_apart _ wf _, ?_, ?_⟩
    · by_cases h : slot.state = new.state <;> simp [h]
    · intro a _ b hb
      by_cases h : slot.state = new.state
      · simp [h] at hb
      · simp only [h, if_false, List.mem_singleton] at hb
        rw [hb]
        cases a <;> trivial

/-- Changes of different entries do not touch. -/
theorem apart_of_slots {s e s' e' : String} {old old' : Option Slot} {new new' : Slot}
    (wf : new.value.WellFormed) (wf' : new'.value.WellFormed) (other : s = s' → e ≠ e')
    {a b : Change} (ha : a ∈ slotChanges s e old new) (hb : b ∈ slotChanges s' e' old' new') :
    a.Apart b := by
  cases a with
  | retag => cases b <;> trivial
  | write p v =>
    cases b with
    | retag => trivial
    | write q w =>
      obtain ⟨_, rfl, _⟩ := write_mem_slotChanges wf ha
      obtain ⟨_, rfl, _⟩ := write_mem_slotChanges wf' hb
      refine incomparable_cons.mpr fun hs => incomparable_cons.mpr fun he => ?_
      exact absurd he (other hs)

/-- The changes to a context do not touch if no alias that is new or another one is named like a
namespace. -/
theorem changesSince_apart {next : Context} (wf : next.WellFormed) (base : Context)
    (unhidden : ∀ e ∈ next.aliases, base.aliasDiffers e.1 e.2 = true →
      e.1 ∉ Entries.keys next.spaces) :
    (next.changesSince base).Pairwise Change.Apart := by
  have values : ∀ space ∈ next.spaces, ∀ entry ∈ space.2, entry.2.value.WellFormed := by
    intro space hs entry he
    have hslots := wf.spaces.get?_of_mem hs
    exact wf.values (slot?_eq_some_iff.mpr ⟨_, hslots, (wf.slots hslots).get?_of_mem he⟩)
  refine List.pairwise_append.mpr ⟨List.pairwise_flatMap.mpr ⟨?_, ?_⟩, ?_, ?_⟩
  · -- the entries of one namespace
    intro space hs
    refine List.pairwise_flatMap.mpr ⟨fun entry he => ?_, ?_⟩
    · exact slotChanges_apart _ (values space hs entry he)
    · have keys := wf.slots (wf.spaces.get?_of_mem hs)
      have distinct : space.2.Pairwise fun a b => a.1 ≠ b.1 := List.pairwise_map.mp keys
      refine distinct.imp_of_mem ?_
      intro a b ha hb hab x hx y hy
      exact apart_of_slots (values space hs a ha) (values space hs b hb) (fun _ => hab) hx hy
  · -- the namespaces
    have distinct : next.spaces.Pairwise fun a b => a.1 ≠ b.1 := List.pairwise_map.mp wf.spaces
    refine distinct.imp_of_mem ?_
    intro a b ha hb hab x hx y hy
    obtain ⟨ea, hea, hx⟩ := List.mem_flatMap.mp hx
    obtain ⟨eb, heb, hy⟩ := List.mem_flatMap.mp hy
    exact apart_of_slots (values a ha ea hea) (values b hb eb heb) (fun h => absurd h hab) hx hy
  · -- the aliases
    have distinct : next.aliases.Pairwise fun a b => a.1 ≠ b.1 := List.pairwise_map.mp wf.aliases
    refine List.pairwise_filterMap.mpr (distinct.imp ?_)
    intro a b hab x hx y hy
    simp only [Option.ite_none_right_eq_some, Option.some.injEq] at hx hy
    rw [← hx.2, ← hy.2]
    exact incomparable_cons.mpr fun h => absurd h hab
  · -- an entry and an alias
    intro x hx y hy
    obtain ⟨space, hs, hx⟩ := List.mem_flatMap.mp hx
    obtain ⟨entry, he, hx⟩ := List.mem_flatMap.mp hx
    obtain ⟨e, hname, hy⟩ := List.mem_filterMap.mp hy
    simp only [Option.ite_none_right_eq_some, Option.some.injEq] at hy
    rw [← hy.2]
    cases x with
    | retag => trivial
    | write p v =>
      obtain ⟨_, rfl, _⟩ := write_mem_slotChanges (values space hs entry he) hx
      refine incomparable_cons.mpr fun h => ?_
      have named := unhidden e hname hy.1
      rw [← h] at named
      exact absurd (Entries.mem_keys_of_mem hs) named

/-- An alias resembles the one in `base` unless it is written. -/
theorem alias_written_or_resembles {base next : Context} (wf : next.WellFormed)
    (edits : base.Edits next) (name : String) :
    (∃ q v, .write q v ∈ next.changesSince base ∧ ¬ Clear q [name])
      ∨ base.Resembles next [name] := by
  cases hv : Entries.get? next.aliases name with
  | none =>
    have hb : Entries.get? base.aliases name = none := by
      cases hb : Entries.get? base.aliases name with
      | none => rfl
      | some w =>
        have there : (Entries.get? base.aliases name).isSome = true := by
          rw [hb]
          rfl
        have stays := edits.alias_isSome there
        rw [hv] at stays
        cases stays
    refine Or.inr ?_
    rw [resembles_alias, hv, hb]
    exact .none
  | some v =>
    cases hd : base.aliasDiffers name v with
    | true =>
      have written : .write [name] v ∈ next.changesSince base :=
        (mem_changesSince wf.toIndexed).mpr (Or.inr ⟨name, v, hv, hd, rfl⟩)
      refine Or.inl ⟨[name], v, written, ?_⟩
      rintro (apart | kinds)
      · exact apart.1 List.prefix_rfl
      · simp at kinds
    | false =>
      refine Or.inr ?_
      rw [resembles_alias, hv]
      unfold aliasDiffers at hd
      cases hb : Entries.get? base.aliases name with
      | none => simp [hb] at hd
      | some w =>
        simp only [hb, Bool.not_eq_false'] at hd
        exact .some hd

/-- Where no change has been, the context resembles `base`, unless keys were taken out. -/
theorem written_or_resembles {base next : Context} (hb : base.WellFormed) (hn : next.WellFormed)
    (edits : base.Edits next)
    (kept : ∀ space entry old new, base.slot? space entry = some old →
      next.slot? space entry = some new → ¬ old.value.Loses new.value) (p : Path) :
    (∃ q v, .write q v ∈ next.changesSince base ∧ ¬ Clear q p) ∨ base.Resembles next p := by
  match p with
  | [] => exact Or.inr .none
  | [name] => exact alias_written_or_resembles hn edits name
  | space :: entry :: rest =>
    cases hnew : next.slot? space entry with
    | none =>
      have hold : base.slot? space entry = none := by
        rw [← Option.not_isSome_iff_eq_none]
        intro there
        have stays := edits.slot_isSome there
        rw [hnew] at stays
        cases stays
      refine Or.inr ?_
      rw [resembles_entry, stored?_entry, stored?_entry, hold, hnew]
      exact .none
    | some new =>
      have part : ∀ c ∈ slotChanges space entry (base.slot? space entry) new,
          c ∈ next.changesSince base := fun c hc =>
        (mem_changesSince hn.toIndexed).mpr (Or.inl ⟨space, entry, new, hnew, hc⟩)
      cases hold : base.slot? space entry with
      | none =>
        rw [hold] at part
        refine Or.inl ⟨[space, entry], new.value, part _ List.mem_cons_self, ?_⟩
        rintro (apart | kinds)
        · exact apart.1 ⟨rest, rfl⟩
        · simp at kinds
      | some old =>
        rw [hold] at part
        have kept := kept space entry old new hold hnew
        rcases touched_or_alike old.value (hb.values hold) (hn.values hnew) kept [space, entry] rest
          with ⟨q, v, hq, touches⟩ | alike
        · refine Or.inl ⟨q, v, part _ (List.mem_append_left _ hq), ?_⟩
          obtain ⟨place, x, heq, _⟩ := mem_valueChanges (hn.values hnew) hq
          cases heq
          rintro (apart | kinds)
          · exact touches apart
          · simp at kinds
        · refine Or.inr ?_
          rw [resembles_entry, stored?_entry, stored?_entry, hold, hnew]
          exact alike

/-- Where a key was taken out of an entry there is a place that `base` has and the context has not,
and that no change has been at. -/
theorem exists_lost_place {base next : Context} (wf : next.WellFormed) {space entry : String}
    {old new : Slot} (ho : base.slot? space entry = some old)
    (hn : next.slot? space entry = some new) (lost : old.value.Loses new.value) :
    ∃ rest, (base.stored? (space :: entry :: rest)).isSome = true
      ∧ next.stored? (space :: entry :: rest) = none
      ∧ ∀ q v, .write q v ∈ next.changesSince base → Clear q (space :: entry :: rest) := by
  obtain ⟨rest, hp, hnone, untouched⟩ := exists_lost (wf.values hn) lost [space, entry]
  refine ⟨rest, ?_, ?_, ?_⟩
  · rw [stored?_entry, ho]
    exact hp
  · rw [stored?_entry, hn]
    exact hnone
  · intro q v hq
    rcases (mem_changesSince wf.toIndexed).mp hq with ⟨s, e, slot, hs, hc⟩ | ⟨name, w, _, _, heq⟩
    · by_cases here : s = space ∧ e = entry
      · obtain ⟨rfl, rfl⟩ := here
        rw [hn] at hs
        cases hs
        rw [ho] at hc
        rcases List.mem_append.mp hc with hc | hc
        · by_cases apart : q.Incomparable (s :: e :: rest)
          · exact Or.inl apart
          · exact absurd ⟨q, v, hc, apart⟩ untouched
        · by_cases h : old.state = new.state <;> simp [h] at hc
      · obtain ⟨place, rfl, _⟩ := write_mem_slotChanges (wf.values hs) hc
        refine Or.inl (incomparable_cons.mpr fun h₁ => incomparable_cons.mpr fun h₂ => ?_)
        exact absurd ⟨h₁, h₂⟩ here
    · cases heq
      exact Or.inr (by simp)

end Context

end Tabletop
