/-
Tabletop.Proofs.Context.Contest — when the last of several writes to a path
prevails in a merge.

A merge replays the changes of its branches, one branch after the other, and
changes are differences from the base. Where the last branch that wrote a
path stores what the base holds there, it has no change, and an earlier
branch shows through; where it stores a mapping over a mapping, the changes
go into the fields, and fields that an earlier branch added stay. So the
last writer prevails exactly if its changes can be made in what the earlier
branches leave, and everything at and below the path that they do not change
is the same there already (`sameAs_iff_prevails`).

  §1 What a change replaces
  §2 The changes of one write
  §3 What the last branch makes of the earlier ones
  §4 Merges
-/
import Tabletop.Proofs.Context.Concern
import Tabletop.Proofs.Context.Disjoint
import Tabletop.Proofs.Context.Host
import Mathlib.Data.List.Pairwise

namespace Tabletop

namespace Context

open Tabletop.Path Tabletop.Value

variable {base early next mid : Context} {p q place : Path} {u v : Value}

/-! ## §1 What a change replaces -/

/-- A write between values stands in the place of another value, and of none that it could have
been written into field by field. -/
theorem replaces_of_mem_valueChanges {old new : Value} (wf : new.WellFormed) {path : Path}
    (h : .write (path ++ place) v ∈ valueChanges path old new) (held : old.at? place = some u) :
    u.same v = false ∧ ∀ fields added, ¬ ByFields u v fields added := by
  refine compare_induction (motive := fun old new => ∀ path place,
    .write (path ++ place) v ∈ valueChanges path old new → old.at? place = some u →
      u.same v = false ∧ ∀ fields added, ¬ ByFields u v fields added) ?_ ?_ old wf path place h held
  · intro old new _ whole path place h held
    have here := write_of_mem_whole whole h
    simp only [Change.write.injEq, List.append_right_eq_self] at here
    obtain ⟨rfl, rfl⟩ := here
    cases held
    rw [valueChanges_whole whole] at h
    cases same : u.same v with
    | true => simp [same] at h
    | false => exact ⟨rfl, whole⟩
  · intro old new fields added wf shape ih path place h held
    rw [valueChanges_byFields shape] at h
    obtain ⟨e, he, h⟩ := List.mem_flatMap.mp h
    rcases fieldChange_cases path fields e with ⟨missing, hc⟩ | ⟨w, found, ⟨_, hc⟩ | ⟨_, hc⟩⟩
    · rw [hc, List.mem_singleton] at h
      simp only [Change.write.injEq, List.append_cancel_left_eq] at h
      rw [h.1, at?_cons, child?_of_fields? shape.fields?, missing] at held
      cases held
    · rw [hc] at h
      exact absurd h List.not_mem_nil
    · rw [hc] at h
      obtain ⟨below, x, heq⟩ := write_of_mem_valueChanges _ w e.2 _ h
      simp only [Change.write.injEq, List.append_assoc, List.append_cancel_left_eq] at heq
      obtain ⟨rfl, _⟩ := heq
      rw [List.singleton_append, at?_cons, child?_of_fields? shape.fields?, found] at held
      rw [← List.append_assoc] at h
      exact ih e he w found _ below h held

/-- A write between contexts stands in the place of another value, and in entries of none that it
could have been written into field by field. -/
theorem replaces_of_mem_changesSince (wf : next.WellFormed)
    (h : .write p v ∈ next.changesSince base) (held : base.stored? p = some u) :
    u.same v = false ∧ (2 ≤ p.length → ∀ fields added, ¬ ByFields u v fields added) := by
  rcases (mem_changesSince wf.toIndexed).mp h with
    ⟨space, entry, new, hs, h⟩ | ⟨name, w, _, differs, heq⟩
  · cases hold : base.slot? space entry with
    | none =>
      obtain ⟨place, rfl, _⟩ := write_mem_slotChanges (wf.values hs) h
      rw [stored?_entry, hold] at held
      cases held
    | some old =>
      rw [hold] at h
      rcases List.mem_append.mp h with h | h
      · obtain ⟨place, x, heq⟩ := write_of_mem_valueChanges _ old.value new.value _ h
        cases heq
        rw [List.cons_append, List.cons_append, List.nil_append, stored?_entry, hold] at held
        exact (replaces_of_mem_valueChanges (wf.values hs) h held).imp_right
          fun no_parts _ => no_parts
      · by_cases same : old.state = new.state <;> simp [same] at h
  · cases heq
    rw [stored?_alias] at held
    simp only [aliasDiffers, held, Bool.not_eq_true'] at differs
    exact ⟨differs, by simp⟩

/-- What a change writes is not what the base stores there. -/
theorem stored?_ne_of_mem_changesSince (wf : next.WellFormed)
    (h : .write p v ∈ next.changesSince base) : next.stored? p ≠ base.stored? p := by
  intro same
  have reads := (holds_changesSince wf base).reads p v h
  have differs := (replaces_of_mem_changesSince wf h (same ▸ reads)).1
  rw [same_refl (wf.stored reads)] at differs
  cases differs

/-! ## §2 The changes of one write -/

/-- A path at the name of an alias or below it that touches the alias is the alias. -/
theorem eq_of_not_clear_alias {name : String} (on : [name] <+: p) (unclear : ¬ Clear p [name]) :
    p = [name] := by
  obtain ⟨rest, rfl⟩ := on
  have kinds : ¬ (([name] ++ rest).length = 1 ↔ [name].length ≠ 1) :=
    fun kinds => unclear (Or.inr kinds)
  cases rest with
  | nil => rfl
  | cons => simp at kinds

/-- The context is the base after one write at the path. -/
def WrittenAt (base : Context) (p : Path) (next : Context) : Prop :=
  ∃ state v, base.write state v p = .ok next

theorem WrittenAt.ne_nil (h : base.WrittenAt p next) : p ≠ [] := by
  rintro rfl
  obtain ⟨_, _, h⟩ := h
  cases h

/-- A write below a place of an entry that holds a mapping or null changes fields there, and does
not replace what is there. -/
theorem not_mem_changesSince_above (wf : next.WellFormed) (hosts : base.Hosts p)
    {segment other : String} {rest more : Path} (on : p = place ++ segment :: rest)
    (h : base.WrittenAt (place ++ other :: more) next) (inside : 2 ≤ place.length) :
    .write place v ∉ next.changesSince base := by
  intro hw
  obtain ⟨state, w, h⟩ := h
  obtain ⟨u, fields, held, opened⟩ := hosts place segment rest on inside
  obtain ⟨added, found, filled⟩ :=
    stored?_write_above (hosts.above ⟨segment :: rest, on.symm⟩) inside held opened h
  have reads := (holds_changesSince wf base).reads place v hw
  rw [found] at reads
  cases reads
  refine (replaces_of_mem_changesSince wf hw held).2 inside fields added ⟨rfl, ?_⟩
  cases u with
  | mapping =>
    cases opened
    exact Or.inl rfl
  | null =>
    cases opened
    exact Or.inr ⟨rfl, rfl, filled⟩
  | _ => cases opened

theorem ne_nil_of_mem_changesSince (wf : next.WellFormed)
    (h : .write p v ∈ next.changesSince base) : p ≠ [] := by
  rintro rfl
  cases (holds_changesSince wf base).reads [] v h

/-- The changes of a write that does not touch a hosted path leave it clear. -/
theorem WrittenAt.clear (wf : next.WellFormed) (hosts : base.Hosts p) (h : base.WrittenAt q next)
    (apart : q.Incomparable p) (hw : .write place v ∈ next.changesSince base) : Clear place p := by
  obtain ⟨state, w, written⟩ := id h
  have differs := stored?_ne_of_mem_changesSince wf hw
  by_contra unclear
  have kinds : ¬ (place.length = 1 ↔ p.length ≠ 1) := fun kinds => unclear (Or.inr kinds)
  rcases prefix_or_incomparable place p with on | ⟨rest, rfl⟩ | aside
  · -- at the path or above it: the write has been below
    have unclear : ¬ Clear q place := fun clear =>
      differs (stored?_write_of_clear (hosts.above on) written clear)
    rcases prefix_or_incomparable q place with above | ⟨more, rfl⟩ | aside
    · exact apart.1 (above.trans on)
    · obtain ⟨rest, rfl⟩ := on
      cases more with
      | nil =>
        rw [List.append_nil] at apart
        exact apart.1 ⟨rest, rfl⟩
      | cons other more =>
        cases rest with
        | nil =>
          rw [List.append_nil] at apart
          exact apart.2 ⟨other :: more, rfl⟩
        | cons segment rest =>
          have somewhere := List.length_pos_of_ne_nil (ne_nil_of_mem_changesSince wf hw)
          rw [List.length_append, List.length_cons] at kinds
          exact not_mem_changesSince_above wf hosts rfl h (by omega) hw
    · exact unclear (Or.inl aside)
  · -- below the path: what is stored there has been left
    have kept := stored?_write_of_clear hosts written (Or.inl apart)
    match p with
    | [] => exact not_incomparable_nil_right apart
    | [name] =>
      rw [eq_of_not_clear_alias ⟨rest, rfl⟩ unclear] at differs
      exact differs kept
    | space :: entry :: path =>
      rw [List.cons_append, List.cons_append, stored?_append, stored?_append, kept] at differs
      exact differs rfl
  · exact unclear (Or.inl aside)

/-- The changes of a write to a hosted path are at the path or below it. -/
theorem WrittenAt.reaches (wf : next.WellFormed) (hosts : base.Hosts p) (h : base.WrittenAt p next)
    (hw : .write place v ∈ next.changesSince base) : p <+: place ∧ ¬ Clear place p := by
  obtain ⟨state, w, step⟩ := id h
  obtain ⟨_, again, written⟩ := write_of_admits (hosts.admits step) state w
  rw [step] at again
  cases again
  have unclear : ¬ Clear place p := fun clear =>
    stored?_ne_of_mem_changesSince wf hw (written.keeps place clear.symm)
  refine ⟨?_, unclear⟩
  rcases prefix_or_incomparable place p with ⟨rest, rfl⟩ | on | aside
  · cases rest with
    | nil => exact ⟨[], by rw [List.append_nil, List.append_nil]⟩
    | cons segment rest =>
      have somewhere := List.length_pos_of_ne_nil (ne_nil_of_mem_changesSince wf hw)
      have kinds : ¬ (place.length = 1 ↔ (place ++ segment :: rest).length ≠ 1) :=
        fun kinds => unclear (Or.inr kinds)
      rw [List.length_append, List.length_cons] at kinds
      exact absurd hw (not_mem_changesSince_above wf hosts rfl h (by omega))
  · exact on
  · exact absurd (Or.inl aside) unclear

/-- The changes of one write do not touch each other. -/
theorem WrittenAt.apart (hb : base.WellFormed) (wf : next.WellFormed) (h : base.WrittenAt p next) :
    (next.changesSince base).Pairwise Change.Apart := by
  obtain ⟨state, w, written⟩ := h
  refine changesSince_apart wf base ?_
  intro e he differs
  have named : Entries.get? next.aliases e.1 = some e.2 := wf.aliases.get?_of_mem he
  have new : Entries.get? base.aliases e.1 ≠ some e.2 := by
    intro old
    simp only [aliasDiffers, old, same_refl (hb.aliasValues old)] at differs
    cases differs
  rcases write_cases written with ⟨name, _, free, rfl⟩ | ⟨space, entry, _, rfl⟩
      | ⟨space, entry, segment, rest, x, _, _, rfl⟩
  · rw [aliases_putAlias, Entries.get?_insert] at named
    split at named
    · rename_i same
      rw [← same]
      exact (isReserved_eq_false_iff.mp free).2
    · exact absurd named new
  · exact absurd named new
  · exact absurd named new

/-! ## §3 What the last branch makes of the earlier ones -/

/-- The changes of `next` since the base prevail over what `early` stores at the path: `early`
admits each of them, and what they do not touch at the path and below it is alike there already. -/
structure Prevails (base early next : Context) (p : Path) : Prop where
  admits : ∀ q v, .write q v ∈ next.changesSince base → early.Admits q
  agrees : ∀ r, Touches (next.changesSince base) (p ++ r)
    ∨ AlikeAs ((early.stored? p).bind (·.at? r)) ((next.stored? p).bind (·.at? r))

theorem alikeAs_below {a b : Option Value} (wf : ∀ v, a = some v → v.WellFormed)
    (same : SameAs a b) (r : Path) : AlikeAs (a.bind (·.at? r)) (b.bind (·.at? r)) := by
  cases same with
  | none => exact .none
  | some same => exact (same_at? (wf _ rfl) same r).alike

theorem sameAs_of_below {a b : Option Value} (wfa : ∀ v, a = some v → v.WellFormed)
    (wfb : ∀ v, b = some v → v.WellFormed)
    (alike : ∀ r : Path, AlikeAs (a.bind (·.at? r)) (b.bind (·.at? r))) : SameAs a b := by
  have root := alike []
  cases a with
  | none =>
    cases b with
    | none => exact .none
    | some w => cases root
  | some v =>
    cases b with
    | none => cases root
    | some w => exact .some (same_of_alike (wfa v rfl) (wfb w rfl) alike)

/-- The writes are at the path or below it, and of its kind. -/
def Reach (changes : List Change) (p : Path) : Prop :=
  ∀ q v, .write q v ∈ changes → p <+: q ∧ ¬ Clear q p

/-- At and below the path, contexts that hold the same changes are alike where they touch. -/
theorem alikeAs_of_touches (wf : next.WellFormed) (reach : Reach (next.changesSince base) p)
    (holds : mid.Holds (next.changesSince base)) (wfm : mid.WellFormed) {r : Path}
    (touches : Touches (next.changesSince base) (p ++ r)) :
    AlikeAs ((mid.stored? p).bind (·.at? r)) ((next.stored? p).bind (·.at? r)) := by
  obtain ⟨q, v, hw, touches⟩ := touches
  obtain ⟨on, unclear⟩ := reach q v hw
  match p with
  | [] => exact .none
  | [name] =>
    cases eq_of_not_clear_alias on unclear
    have held := (holds_changesSince wf base).reads _ v hw
    have values : ∀ x, next.stored? [name] = some x → x.WellFormed := fun x hx => wf.stored hx
    rw [holds.reads _ v hw, ← held]
    exact alikeAs_below values (sameAs_refl values) r
  | space :: entry :: path =>
    obtain ⟨rest, rfl⟩ := on
    rw [← stored?_append, ← stored?_append]
    refine resembles_entry.mp (holds.resembles (holds_changesSince wf base) wfm hw ?_)
    rintro (apart | kinds)
    · exact touches apart
    · simp at kinds

/-- A replay leaves what its changes do not touch at the path and below it. -/
theorem bind_at?_of_not_touches {changes : List Change} (reach : Reach changes p)
    (replayed : Replayed early changes mid) {r : Path} (untouched : ¬ Touches changes (p ++ r)) :
    (mid.stored? p).bind (·.at? r) = (early.stored? p).bind (·.at? r) := by
  match p with
  | [] => rfl
  | [name] =>
    rw [replayed.keeps [name]]
    intro q v hw
    obtain ⟨on, unclear⟩ := reach q v hw
    cases eq_of_not_clear_alias on unclear
    exact absurd (Touches.under hw r) untouched
  | space :: entry :: path =>
    rw [← stored?_append, ← stored?_append]
    refine replayed.keeps _ fun q v hw => Or.inl ?_
    by_contra touches
    exact untouched ⟨q, v, hw, touches⟩

/-- An alias that changes write is free before them. -/
theorem isReserved_of_applyChanges {c d : Context} {changes : List Change} {name : String}
    (h : c.applyChanges changes = .ok d) (hw : .write [name] v ∈ changes) :
    c.isReserved name = false := by
  induction changes generalizing c with
  | nil => exact absurd hw List.not_mem_nil
  | cons change rest ih =>
    obtain ⟨m, one, others⟩ := applyChanges_cons h
    rcases List.mem_cons.mp hw with rfl | hw
    · have one : c.write .plain v [name] = .ok m := one
      rcases write_cases one with ⟨other, same, free, _⟩ | ⟨_, _, short, _⟩
          | ⟨_, _, _, _, _, short, _⟩
      · cases same
        exact free
      · cases short
      · cases short
    · have later := isReserved_eq_false_iff.mp (ih others hw)
      have alone : c.applyChanges [change] = .ok m := by
        simp only [applyChanges, one]
        rfl
      have step : c.Edits m := edits_applyChanges alone
      exact isReserved_eq_false_iff.mpr ⟨later.1, fun there => later.2 (step.space_mem there)⟩

/-- What stands in the way in an entry is stored there. -/
theorem stored?_of_blocks {c : Context} {space entry : String}
    (h : (c.opened space entry).value.Blocks p) :
    ∃ u, c.stored? (space :: entry :: p) = some u ∧ u.fields? = none := by
  obtain ⟨_, u, held, closed⟩ := h
  refine ⟨u, ?_, closed⟩
  cases p with
  | cons segment rest => rw [stored?_below, held]
  | nil =>
    rw [stored?_entry]
    unfold opened at held
    cases hs : c.slot? space entry with
    | some slot =>
      rw [hs] at held
      exact held
    | none =>
      rw [hs] at held
      cases held
      cases closed

/-- Changes that do not write at an obstacle in an entry or above it leave one there. -/
theorem blocks_applyChanges {c d : Context} {space entry : String} {changes : List Change}
    (h : c.applyChanges changes = .ok d) (blocks : (c.opened space entry).value.Blocks p)
    (spared : ∀ q v, .write q v ∈ changes → ¬ q <+: space :: entry :: p) :
    (d.opened space entry).value.Blocks p := by
  induction changes generalizing c with
  | nil =>
    cases h
    exact blocks
  | cons change rest ih =>
    obtain ⟨m, one, others⟩ := applyChanges_cons h
    refine ih others ?_ fun q v hw => spared q v (List.mem_cons_of_mem _ hw)
    cases change with
    | retag s e state =>
      cases one
      rw [opened_retagSlot]
      exact blocks
    | write q v =>
      have aside := spared q v List.mem_cons_self
      have elsewhere : ∀ {s e : String} {slot : Slot}, ¬ (s = space ∧ e = entry) →
          ((c.putSlot s e slot).opened space entry) = c.opened space entry := by
        intro s e slot other
        rw [opened, opened, slot?_putSlot, if_neg other]
      rcases write_cases one with ⟨name, rfl, _, rfl⟩ | ⟨s, e, rfl, rfl⟩
          | ⟨s, e, segment, rest, w, rfl, inside, rfl⟩
      · exact blocks
      · by_cases here : s = space ∧ e = entry
        · obtain ⟨rfl, rfl⟩ := here
          exact absurd ⟨p, rfl⟩ aside
        · rw [elsewhere here]
          exact blocks
      · by_cases here : s = space ∧ e = entry
        · obtain ⟨rfl, rfl⟩ := here
          rw [opened, slot?_putSlot, if_pos ⟨rfl, rfl⟩]
          refine blocks.writeAt inside fun above => aside ?_
          exact List.cons_prefix_cons.mpr ⟨rfl, List.cons_prefix_cons.mpr ⟨rfl, above⟩⟩
        · rw [elsewhere here]
          exact blocks

/-- Of changes that do not touch each other, the writes at different paths do not. -/
theorem incomparable_of_apart {changes : List Change} (apart : changes.Pairwise Change.Apart)
    (hp : .write p u ∈ changes) (hq : .write q v ∈ changes) (other : p ≠ q) :
    p.Incomparable q := by
  have : Std.Symm Change.Apart := ⟨fun _ _ => Change.Apart.symm⟩
  exact apart.forall hp hq fun equal => other (Change.write.inj equal).1

theorem not_alike_mapping {fields : Fields} (closed : u.fields? = none) :
    ¬ Alike u (.mapping fields) := by
  intro alike
  cases alike with
  | mapping => cases closed
  | same equal =>
    cases u with
    | null | mapping => cases closed
    | _ => simp [Value.same] at equal

section

variable (wfe : early.WellFormed) (wf : next.WellFormed)
  (reach : Reach (next.changesSince base) p)
  (apart : (next.changesSince base).Pairwise Change.Apart)
  (ok : early.applyChanges (next.changesSince base) = .ok mid)

include wfe wf reach apart ok

/-- Where the changes prevail the path stores what it stores in the last branch. -/
theorem Prevails.sameAs (h : Prevails base early next p) :
    SameAs (mid.stored? p) (next.stored? p) := by
  obtain ⟨_, again, replayed⟩ := applyChanges_of_admits apart h.admits
  rw [ok] at again
  cases again
  have wfm := replayed.wellFormed wfe fun q v hw => wellFormed_changesSince wf hw
  refine sameAs_of_below (fun _ hv => wfm.stored hv) (fun _ hv => wf.stored hv) fun r => ?_
  by_cases touches : Touches (next.changesSince base) (p ++ r)
  · exact alikeAs_of_touches wf reach replayed.toHolds wfm touches
  · rw [bind_at?_of_not_touches reach replayed touches]
    exact (h.agrees r).resolve_left touches

/-- An obstacle in the way of a change keeps the path from storing what the last branch stores. -/
theorem admits_of_sameAs (hosts : early.Hosts p) (somewhere : p ≠ [])
    (same : SameAs (mid.stored? p) (next.stored? p)) (hw : .write q v ∈ next.changesSince base) :
    early.Admits q := by
  have wfm := wfe.applyChanges ok fun q v hw => wellFormed_changesSince wf hw
  match q with
  | [] => exact absurd rfl (ne_nil_of_mem_changesSince wf hw)
  | [name] => exact isReserved_of_applyChanges ok hw
  | space :: entry :: place =>
    by_contra refused
    obtain ⟨way, segment, rest, rfl, blocks⟩ := exists_blocks refused
    obtain ⟨reached, unclear⟩ := reach _ v hw
    have on : space :: entry :: way <+: space :: entry :: (way ++ segment :: rest) :=
      ⟨segment :: rest, rfl⟩
    -- the other changes are aside, so the obstacle stays where the last branch has a mapping
    have spared : ∀ r x, .write r x ∈ next.changesSince base → ¬ r <+: space :: entry :: way := by
      intro r x other above
      have differ : r ≠ space :: entry :: (way ++ segment :: rest) := by
        rintro rfl
        have := above.length_le
        simp only [List.length_cons, List.length_append] at this
        omega
      exact (incomparable_of_apart apart other hw differ).1 (above.trans on)
    obtain ⟨u, held, closed⟩ := stored?_of_blocks (blocks_applyChanges ok blocks spared)
    obtain ⟨fields, opened⟩ :=
      (holds_changesSince wf base).opens space entry way segment rest v hw
    have at_or_above : p <+: space :: entry :: way := by
      rcases List.prefix_or_prefix_of_prefix reached on with above | ⟨more, rfl⟩
      · exact above
      · cases more with
        | nil => exact ⟨[], by rw [List.append_nil, List.append_nil]⟩
        | cons next more =>
          obtain ⟨x, _, there, has_fields⟩ := hosts _ next more rfl (by simp)
          obtain ⟨y, found, none_such⟩ := blocks.holds
          rw [at?_opened there] at found
          cases found
          rw [none_such] at has_fields
          cases has_fields
    match p with
    | [] => exact somewhere rfl
    | [name] => cases eq_of_not_clear_alias reached unclear
    | s :: e :: path =>
      obtain ⟨rfl, rfl, r, rfl⟩ : s = space ∧ e = entry ∧ path <+: way := by
        rwa [List.cons_prefix_cons, List.cons_prefix_cons] at at_or_above
      have alike := alikeAs_below (fun _ hv => wfm.stored hv) same r
      rw [← stored?_append, ← stored?_append, held, opened] at alike
      cases alike with
      | some alike => exact not_alike_mapping closed alike

/-- The path comes to store what it stores in the last branch exactly if its changes prevail. -/
theorem sameAs_iff_prevails (hosts : early.Hosts p) (somewhere : p ≠ []) :
    SameAs (mid.stored? p) (next.stored? p) ↔ Prevails base early next p := by
  refine ⟨fun same => ?_, Prevails.sameAs wfe wf reach apart ok⟩
  have admits : ∀ q v, .write q v ∈ next.changesSince base → early.Admits q :=
    fun q v hw => admits_of_sameAs wfe wf reach apart ok hosts somewhere same hw
  refine ⟨admits, fun r => ?_⟩
  obtain ⟨_, again, replayed⟩ := applyChanges_of_admits apart admits
  rw [ok] at again
  cases again
  have wfm := replayed.wellFormed wfe fun q v hw => wellFormed_changesSince wf hw
  by_cases touches : Touches (next.changesSince base) (p ++ r)
  · exact Or.inl touches
  · rw [← bind_at?_of_not_touches reach replayed touches]
    exact Or.inr (alikeAs_below (fun _ hv => wfm.stored hv) same r)

end

/-- A branch that writes the whole path prevails there. -/
theorem prevails_of_write (reach : Reach (next.changesSince base) p)
    (apart : (next.changesSince base).Pairwise Change.Apart)
    (whole : .write p v ∈ next.changesSince base) (admits : early.Admits p) :
    Prevails base early next p where
  admits := by
    intro q w hw
    by_cases here : p = q
    · rw [← here]
      exact admits
    · exact absurd (reach q w hw).1 (incomparable_of_apart apart whole hw here).1
  agrees := fun r => Or.inl (.under whole r)

/-! ## §4 Merges -/

/-- A merge stores at a path what the last branch that wrote it stores there, exactly if the changes
of that branch prevail over the merge of the branches before it. The branches are one write each,
the earlier ones at the path or apart from it, the later ones apart from it. -/
theorem merge_contested {merged : Context} {few more : List Context} (hb : base.WellFormed)
    (wf : ∀ other ∈ few ++ next :: more, other.WellFormed) (hosts : base.Hosts p)
    (before : ∀ other ∈ few, ∃ q, base.WrittenAt q other ∧ (q = p ∨ q.Incomparable p))
    (target : base.WrittenAt p next)
    (after : ∀ other ∈ more, ∃ q, base.WrittenAt q other ∧ q.Incomparable p)
    (ok : base.applyChanges (base.changesOf (few ++ next :: more)) = .ok merged) :
    ∃ early, base.applyChanges (base.changesOf few) = .ok early
      ∧ (SameAs (merged.stored? p) (next.stored? p) ↔ Prevails base early next p) := by
  rw [changesOf, List.flatMap_append, List.flatMap_cons] at ok
  obtain ⟨early, first, ok⟩ := applyChanges_append ok
  obtain ⟨mid, last, ok⟩ := applyChanges_append ok
  have wfn : next.WellFormed := wf next (by simp)
  have reach : Reach (next.changesSince base) p := fun q v hw => target.reaches wfn hosts hw
  -- the branches before leave room for the path
  have spared : ∀ q v, .write q v ∈ base.changesOf few → Clear q p ∨ p <+: q := by
    intro q v hw
    obtain ⟨other, hm, hw⟩ := List.mem_flatMap.mp hw
    have wfo := wf other (List.mem_append_left _ hm)
    obtain ⟨r, written, rfl | aside⟩ := before other hm
    · exact Or.inr (written.reaches wfo hosts hw).1
    · exact Or.inl (written.clear wfo hosts aside hw)
  have hosts' : early.Hosts p := hosts.applyChanges first spared
  have wfe : early.WellFormed := by
    refine hb.applyChanges first fun q v hw => ?_
    obtain ⟨other, hm, hw⟩ := List.mem_flatMap.mp hw
    exact wellFormed_changesSince (wf other (List.mem_append_left _ hm)) hw
  -- the branches after leave what the path stores
  have kept : merged.stored? p = mid.stored? p := by
    refine stored?_applyChanges_of_clear (hosts'.applyChanges last fun q v hw =>
      Or.inr (reach q v hw).1) ok fun q v hw => ?_
    obtain ⟨other, hm, hw⟩ := List.mem_flatMap.mp hw
    obtain ⟨r, written, aside⟩ := after other hm
    exact written.clear (wf other (by simp [hm])) hosts aside hw
  refine ⟨early, first, ?_⟩
  rw [kept]
  exact sameAs_iff_prevails wfe wfn reach (target.apart hb wfn) last hosts' target.ne_nil

end Context

end Tabletop
