/-
Tabletop.Proofs.Context.Stored — what a context stores at a path.

`stored?` looks a path up where a write would put it: a path of one segment
among the aliases, a longer one in its namespace, whatever alias hides it.
A write that meets only mappings, nulls and missing entries on its way
succeeds; it is read back, leaves what it does not touch, and leaves it as
writable as it was (`Written`). So a list of writes that do not touch each
other can be replayed on any context that admits each of them (`Replayed`).

  §1 Well-formed contexts
  §2 What is stored and what may be written
  §3 One write
  §4 Tags
  §5 Replaying writes that do not touch
-/
import Tabletop.Proofs.Context.Slot
import Tabletop.Proofs.Value.Place

namespace Tabletop

namespace Context

open Tabletop.Path

/-! ## §1 Well-formed contexts -/

/-- The names of namespaces, of the entries in each, and of aliases are distinct. -/
structure Indexed (c : Context) : Prop where
  spaces : Entries.NodupKeys c.spaces
  slots : ∀ {space slots}, Entries.get? c.spaces space = some slots → Entries.NodupKeys slots
  aliases : Entries.NodupKeys c.aliases

theorem Indexed.putSlot {c : Context} (h : c.Indexed) (space entry : String) (slot : Slot) :
    (c.putSlot space entry slot).Indexed where
  spaces := h.spaces.insert _ _
  slots := by
    intro s slots hg
    unfold Context.putSlot withSlots at hg
    rw [Entries.get?_insert] at hg
    by_cases hspace : space = s
    · rw [if_pos hspace] at hg
      cases hg
      cases ho : Entries.get? c.spaces space with
      | none => exact Entries.nodupKeys_nil.insert _ _
      | some old => exact (h.slots ho).insert _ _
    · rw [if_neg hspace] at hg
      exact h.slots hg
  aliases := h.aliases

theorem Indexed.putAlias {c : Context} (h : c.Indexed) (name : String) (v : Value) :
    (c.putAlias name v).Indexed where
  spaces := h.spaces
  slots := h.slots
  aliases := h.aliases.insert _ _

theorem Indexed.retagSlot {c : Context} (h : c.Indexed) (space entry : String)
    (state : SlotState) : (c.retagSlot space entry state).Indexed := by
  rw [retagSlot_eq]
  cases c.slot? space entry with
  | none => exact h
  | some slot => exact h.putSlot space entry _

/-- Names stay distinct. -/
theorem Edits.indexed {base next : Context} (h : base.Edits next) (hb : base.Indexed) :
    next.Indexed := by
  refine h.preserves hb ?_ fun c space entry state hc => hc.retagSlot space entry state
  intro c d state v p hc step
  rcases write_cases step with ⟨name, _, _, rfl⟩ | ⟨space, entry, _, rfl⟩
      | ⟨space, entry, segment, rest, w, _, _, rfl⟩
  · exact hc.putAlias name v
  · exact hc.putSlot space entry _
  · exact hc.putSlot space entry _

/-- Names are distinct and values are well-formed. -/
structure WellFormed (c : Context) : Prop extends Indexed c where
  values : ∀ {space entry slot}, c.slot? space entry = some slot → slot.value.WellFormed
  aliasValues : ∀ {name v}, Entries.get? c.aliases name = some v → v.WellFormed

theorem WellFormed.putSlot {c : Context} (h : c.WellFormed) (space entry : String) {slot : Slot}
    (hs : slot.value.WellFormed) : (c.putSlot space entry slot).WellFormed where
  toIndexed := h.toIndexed.putSlot space entry slot
  values := by
    intro s e other hother
    rw [slot?_putSlot] at hother
    by_cases hse : space = s ∧ entry = e
    · rw [if_pos hse] at hother
      cases hother
      exact hs
    · rw [if_neg hse] at hother
      exact h.values hother
  aliasValues := h.aliasValues

theorem WellFormed.putAlias {c : Context} (h : c.WellFormed) {v : Value} (hv : v.WellFormed)
    (name : String) : (c.putAlias name v).WellFormed where
  toIndexed := h.toIndexed.putAlias name v
  values := h.values
  aliasValues := by
    intro other w hw
    rw [aliases_putAlias, Entries.get?_insert] at hw
    by_cases hn : name = other
    · rw [if_pos hn] at hw
      cases hw
      exact hv
    · rw [if_neg hn] at hw
      exact h.aliasValues hw

theorem WellFormed.retagSlot {c : Context} (h : c.WellFormed) (space entry : String)
    (state : SlotState) : (c.retagSlot space entry state).WellFormed := by
  rw [retagSlot_eq]
  cases hs : c.slot? space entry with
  | none => exact h
  | some slot =>
    have value := h.values hs
    exact WellFormed.putSlot h space entry value

/-- The namespaces of the empty context have no entries. -/
theorem slots_empty {space : String} {slots : Slots}
    (h : Entries.get? Context.empty.spaces space = some slots) : slots = [] := by
  have there := Entries.mem_of_get? h
  simp only [empty, declaredNames, List.map_cons, List.map_nil, List.mem_cons, Prod.mk.injEq,
    List.not_mem_nil, or_false] at there
  rcases there with ⟨_, h⟩ | ⟨_, h⟩ | ⟨_, h⟩ <;> exact h

theorem slot?_empty (space entry : String) : Context.empty.slot? space entry = none := by
  unfold slot?
  cases h : Entries.get? Context.empty.spaces space with
  | none => rfl
  | some slots =>
    rw [slots_empty h]
    rfl

theorem indexed_empty : Context.empty.Indexed where
  spaces := by decide
  slots := by
    intro space slots h
    rw [slots_empty h]
    exact Entries.nodupKeys_nil
  aliases := Entries.nodupKeys_nil

theorem wellFormed_empty : Context.empty.WellFormed where
  toIndexed := indexed_empty
  values := by
    intro space entry slot h
    rw [slot?_empty] at h
    cases h
  aliasValues := by
    intro name v h
    cases h

/-- An entry is well-formed as a write finds it. -/
theorem WellFormed.opened {c : Context} (h : c.WellFormed) (space entry : String) :
    (c.opened space entry).value.WellFormed := by
  unfold Context.opened
  cases hs : c.slot? space entry with
  | none => exact Value.wellFormed_mapping_nil
  | some slot => exact h.values hs

/-! ## §2 What is stored and what may be written -/

/-- The value at a path: an alias for one segment, else in the namespace. -/
def stored? (c : Context) : Path → Option Value
  | [] => none
  | [name] => Entries.get? c.aliases name
  | space :: entry :: rest => (c.slot? space entry).bind fun slot => slot.value.at? rest

/-- A write at the path meets an alias that may be written, or mappings, nulls and what is missing
only. -/
def Admits (c : Context) : Path → Prop
  | [] => False
  | [name] => c.isReserved name = false
  | space :: entry :: rest => (c.opened space entry).value.Admits rest

@[simp] theorem stored?_alias (c : Context) (name : String) :
    c.stored? [name] = Entries.get? c.aliases name := rfl

@[simp] theorem stored?_entry (c : Context) (space entry : String) (rest : Path) :
    c.stored? (space :: entry :: rest)
      = (c.slot? space entry).bind fun slot => slot.value.at? rest := rfl

theorem admits_alias {c : Context} {name : String} :
    c.Admits [name] ↔ c.isReserved name = false := Iff.rfl

theorem admits_entry {c : Context} {space entry : String} {rest : Path} :
    c.Admits (space :: entry :: rest) ↔ (c.opened space entry).value.Admits rest := Iff.rfl

theorem WellFormed.stored {c : Context} (h : c.WellFormed) {p : Path} {v : Value}
    (hv : c.stored? p = some v) : v.WellFormed := by
  match p with
  | [] => cases hv
  | [name] => exact h.aliasValues hv
  | space :: entry :: rest =>
    rw [stored?_entry, Option.bind_eq_some_iff] at hv
    obtain ⟨slot, hs, hv⟩ := hv
    exact (h.values hs).at hv

/-- Below its root an entry reads as a write finds it. -/
theorem stored?_below (c : Context) (space entry segment : String) (rest : Path) :
    c.stored? (space :: entry :: segment :: rest)
      = (c.opened space entry).value.at? (segment :: rest) := by
  rw [stored?_entry, opened]
  cases c.slot? space entry <;> rfl

/-- What is stored below a place of an entry is below what is stored at the place. -/
theorem stored?_append (c : Context) (space entry : String) (p q : Path) :
    c.stored? (space :: entry :: (p ++ q))
      = (c.stored? (space :: entry :: p)).bind fun v => v.at? q := by
  rw [stored?_entry, stored?_entry, Option.bind_assoc]
  congr 1
  funext slot
  exact Value.at?_append slot.value p q

/-- A write at one of the paths leaves what is stored at the other: they do not touch, or one of
them is an alias and the other is not. -/
def Clear (p q : Path) : Prop := p.Incomparable q ∨ (p.length = 1 ↔ q.length ≠ 1)

/-! ## §3 One write -/

/-- What a write of `v` at `p` makes of a context. -/
structure Written (c : Context) (p : Path) (v : Value) (d : Context) : Prop where
  reads : d.stored? p = some v
  keeps : ∀ q, Clear p q → d.stored? q = c.stored? q
  admits : ∀ q, p.Incomparable q → c.Admits q → d.Admits q
  opens : ∀ space entry a segment b, p = space :: entry :: (a ++ segment :: b) →
    ∃ fields, d.stored? (space :: entry :: a) = some (.mapping fields)
  wellFormed : c.WellFormed → v.WellFormed → d.WellFormed

theorem written_putAlias {c : Context} {name : String} (v : Value) :
    Written c [name] v (c.putAlias name v) where
  reads := Entries.get?_insert_self _ _ _
  keeps := by
    intro q clear
    match q with
    | [] => rfl
    | [other] =>
      have hn : name ≠ other := by
        rintro rfl
        rcases clear with apart | kinds
        · exact apart.1 List.prefix_rfl
        · simp at kinds
      exact Entries.get?_insert_ne _ hn
    | _ :: _ :: _ => rfl
  admits := by
    intro q _ hq
    match q with
    | [] => exact hq
    | [_] => exact hq
    | _ :: _ :: _ => exact hq
  opens := by
    intro space entry a segment b h
    cases h
  wellFormed := fun hc hv => hc.putAlias hv name

theorem stored?_putSlot_of_clear {c : Context} {space entry : String} {rest q : Path} {v : Value}
    (hp : c.Admits (space :: entry :: rest)) (clear : Clear (space :: entry :: rest) q)
    (state : SlotState) :
    (c.putSlot space entry ⟨(c.opened space entry).value.withAt rest v, state⟩).stored? q
      = c.stored? q := by
  match q with
  | [] => rfl
  | [_] => rfl
  | s :: e :: q =>
    by_cases hse : space = s ∧ entry = e
    · obtain ⟨rfl, rfl⟩ := hse
      have apart : Incomparable (space :: entry :: rest) (space :: entry :: q) := by
        rcases clear with apart | kinds
        · exact apart
        · simp at kinds
      have apart := incomparable_cons.mp (incomparable_cons.mp apart rfl) rfl
      cases q with
      | nil => exact absurd apart not_incomparable_nil_right
      | cons k q =>
        rw [stored?_below, stored?_below, opened, slot?_putSlot, if_pos ⟨rfl, rfl⟩]
        exact Value.at?_withAt_incomparable hp apart v
    · rw [stored?_entry, stored?_entry, slot?_putSlot, if_neg hse]

theorem admits_putSlot {c : Context} {space entry : String} {rest q : Path} {v : Value}
    (hp : c.Admits (space :: entry :: rest)) (apart : Incomparable (space :: entry :: rest) q)
    (hq : c.Admits q) (state : SlotState) :
    (c.putSlot space entry ⟨(c.opened space entry).value.withAt rest v, state⟩).Admits q := by
  match q with
  | [] => exact hq
  | [name] =>
    have hn : name ≠ space := by
      rintro rfl
      exact apart.2 ⟨entry :: rest, rfl⟩
    rw [admits_alias, isReserved_eq_false_iff] at hq ⊢
    refine ⟨hq.1, ?_⟩
    rw [mem_spaces_putSlot]
    rintro (h | h)
    · exact hn h
    · exact hq.2 h
  | s :: e :: q =>
    rw [admits_entry, opened, slot?_putSlot]
    by_cases hse : space = s ∧ entry = e
    · obtain ⟨rfl, rfl⟩ := hse
      have apart := incomparable_cons.mp (incomparable_cons.mp apart rfl) rfl
      rw [if_pos ⟨rfl, rfl⟩]
      exact Value.admits_withAt hp hq apart v
    · rw [if_neg hse]
      exact hq

theorem written_putSlot {c : Context} {space entry : String} {rest : Path} {v : Value}
    (hp : c.Admits (space :: entry :: rest)) (state : SlotState) :
    Written c (space :: entry :: rest) v
      (c.putSlot space entry ⟨(c.opened space entry).value.withAt rest v, state⟩) where
  reads := by
    rw [stored?_entry, slot?_putSlot, if_pos ⟨rfl, rfl⟩, Option.bind_some]
    exact Value.at?_withAt_self _ _ _
  keeps := fun _ clear => stored?_putSlot_of_clear hp clear state
  admits := fun _ apart hq => admits_putSlot hp apart hq state
  opens := by
    intro s e a segment b h
    cases h
    rw [stored?_entry, slot?_putSlot, if_pos ⟨rfl, rfl⟩, Option.bind_some]
    exact Value.at?_withAt_prefix _ a segment b v
  wellFormed := fun hc hv => hc.putSlot space entry ((hc.opened space entry).withAt hv rest)

/-- A write that the context admits succeeds. -/
theorem write_of_admits {c : Context} {p : Path} (h : c.Admits p) (state : SlotState)
    (v : Value) : ∃ d, c.write state v p = .ok d ∧ Written c p v d := by
  match p with
  | [] => exact absurd h id
  | [name] => exact ⟨_, write_alias h state v, written_putAlias v⟩
  | [space, entry] => exact ⟨_, write_slot c state v space entry, written_putSlot h state⟩
  | space :: entry :: segment :: rest =>
    refine ⟨_, ?_, written_putSlot h (c.opened space entry).state.touched⟩
    rw [write_below, Value.writeAt_eq_withAt h]
    rfl

/-! ## §4 Tags -/

/-- A tag leaves what is stored. -/
theorem stored?_retagSlot (c : Context) (space entry : String) (state : SlotState) (p : Path) :
    (c.retagSlot space entry state).stored? p = c.stored? p := by
  match p with
  | [] => rfl
  | [name] =>
    rw [stored?_alias, stored?_alias, aliases_retagSlot]
  | s :: e :: rest =>
    have value := map_value_retagSlot c space entry state s e
    rw [stored?_entry, stored?_entry]
    cases h : (c.retagSlot space entry state).slot? s e <;> cases h' : c.slot? s e <;>
      simp_all

theorem opened_retagSlot (c : Context) (space entry : String) (state : SlotState)
    (s e : String) :
    ((c.retagSlot space entry state).opened s e).value = (c.opened s e).value := by
  have value := map_value_retagSlot c space entry state s e
  unfold opened
  cases h : (c.retagSlot space entry state).slot? s e <;> cases h' : c.slot? s e <;>
    simp_all

/-- A tag leaves what may be written. -/
theorem admits_retagSlot {c : Context} {p : Path} (space entry : String) (state : SlotState)
    (h : c.Admits p) : (c.retagSlot space entry state).Admits p := by
  match p with
  | [] => exact h
  | [name] =>
    rw [admits_alias, isReserved_eq_false_iff] at h ⊢
    exact ⟨h.1, fun hs => h.2 (mem_spaces_retagSlot.mp hs)⟩
  | s :: e :: rest =>
    rw [admits_entry, opened_retagSlot]
    exact h

end Context

/-! ## §5 Replaying writes that do not touch -/

/-- The changes are not both writes, or writes at paths that do not touch. -/
def Change.Apart : Change → Change → Prop
  | .write p _, .write q _ => p.Incomparable q
  | _, _ => True

theorem Change.Apart.symm {a b : Change} (h : a.Apart b) : b.Apart a := by
  cases a with
  | write p v =>
    cases b with
    | write q w => exact Path.Incomparable.symm h
    | retag => trivial
  | retag => cases b <;> trivial

namespace Context

open Tabletop.Path

/-- The context stores what each write writes, with mappings on the way to it. -/
structure Holds (c : Context) (changes : List Change) : Prop where
  reads : ∀ p v, .write p v ∈ changes → c.stored? p = some v
  opens : ∀ space entry a segment b v, .write (space :: entry :: (a ++ segment :: b)) v ∈ changes →
    ∃ fields, c.stored? (space :: entry :: a) = some (.mapping fields)

/-- What changes whose writes do not touch make of a context. -/
structure Replayed (c : Context) (changes : List Change) (d : Context) : Prop
    extends Holds d changes where
  keeps : ∀ q, (∀ p v, .write p v ∈ changes → Clear p q) → d.stored? q = c.stored? q
  wellFormed : c.WellFormed → (∀ p v, .write p v ∈ changes → v.WellFormed) → d.WellFormed

theorem Replayed.nil (c : Context) : Replayed c [] c where
  reads := by simp
  keeps := fun _ _ => rfl
  opens := by simp
  wellFormed := fun h _ => h

/-- A write before changes that do not touch it. -/
theorem Replayed.write {c d r : Context} {p : Path} {v : Value} {changes : List Change}
    (first : Written c p v d) (rest : Replayed d changes r)
    (apart : ∀ q w, .write q w ∈ changes → p.Incomparable q) :
    Replayed c (.write p v :: changes) r where
  reads := by
    intro q w hw
    rcases List.mem_cons.mp hw with h | hw
    · cases h
      rw [rest.keeps p fun q w hw => Or.inl (apart q w hw).symm]
      exact first.reads
    · exact rest.reads q w hw
  keeps := by
    intro q hq
    rw [rest.keeps q fun p' v' h => hq p' v' (List.mem_cons_of_mem _ h),
      first.keeps q (hq p v List.mem_cons_self)]
  opens := by
    intro s e a segment b w hw
    rcases List.mem_cons.mp hw with h | hw
    · cases h
      -- a later write may go through the place too; if none does, the place is as the first left it
      by_cases clear : ∀ q w, .write q w ∈ changes → Clear q (s :: e :: a)
      · rw [rest.keeps _ clear]
        exact first.opens s e a segment b rfl
      · push Not at clear
        obtain ⟨q, w, hw, touches⟩ := clear
        have on : s :: e :: a <+: s :: e :: (a ++ segment :: b) := ⟨segment :: b, rfl⟩
        obtain ⟨k, b, rfl⟩ := (apart q w hw).goes_on on fun h => touches (Or.inl h)
        exact rest.opens s e a k b w hw
    · exact rest.opens s e a segment b w hw
  wellFormed := by
    intro hc hv
    refine rest.wellFormed (first.wellFormed hc (hv p v List.mem_cons_self)) ?_
    exact fun q w hw => hv q w (List.mem_cons_of_mem _ hw)

/-- A tag before changes. -/
theorem Replayed.retag {c r : Context} {space entry : String} {state : SlotState}
    {changes : List Change} (rest : Replayed (c.retagSlot space entry state) changes r) :
    Replayed c (.retag space entry state :: changes) r where
  reads := fun p v h => rest.reads p v (by simpa using h)
  keeps := by
    intro q hq
    rw [rest.keeps q fun p v h => hq p v (List.mem_cons_of_mem _ h), stored?_retagSlot]
  opens := fun s e a segment b v h => rest.opens s e a segment b v (by simpa using h)
  wellFormed := fun hc hv => rest.wellFormed (hc.retagSlot space entry state) fun p v h =>
    hv p v (List.mem_cons_of_mem _ h)

/-- Changes whose writes do not touch each other, all of them admitted, can be replayed. -/
theorem applyChanges_of_admits {c : Context} {changes : List Change}
    (apart : changes.Pairwise Change.Apart)
    (admits : ∀ p v, .write p v ∈ changes → c.Admits p) :
    ∃ d, c.applyChanges changes = .ok d ∧ Replayed c changes d := by
  induction changes generalizing c with
  | nil => exact ⟨c, rfl, .nil c⟩
  | cons change rest ih =>
    rw [List.pairwise_cons] at apart
    cases change with
    | write p v =>
      have clear : ∀ q w, .write q w ∈ rest → p.Incomparable q := fun q w h => apart.1 _ h
      obtain ⟨d, step, written⟩ := write_of_admits (admits p v List.mem_cons_self) .plain v
      have later : ∀ q w, .write q w ∈ rest → d.Admits q := fun q w h =>
        written.admits q (clear q w h) (admits q w (List.mem_cons_of_mem _ h))
      obtain ⟨r, steps, replayed⟩ := ih apart.2 later
      refine ⟨r, ?_, .write written replayed clear⟩
      simp only [applyChanges, applyChange, step]
      exact steps
    | retag space entry state =>
      have later : ∀ q w, .write q w ∈ rest → (c.retagSlot space entry state).Admits q :=
        fun q w h => admits_retagSlot space entry state (admits q w (List.mem_cons_of_mem _ h))
      obtain ⟨r, steps, replayed⟩ := ih apart.2 later
      exact ⟨r, steps, .retag replayed⟩

/-- Changes are applied one after the other. -/
theorem applyChanges_cons {c d : Context} {change : Change} {rest : List Change}
    (h : c.applyChanges (change :: rest) = .ok d) :
    ∃ m, c.applyChange change = .ok m ∧ m.applyChanges rest = .ok d := by
  unfold applyChanges at h
  cases hc : c.applyChange change with
  | error e =>
    rw [hc] at h
    cases h
  | ok m =>
    rw [hc] at h
    exact ⟨m, rfl, h⟩

/-- Changes are writes and tags. -/
theorem edits_applyChanges {c d : Context} {changes : List Change}
    (h : c.applyChanges changes = .ok d) : c.Edits d := by
  suffices ∀ base : Context, base.Edits c → base.Edits d from this c .refl
  intro base before
  induction changes generalizing c with
  | nil =>
    cases h
    exact before
  | cons change rest ih =>
    obtain ⟨m, one, others⟩ := applyChanges_cons h
    refine ih others ?_
    cases change with
    | write p v => exact before.write one
    | retag space entry state =>
      cases one
      exact before.retagSlot space entry state

end Context

end Tabletop
