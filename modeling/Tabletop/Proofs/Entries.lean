/-
Tabletop.Proofs.Entries — lookup and membership in lists of entries.

`get?` takes the first entry of a key. Where the keys are distinct, that is
the only one, and looking a key up is the same as finding it in the list.
Writing keeps keys distinct, so every list that a program builds is of this
kind.

  §1 Lookup and membership
  §2 Distinct keys
  §3 Entries laid over others
-/
import Tabletop.Entries
import Mathlib.Data.List.Nodup
import Mathlib.Data.List.Perm.Subperm

namespace Tabletop

namespace Entries

variable {α β : Type}

/-! ## §1 Lookup and membership -/

theorem get?_eq_none_iff {entries : Entries α} {key : String} :
    get? entries key = none ↔ key ∉ keys entries := by
  rw [← has_iff_mem_keys, has]
  cases get? entries key <;> simp

theorem isSome_get?_iff {entries : Entries α} {key : String} :
    (get? entries key).isSome = true ↔ key ∈ keys entries := has_iff_mem_keys

theorem mem_of_get? : {entries : Entries α} → {key : String} → {v : α} →
    get? entries key = some v → (key, v) ∈ entries
  | [], _, _, h => by simp at h
  | (k, w) :: rest, key, v, h => by
    rw [get?_cons] at h
    by_cases hk : k = key
    · rw [if_pos hk] at h
      cases h
      rw [hk]
      exact List.mem_cons_self
    · rw [if_neg hk] at h
      exact List.mem_cons_of_mem _ (mem_of_get? h)

/-- An entry gives a key to the list. -/
theorem mem_keys_of_mem {entries : Entries α} {e : String × α} (h : e ∈ entries) :
    e.1 ∈ keys entries := List.mem_map_of_mem h

/-- Looking up after changing the values is changing what is looked up. -/
theorem get?_map (f : α → β) (entries : Entries α) (key : String) :
    get? (entries.map fun e => (e.1, f e.2)) key = (get? entries key).map f := by
  induction entries with
  | nil => rfl
  | cons e rest ih =>
    obtain ⟨k, v⟩ := e
    rw [List.map_cons, get?_cons, get?_cons, ih]
    by_cases h : k = key <;> simp [h]

/-- An entry after a write is the one that was written or one from before. -/
theorem mem_insert {entries : Entries α} {key : String} {v : α} {e : String × α}
    (h : e ∈ insert entries key v) : e = (key, v) ∨ e ∈ entries := by
  induction entries with
  | nil => exact Or.inl (List.mem_singleton.mp h)
  | cons a rest ih =>
    obtain ⟨k, w⟩ := a
    unfold insert at h
    by_cases hk : k = key
    · rw [if_pos hk] at h
      rcases List.mem_cons.mp h with he | he
      · exact Or.inl (by rw [he, hk])
      · exact Or.inr (List.mem_cons_of_mem _ he)
    · rw [if_neg hk] at h
      rcases List.mem_cons.mp h with he | he
      · exact Or.inr (by rw [he]; exact List.mem_cons_self)
      · rcases ih he with he | he
        · exact Or.inl he
        · exact Or.inr (List.mem_cons_of_mem _ he)

/-- The keys after a write. -/
theorem mem_keys_insert {entries : Entries α} {key other : String} {v : α} :
    other ∈ keys (insert entries key v) ↔ other = key ∨ other ∈ keys entries := by
  rw [← has_iff_mem_keys, ← has_iff_mem_keys, has, has, get?_insert]
  by_cases h : key = other
  · simp [h]
  · simp [h, Ne.symm h]

/-- How many entries there are after a write does not depend on what is written. -/
theorem length_insert (entries : Entries α) (key : String) (v w : α) :
    (insert entries key v).length = (insert entries key w).length := by
  have same : keys (insert entries key v) = keys (insert entries key w) := by
    rw [keys_insert, keys_insert]
  simpa [keys] using congrArg List.length same

/-! ## §2 Distinct keys -/

/-- The keys are distinct. -/
def NodupKeys (entries : Entries α) : Prop := (keys entries).Nodup

instance (entries : Entries α) : Decidable (NodupKeys entries) :=
  inferInstanceAs (Decidable (keys entries).Nodup)

theorem nodupKeys_nil : NodupKeys ([] : Entries α) := List.nodup_nil

theorem NodupKeys.tail {e : String × α} {rest : Entries α} (h : NodupKeys (e :: rest)) :
    NodupKeys rest := (List.nodup_cons.mp h).2

theorem NodupKeys.head {e : String × α} {rest : Entries α} (h : NodupKeys (e :: rest)) :
    e.1 ∉ keys rest := (List.nodup_cons.mp h).1

/-- Writing keeps keys distinct. -/
theorem NodupKeys.insert {entries : Entries α} (h : NodupKeys entries) (key : String) (v : α) :
    NodupKeys (insert entries key v) := by
  unfold NodupKeys
  rw [keys_insert]
  by_cases hk : has entries key = true
  · rw [if_pos hk]
    exact h
  · rw [if_neg hk]
    rw [has_iff_mem_keys] at hk
    exact List.nodup_append.mpr ⟨h, List.nodup_singleton key, by
      intro a ha b hb
      rw [List.mem_singleton.mp hb]
      intro hab
      exact hk (hab ▸ ha)⟩

/-- With distinct keys an entry is what its key looks up. -/
theorem NodupKeys.get?_of_mem {entries : Entries α} (h : NodupKeys entries) {key : String} {v : α}
    (hm : (key, v) ∈ entries) : get? entries key = some v := by
  induction entries with
  | nil => exact absurd hm List.not_mem_nil
  | cons e rest ih =>
    obtain ⟨k, w⟩ := e
    rw [get?_cons]
    rcases List.mem_cons.mp hm with he | he
    · cases he
      exact if_pos rfl
    · have hk : k ≠ key := by
        intro hk
        have hin : key ∈ keys rest := mem_keys_of_mem he
        exact h.head (hk ▸ hin)
      rw [if_neg hk]
      exact ih h.tail he

/-- With distinct keys the entry of a key stands between entries of other keys. -/
theorem NodupKeys.around {entries : Entries α} (h : NodupKeys entries) {key : String} {v : α}
    (hv : get? entries key = some v) :
    ∃ few more, entries = few ++ (key, v) :: more ∧ ∀ e ∈ few ++ more, e.1 ≠ key := by
  obtain ⟨few, more, rfl⟩ := List.append_of_mem (mem_of_get? hv)
  refine ⟨few, more, rfl, ?_⟩
  have distinct : (few.map Prod.fst ++ key :: more.map Prod.fst).Nodup := by
    simpa [NodupKeys, keys] using h
  intro e he hk
  refine (List.nodup_cons.mp (List.nodup_middle.mp distinct)).1 ?_
  rw [← List.map_append, ← hk]
  exact List.mem_map_of_mem he

/-- Entries with distinct keys that are laid over others come first in lookups. -/
theorem NodupKeys.get?_override {top : Entries α} (h : NodupKeys top) (base : Entries α)
    (key : String) : get? (override base top) key = (get? top key).or (get? base key) := by
  induction top generalizing base with
  | nil => rfl
  | cons e rest ih =>
    obtain ⟨k, v⟩ := e
    have step : override base ((k, v) :: rest) = override (Entries.insert base k v) rest := rfl
    rw [step, ih h.tail, get?_insert, get?_cons]
    by_cases hk : k = key
    · subst hk
      have once : get? rest k = none := get?_eq_none_iff.mpr h.head
      rw [once, if_pos rfl, if_pos rfl]
      rfl
    · rw [if_neg hk, if_neg hk]

/-- Lists with the same distinct keys are equally long. -/
theorem NodupKeys.length_eq {a : Entries α} {b : Entries β} (ha : NodupKeys a) (hb : NodupKeys b)
    (h : ∀ key, key ∈ keys a ↔ key ∈ keys b) : a.length = b.length := by
  have perm : (keys a).Perm (keys b) := (List.perm_ext_iff_of_nodup ha hb).mpr h
  have length := perm.length_eq
  simpa [keys] using length

/-- A list with distinct keys that is no shorter than another and whose keys are all in the other
has every key of the other. -/
theorem NodupKeys.subset_of_length {a : Entries α} {b : Entries β} (ha : NodupKeys a)
    (hsub : ∀ key ∈ keys a, key ∈ keys b) (hlen : b.length ≤ a.length) :
    ∀ key ∈ keys b, key ∈ keys a := by
  have sub : (keys a).Subperm (keys b) := List.subperm_of_subset ha hsub
  have perm : (keys a).Perm (keys b) := sub.perm_of_length_le (by simpa [keys] using hlen)
  exact fun key hk => perm.mem_iff.mpr hk

/-! ## §3 Entries laid over others

Writing an entry list over another one is a sequence of writes, and what the writes of a list leave
behind stands for all of them: laying it over a third list has the same effect as making the writes
there, in values and in the order of keys. -/

section Override

variable {base mid top : Entries α} {key other : String} {v w : α}

theorem override_cons (base rest : Entries α) (key : String) (v : α) :
    override base ((key, v) :: rest) = override (insert base key v) rest := rfl

/-- The keys of both lists are the keys in the end. -/
theorem mem_keys_override : key ∈ keys (override base top) ↔ key ∈ keys base ∨ key ∈ keys top := by
  induction top generalizing base with
  | nil => simp [override, keys]
  | cons e rest ih =>
    obtain ⟨k, v⟩ := e
    rw [override_cons, ih, mem_keys_insert]
    simp only [keys, List.map_cons, List.mem_cons]
    tauto

theorem NodupKeys.override (h : NodupKeys base) (top : Entries α) :
    NodupKeys (override base top) := by
  induction top generalizing base with
  | nil => exact h
  | cons e rest ih => exact ih (h.insert e.1 e.2)

/-- Of two writes of one key the second counts. -/
theorem insert_insert_self (base : Entries α) (key : String) (v w : α) :
    insert (insert base key v) key w = insert base key w := by
  induction base with
  | nil => simp [insert]
  | cons e rest ih =>
    obtain ⟨k, u⟩ := e
    by_cases hk : k = key <;> simp [insert, hk, ih]

/-- A write of a known key may be made before a write of another key. -/
theorem insert_comm (known : key ∈ keys base) (hne : key ≠ other) (v w : α) :
    insert (insert base other w) key v = insert (insert base key v) other w := by
  induction base with
  | nil => exact absurd known List.not_mem_nil
  | cons e rest ih =>
    obtain ⟨k, u⟩ := e
    by_cases hk : k = key
    · subst hk
      simp [insert, hne]
    · have later : key ∈ keys rest := (List.mem_cons.mp known).resolve_left (Ne.symm hk)
      by_cases ho : k = other <;> simp [insert, hk, ho, hne.symm, ih later]

/-- A write of a known key may be made before the list is laid over that does not write it. -/
theorem override_insert_of_not_mem (known : key ∈ keys base) (absent : key ∉ keys top) (v : α) :
    override (insert base key v) top = insert (override base top) key v := by
  induction top generalizing base with
  | nil => rfl
  | cons e rest ih =>
    obtain ⟨k, u⟩ := e
    obtain ⟨hne, later⟩ : key ≠ k ∧ key ∉ keys rest := by simpa [keys] using absent
    rw [override_cons, override_cons, ← insert_comm known hne,
      ih (mem_keys_insert.mpr (Or.inr known)) later]

/-- A write into the list on top is a write made after it. -/
theorem NodupKeys.override_insert (h : NodupKeys top) (base : Entries α) (key : String) (v : α) :
    Entries.override base (Entries.insert top key v)
      = Entries.insert (Entries.override base top) key v := by
  induction top generalizing base with
  | nil => rfl
  | cons e rest ih =>
    obtain ⟨k, u⟩ := e
    by_cases hk : k = key
    · subst hk
      have known : k ∈ keys (Entries.insert base k u) := mem_keys_insert.mpr (Or.inl rfl)
      have step : Entries.insert ((k, u) :: rest) k v = (k, v) :: rest := by simp [Entries.insert]
      rw [step, override_cons, override_cons, ← override_insert_of_not_mem known h.head,
        insert_insert_self]
    · have step : Entries.insert ((k, u) :: rest) key v = (k, u) :: Entries.insert rest key v := by
        simp [Entries.insert, hk]
      rw [step, override_cons, override_cons, ih h.tail]

/-- Laying a list over the middle one first makes no difference. -/
theorem NodupKeys.override_override (h : NodupKeys mid) (base top : Entries α) :
    Entries.override base (Entries.override mid top)
      = Entries.override (Entries.override base mid) top := by
  induction top generalizing mid with
  | nil => rfl
  | cons e rest ih =>
    obtain ⟨k, u⟩ := e
    rw [override_cons, override_cons, ih (h.insert k u), h.override_insert]

end Override

end Entries

end Tabletop
