/-
Tabletop.Entries — mappings that remember the order of their keys.

A mapping is a list of keys with values. A key that is written again keeps
its place; a new key goes to the end. Lookup takes the first entry of a
key, so it is well defined on every list; `insert` keeps keys distinct.

  §1 Operations
  §2 What each operation does to lookup
-/

namespace Tabletop

/-- Keys with values, in the order of insertion. -/
abbrev Entries (α : Type) := List (String × α)

namespace Entries

variable {α : Type}

/-! ## §1 Operations -/

/-- The value of a key. -/
def get? : Entries α → String → Option α
  | [], _ => none
  | (k, v) :: rest, key => if k = key then some v else get? rest key

/-- The key has a value. -/
def has (entries : Entries α) (key : String) : Bool := (get? entries key).isSome

/-- The keys in order. -/
def keys (entries : Entries α) : List String := entries.map (·.1)

/-- Gives `key` the value `value`. A known key keeps its place, a new one goes to the end. -/
def insert : Entries α → String → α → Entries α
  | [], key, value => [(key, value)]
  | (k, v) :: rest, key, value =>
      if k = key then (k, value) :: rest else (k, v) :: insert rest key value

/-- Gives `key` the value `value` unless it has one. -/
def insertNew (entries : Entries α) (key : String) (value : α) : Entries α :=
  if has entries key then entries else insert entries key value

/-- The entries without those of `key`. -/
def erase (entries : Entries α) (key : String) : Entries α :=
  entries.filter fun e => e.1 ≠ key

/-- `base` with the entries of `top` inserted in order. -/
def override (base top : Entries α) : Entries α :=
  top.foldl (fun acc e => insert acc e.1 e.2) base

/-- The entries with each key once: at its first place, with its last value. -/
def distinct (entries : Entries α) : Entries α := override [] entries

/-! ## §2 What each operation does to lookup -/

@[simp] theorem get?_nil (key : String) : get? ([] : Entries α) key = none := rfl

@[simp] theorem get?_cons (k : String) (v : α) (rest : Entries α) (key : String) :
    get? ((k, v) :: rest) key = if k = key then some v else get? rest key := rfl

theorem get?_insert (entries : Entries α) (key : String) (value : α) (other : String) :
    get? (insert entries key value) other
      = if key = other then some value else get? entries other := by
  induction entries with
  | nil => simp [insert]
  | cons e rest ih =>
    obtain ⟨k, v⟩ := e
    by_cases h : k = key
    · subst h
      by_cases h2 : k = other <;> simp [insert, h2]
    · by_cases h2 : k = other
      · subst h2
        simp [insert, h, Ne.symm h]
      · simp [insert, h, h2, ih]

@[simp] theorem get?_insert_self (entries : Entries α) (key : String) (value : α) :
    get? (insert entries key value) key = some value := by
  simp [get?_insert]

theorem get?_insert_ne {entries : Entries α} {key other : String} (value : α) (h : key ≠ other) :
    get? (insert entries key value) other = get? entries other := by
  simp [get?_insert, h]

theorem get?_erase (entries : Entries α) (key other : String) :
    get? (erase entries key) other = if key = other then none else get? entries other := by
  induction entries with
  | nil => simp [erase]
  | cons e rest ih =>
    obtain ⟨k, v⟩ := e
    by_cases h : k = key
    · have step : erase ((k, v) :: rest) key = erase rest key := by simp [erase, h]
      rw [step, ih]
      by_cases h2 : key = other <;> simp [h, h2]
    · have step : erase ((k, v) :: rest) key = (k, v) :: erase rest key := by simp [erase, h]
      rw [step, get?_cons, ih]
      by_cases h2 : k = other
      · subst h2
        simp [Ne.symm h]
      · simp [h2]

/-- A key is known exactly when it is among the keys. -/
theorem has_iff_mem_keys {entries : Entries α} {key : String} :
    has entries key = true ↔ key ∈ keys entries := by
  induction entries with
  | nil => simp [has, keys]
  | cons e rest ih =>
    obtain ⟨k, v⟩ := e
    by_cases h : k = key
    · simp [has, keys, h]
    · simp only [has, keys] at ih
      simp [has, keys, h, ih, Ne.symm h]

/-- Writing a known key leaves the keys as they are; a new key goes to the end. -/
theorem keys_insert (entries : Entries α) (key : String) (value : α) :
    keys (insert entries key value)
      = if has entries key then keys entries else keys entries ++ [key] := by
  induction entries with
  | nil => simp [insert, has, keys]
  | cons e rest ih =>
    obtain ⟨k, v⟩ := e
    by_cases h : k = key
    · simp [insert, has, keys, h]
    · have hk : has ((k, v) :: rest) key = has rest key := by simp [has, h]
      have step : keys (insert ((k, v) :: rest) key value)
          = k :: keys (insert rest key value) := by simp [insert, h, keys]
      rw [step, ih, hk]
      by_cases h2 : has rest key = true <;> simp [h2, keys]

end Entries

end Tabletop
