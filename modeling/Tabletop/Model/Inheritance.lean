/-
Tabletop.Model.Inheritance — the attributes of a model with those it inherits.

The attributes of the parents come first, in the order in which the model
names them, and the model's own attributes last; a later definition of an
attribute wins and keeps the place of the first. A parent that is not in
the catalog is left out, and so is one that is being worked on already, so
cycles do no harm.

`inherited` walks the parents with the models that may still be entered:
entering a model takes it out for everything below it. As many levels as
there are models are therefore never used up; with none left there is no
model to enter (`inherited_levels`).
-/
import Tabletop.Catalog

namespace Tabletop

/-- `merged` with the attributes of each parent in turn, those that the parent inherits before its
own. `enterable` holds the models that may still be entered, at most `levels` of them inside one
another. -/
def inherited : (levels : Nat) → (enterable : Entries Model) → (parents : List String) →
    (merged : Attributes) → Attributes
  | 0, _, _, merged => merged
  | levels + 1, enterable, parents, merged =>
      parents.foldl (fun merged p =>
        match Entries.get? enterable p with
        | none => merged
        | some m =>
            let above := inherited levels (Entries.erase enterable p) m.parents merged
            Entries.override above m.attributes) merged

/-- Taking out a key that is there makes the entries fewer. -/
theorem Entries.length_erase_lt {α : Type} {entries : Entries α} {key : String} {value : α}
    (h : Entries.get? entries key = some value) :
    (Entries.erase entries key).length < entries.length := by
  induction entries with
  | nil => simp at h
  | cons e rest ih =>
    obtain ⟨k, v⟩ := e
    by_cases hk : k = key
    · have step : Entries.erase ((k, v) :: rest) key = Entries.erase rest key := by
        simp [Entries.erase, hk]
      have le : (Entries.erase rest key).length ≤ rest.length := List.length_filter_le _ _
      rw [step, List.length_cons]
      omega
    · have step : Entries.erase ((k, v) :: rest) key = (k, v) :: Entries.erase rest key := by
        simp [Entries.erase, hk]
      have := ih (by simpa [hk] using h)
      simpa [step] using this

/-- One level for each model that may be entered is enough. -/
theorem inherited_levels {levels : Nat} {enterable : Entries Model}
    (enough : enterable.length ≤ levels) (parents : List String) (merged : Attributes) :
    inherited (levels + 1) enterable parents merged = inherited levels enterable parents merged := by
  induction levels generalizing enterable parents merged with
  | zero =>
    have nothing : enterable = [] := List.length_eq_zero_iff.mp (Nat.le_zero.mp enough)
    subst nothing
    have skip : ∀ merged : Attributes, parents.foldl (fun merged _ => merged) merged = merged := by
      induction parents with
      | nil => exact fun _ => rfl
      | cons p rest ih => exact ih
    exact skip merged
  | succ levels ih =>
    unfold inherited
    congr 1
    funext merged p
    cases found : Entries.get? enterable p with
    | none => rfl
    | some m =>
      have fewer : (Entries.erase enterable p).length ≤ levels := by
        have := Entries.length_erase_lt found
        omega
      simp only [ih fewer]

/-- The attribute tree of a model, with the attributes it inherits. -/
def Catalog.attributes? (c : Catalog) (id : String) : Option Attributes :=
  (c.model? id).map fun m =>
    let enterable := Entries.erase c.models id
    Entries.override (inherited enterable.length enterable m.parents []) m.attributes

end Tabletop
