/-
Tabletop.Proofs.Model.Named — objects name their model.

An object starts with the id of its model under `model`. Filling in and
computing touch only fields of the attribute tree, so the id stays, unless
the model has an attribute of that name.

  §1 Filling in
  §2 Formulas
  §3 Objects
-/
import Tabletop.Model.Instantiate
import Tabletop.Proofs.Entries

namespace Tabletop

variable {key : String}

/-! ## §1 Filling in -/

theorem get?_fillLeaf (coerce : AttributeDefinition → Value → Except InstantiationError Value)
    (path : Path) {name : String} (d : AttributeDefinition) (fields : Fields) (h : name ≠ key) :
    Entries.get? (fillLeaf coerce path name d fields).1 key = Entries.get? fields key := by
  unfold fillLeaf
  split
  · rfl
  · split
    · split
      · exact Entries.get?_insert_ne _ h
      · rfl
    · split
      · exact Entries.get?_insert_ne _ h
      · rfl

theorem get?_fill (coerce : AttributeDefinition → Value → Except InstantiationError Value)
    (parent : Path) {name : String} (fields : Fields) (node : Attribute) (h : name ≠ key) :
    Entries.get? (node.fill coerce parent name fields).1 key = Entries.get? fields key := by
  cases node with
  | leaf d =>
    rw [Attribute.fill]
    exact get?_fillLeaf coerce _ d fields h
  | group children =>
    rw [Attribute.fill]
    split
    · exact Entries.get?_insert_ne _ h
    · rfl

/-- Filling in a group leaves the fields alone that are none of its attributes. -/
theorem get?_fillGroup (coerce : AttributeDefinition → Value → Except InstantiationError Value)
    (parent : Path) (fields : Fields) {attributes : Attributes}
    (h : key ∉ Entries.keys attributes) :
    Entries.get? (fillGroup coerce parent fields attributes).1 key = Entries.get? fields key := by
  induction attributes generalizing fields with
  | nil => rw [fillGroup]
  | cons entry rest ih =>
    obtain ⟨name, node⟩ := entry
    obtain ⟨other, none_later⟩ : name ≠ key ∧ key ∉ Entries.keys rest := by
      simpa [Entries.keys, eq_comm] using h
    rw [fillGroup]
    exact (ih _ none_later).trans (get?_fill coerce parent fields node other)

/-! ## §2 Formulas -/

mutual

/-- The formulas of a node compute places below it. -/
theorem path_of_mem_formulas (parent : Path) (name : String) : (node : Attribute) →
    ∀ f ∈ node.formulas parent name, ∃ rest, f.path = parent ++ name :: rest
  | .leaf d => by
    intro f hf
    rw [Attribute.formulas] at hf
    split at hf
    · rw [List.mem_singleton.mp hf]
      exact ⟨[], rfl⟩
    · exact absurd hf List.not_mem_nil
  | .group children => by
    intro f hf
    rw [Attribute.formulas] at hf
    obtain ⟨inner, _, rest, hp⟩ := path_of_mem_groupFormulas (parent ++ [name]) children f hf
    exact ⟨inner :: rest, by rw [hp, List.append_assoc, List.singleton_append]⟩

/-- The formulas of a group compute places below its attributes. -/
theorem path_of_mem_groupFormulas (parent : Path) : (attributes : List (String × Attribute)) →
    ∀ f ∈ groupFormulas parent attributes,
      ∃ name ∈ Entries.keys attributes, ∃ rest, f.path = parent ++ name :: rest
  | [] => by
    intro f hf
    rw [groupFormulas] at hf
    exact absurd hf List.not_mem_nil
  | (name, node) :: rest => by
    intro f hf
    rw [groupFormulas] at hf
    rcases List.mem_append.mp hf with hf | hf
    · obtain ⟨below, hp⟩ := path_of_mem_formulas parent name node f hf
      exact ⟨name, List.mem_cons_self, below, hp⟩
    · obtain ⟨other, there, below, hp⟩ := path_of_mem_groupFormulas parent rest f hf
      exact ⟨other, List.mem_cons_of_mem _ there, below, hp⟩

end

theorem get?_insertAt (fields : Fields) {name : String} (rest : Path) (v : Value)
    (h : name ≠ key) : Entries.get? (insertAt fields (name :: rest) v) key
      = Entries.get? fields key := by
  cases rest with
  | nil => exact Entries.get?_insert_ne _ h
  | cons next more => exact Entries.get?_insert_ne _ h

/-- Computing leaves the fields alone to which no formula leads. -/
theorem get?_computeFormulas (r : Resolver) {formulas : List Formula} (fields : Fields)
    (h : ∀ f ∈ formulas, ∃ name rest, f.path = name :: rest ∧ name ≠ key) :
    Entries.get? (computeFormulas r formulas fields).1 key = Entries.get? fields key := by
  induction formulas generalizing fields with
  | nil => rfl
  | cons f rest ih =>
    rw [List.forall_mem_cons] at h
    obtain ⟨⟨name, below, hp, other⟩, h⟩ := h
    rw [computeFormulas]
    split
    · rw [ih _ h, hp, get?_insertAt fields below _ other]
    · exact ih fields h

/-! ## §3 Objects -/

/-- The objects of the model name it. -/
def Instantiator.Labels (make : Instantiator) (model : String) : Prop :=
  ∀ v object, make.instantiate model v = .ok object ∨ make.instantiateLenient model v = .ok object →
    object.value.field? "model" = some (.text model)

theorem get?_dataFields {model : String} {data : Value} {fields : Fields}
    (h : dataFields model data = .ok fields) :
    Entries.get? fields "model" = some (.text model) := by
  cases data with
  | null | mapping =>
    cases h
    exact Entries.get?_insert_self _ _ _
  | _ => cases h

/-- An object that is built names its model. -/
theorem get?_buildObject {c : Catalog} {r : Resolver} {strict : Bool} {levels : Nat}
    {model : String} {data : Value} {object : ModelObject} {attributes : Attributes}
    (h : buildObject c r strict levels model data = .ok object)
    (tree : c.attributes? model = some attributes) (free : "model" ∉ Entries.keys attributes) :
    Entries.get? object.fields "model" = some (.text model) := by
  cases levels with
  | zero => cases h
  | succ levels =>
    rw [buildObject, tree] at h
    split at h
    · rename_i m _ _ same
      cases same
      cases begun : dataFields model data with
      | error e =>
        rw [begun] at h
        cases h
      | ok fields =>
        rw [begun] at h
        have formulas : ∀ f ∈ groupFormulas [] attributes,
            ∃ name rest, f.path = name :: rest ∧ name ≠ "model" := by
          intro f hf
          obtain ⟨name, there, rest, hp⟩ :=
            path_of_mem_groupFormulas [] attributes f hf
          exact ⟨name, rest, hp, fun same => free (same ▸ there)⟩
        have kept : ∀ coerce, Entries.get? (computeFormulas r (groupFormulas [] attributes)
            (fillGroup coerce [] fields attributes).1).1 "model" = some (.text model) := by
          intro coerce
          rw [get?_computeFormulas r _ formulas, get?_fillGroup coerce [] fields free,
            get?_dataFields begun]
        cases strict with
        | true =>
          change (if _ then Except.ok _ else Except.error _) = _ at h
          split at h
          · cases h
            exact kept _
          · cases h
        | false =>
          cases h
          exact kept _
    · cases h

/-- The objects of a model without an attribute `model` name it. -/
theorem Catalog.instantiator_labels {c : Catalog} (r : Resolver) {model : String}
    {attributes : Attributes} (tree : c.attributes? model = some attributes)
    (free : "model" ∉ Entries.keys attributes) : (c.instantiator r).Labels model := by
  rintro v object (h | h)
  · exact get?_buildObject h tree free
  · exact get?_buildObject h tree free

end Tabletop
