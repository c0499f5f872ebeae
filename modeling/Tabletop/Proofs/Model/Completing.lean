/-
Tabletop.Proofs.Model.Completing — what a build leaves at each place.

A build fills in and then computes. Formulas write to the places of computed
attributes and nowhere else, so a plain attribute ends as it was filled in. If
filling in has nothing to report, every attribute has taken what it found and
every group holds a mapping. Fields that are complete in this sense, with
every attribute as its own conversion leaves it, are completed to themselves
(`completeGroup_again`).

  §1 Ways to the formulas
  §2 Places after a build
  §3 Completing twice
-/
import Tabletop.Proofs.Model.Computing
import Tabletop.Proofs.Model.Filling

namespace Tabletop

open Tabletop.Path

variable {coerce : AttributeDefinition → Value → Except InstantiationError Value}
  {attributes children : List (String × Attribute)} {fields : Fields} {r : Resolver}
  {node : Attribute} {d : AttributeDefinition} {p : Path} {v w : Value}

/-- The fields with everything filled in and computed, and what the formulas report. -/
def completeGroup (coerce : AttributeDefinition → Value → Except InstantiationError Value)
    (r : Resolver) (fields : Fields) (attributes : List (String × Attribute)) :
    Fields × List Violation :=
  computeFormulas r (groupFormulas [] attributes) (fillGroup coerce [] fields attributes).1

/-! ## §1 Ways to the formulas -/

/-- If the ways to the computed attributes are open, filling in makes mappings of them. -/
theorem ready_fillGroup (distinct : DistinctNames attributes)
    (ways : ∀ f ∈ groupFormulas [] attributes, (Value.mapping fields).Admits f.path) :
    Ready (fillGroup coerce [] fields attributes).1 (groupFormulas [] attributes) := by
  refine ⟨pairwise_groupFormulas distinct, fun f hf => ?_⟩
  obtain ⟨d, there, _⟩ := place_of_formula hf
  exact ⟨ne_nil_of_mem_places there, (filledAt_of_admits coerce [] distinct there (ways f hf)).1⟩

/-- Formulas leave what is filled in for a plain attribute. -/
theorem at?_completeGroup (distinct : DistinctNames attributes)
    (ready : Ready (fillGroup coerce [] fields attributes).1 (groupFormulas [] attributes))
    (there : (p, .leaf d) ∈ places attributes) (plain : d.derived = none) :
    (Value.mapping (completeGroup coerce r fields attributes).1).at? p
      = (Value.mapping (fillGroup coerce [] fields attributes).1).at? p :=
  at?_computeFormulas ready fun _ hf => incomparable_formula distinct there plain hf

/-- No formula's place leads to a group. -/
theorem not_formula_leads (distinct : DistinctNames attributes)
    (there : (p, .group children) ∈ places attributes) {f : Formula}
    (hf : f ∈ groupFormulas [] attributes) : ¬ f.path <+: p := by
  intro leads
  obtain ⟨d, leaf, _⟩ := place_of_formula hf
  obtain ⟨_, same⟩ := eq_of_leaf_leads distinct leaf there leads
  cases same

/-! ## §2 Places after a build -/

section Sound

variable (sound : (fillGroup coerce [] fields attributes).2 = [])
include sound

/-- If nothing is reported, the way to every node is open. -/
theorem admits_of_sound (distinct : DistinctNames attributes)
    (there : (p, node) ∈ places attributes) : (Value.mapping fields).Admits p := by
  refine admits_of_unreported coerce [] distinct there fun q _ _ => ?_
  rw [sound]
  exact List.not_mem_nil

theorem ready_of_sound (distinct : DistinctNames attributes) :
    Ready (fillGroup coerce [] fields attributes).1 (groupFormulas [] attributes) := by
  refine ready_fillGroup distinct fun f hf => ?_
  obtain ⟨d, there, _⟩ := place_of_formula hf
  exact admits_of_sound sound distinct there

/-- If nothing is reported, every attribute has taken what it found. -/
theorem fills_of_sound (distinct : DistinctNames attributes)
    (there : (p, .leaf d) ∈ places attributes) :
    d.Fills coerce ((Value.mapping fields).at? p)
      ((Value.mapping (fillGroup coerce [] fields attributes).1).at? p) := by
  obtain ⟨_, ⟨e, _, _, reported⟩ | taken⟩ := filledAt_of_admits coerce []
    distinct there (admits_of_sound sound distinct there)
  · rw [sound] at reported
    exact absurd reported List.not_mem_nil
  · exact taken

/-- Every group holds a mapping in the end. -/
theorem mapping_completeGroup (distinct : DistinctNames attributes)
    (there : (p, .group children) ∈ places attributes) :
    ∃ inner, (Value.mapping (completeGroup coerce r fields attributes).1).at? p
      = some (.mapping inner) := by
  obtain ⟨inner, found⟩ := mapping_fillGroup distinct sound there
  exact mapping_computeFormulas (ready_of_sound sound distinct)
    (fun _ hf => not_formula_leads distinct there hf) found

/-- There are mappings on the way to every attribute in the end. -/
theorem leads_completeGroup (distinct : DistinctNames attributes)
    (there : (p, .leaf d) ∈ places attributes) :
    (Value.mapping (completeGroup coerce r fields attributes).1).Leads p := by
  refine leads_computeFormulas (ready_of_sound sound distinct)
    (filledAt_of_admits coerce [] distinct there (admits_of_sound sound distinct there)).1 ?_
  intro f hf leads
  obtain ⟨own, leaf, _⟩ := place_of_formula hf
  exact (eq_of_leaf_leads distinct leaf there leads).1.symm

/-! ## §3 Completing twice -/

variable (solid : ∀ d v w, v ≠ .null → coerce d v = .ok w → w ≠ .null)
  (settled : ∀ p d v, (p, .leaf d) ∈ places attributes → d.derived = none →
    (Value.mapping (completeGroup coerce r fields attributes).1).at? p = some v → v ≠ .null →
    coerce d v = .ok v)
include solid settled

/-- If every value that an attribute has come to hold is converted into itself, filling in once more
changes nothing. -/
theorem fillGroup_completeGroup (distinct : DistinctNames attributes) :
    fillGroup coerce [] (completeGroup coerce r fields attributes).1 attributes
      = ((completeGroup coerce r fields attributes).1, []) := by
  refine fillGroup_of_filled distinct (fun p d there => ?_)
    fun p children there => mapping_completeGroup sound distinct there
  cases computed : d.derived with
  | some template => exact .computed (by rw [computed]; rfl)
  | none =>
    have settled := settled p d
    have taken := fills_of_sound sound distinct there
    have ready := ready_of_sound sound distinct
    rw [← at?_completeGroup (r := r) distinct ready there computed] at taken
    generalize (Value.mapping (completeGroup coerce r fields attributes).1).at? p = held
      at taken settled
    generalize (Value.mapping fields).at? p = found at taken
    cases taken with
    | computed => exact .computed ‹_›
    | missing plain unset empty => exact .missing plain unset empty
    | supplied plain full taken =>
      have full := solid d _ _ full taken
      exact .supplied plain full (settled _ there plain rfl full)
    | @default _ filling plain _ filler =>
      by_cases null : filling = .null
      · exact .default plain (Or.inr (congrArg some null)) filler
      · exact .supplied plain null (settled _ there plain rfl null)

/-- Such fields are completed to themselves if the formulas are in order. -/
theorem completeGroup_again (distinct : DistinctNames attributes)
    (ordered : InOrder r (fun _ => True) (groupFormulas [] attributes)) :
    completeGroup coerce r (completeGroup coerce r fields attributes).1 attributes
      = completeGroup coerce r fields attributes := by
  have still := fillGroup_completeGroup sound solid settled distinct
  conv_lhs => rw [completeGroup, still]
  exact computeFormulas_again (ready_of_sound sound distinct) ordered

end Sound

end Tabletop
