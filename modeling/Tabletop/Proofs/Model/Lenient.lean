/-
Tabletop.Proofs.Model.Lenient — strict and lenient builds of one object.

Both builds go the same way: they fill in, convert and compute alike, and
only a conversion can come out differently, where a nested object is refused
or let through. A strict build that succeeds has found no violation, so all
of its conversions have succeeded, and by induction on the nesting the
lenient build has converted the same values to the same. What a lenient build
refuses is refused before anything is filled in.

  §1 Conversions
  §2 Filling in without violations
  §3 Builds
-/
import Tabletop.Model.Instantiate
import Tabletop.Proofs.Traversal

namespace Tabletop

variable {strict lenient : AttributeDefinition → Value → Except InstantiationError Value}

/-! ## §1 Conversions -/

/-- What the first conversion succeeds with, the second one does. -/
def Converts (strict lenient : AttributeDefinition → Value → Except InstantiationError Value) :
    Prop :=
  ∀ d v w, strict d v = .ok w → lenient d v = .ok w

section Attributes

variable {isModel : String → Bool}
  {build other : String → Value → Except InstantiationError Value}

theorem coerceTyped_of_agree (agree : ∀ id v w, build id v = .ok w → other id v = .ok w)
    {typeName : String} {v w : Value} (h : coerceTyped isModel build typeName v = .ok w) :
    coerceTyped isModel other typeName v = .ok w := by
  unfold coerceTyped at h ⊢
  split
  · rwa [if_pos ‹_›] at h
  · rw [if_neg ‹_›] at h
    split
    · rw [if_pos ‹_›] at h
      exact agree typeName v w h
    · rwa [if_neg ‹_›] at h

/-- Conversions of attributes agree if the builds of nested objects do, also inside lists. -/
theorem converts_coerceAttribute (agree : ∀ id v w, build id v = .ok w → other id v = .ok w) :
    Converts (coerceAttribute isModel build) (coerceAttribute isModel other) := by
  intro d v w h
  unfold coerceAttribute at h ⊢
  split
  · rw [if_pos ‹_›] at h
    exact coerceTyped_of_agree agree h
  · rw [if_neg ‹_›] at h
    split at h
    · rename_i items element _ _
      obtain ⟨ws, converted, same⟩ := map_eq_ok_iff.mp h
      exact map_eq_ok_iff.mpr
        ⟨ws, mapM_of_agree (fun _ _ => coerceTyped_of_agree agree) converted, same⟩
    · exact h

end Attributes

/-! ## §2 Filling in without violations -/

theorem fillLeaf_of_no_violation (agree : Converts strict lenient) {path : Path} {name : String}
    {d : AttributeDefinition} {fields : Fields}
    (none : (fillLeaf strict path name d fields).2 = []) :
    fillLeaf lenient path name d fields = fillLeaf strict path name d fields := by
  unfold fillLeaf at none ⊢
  split
  · rfl
  · rw [if_neg ‹_›] at none
    cases present : presentField? fields name with
    | none => rfl
    | some v =>
      simp only [present] at none ⊢
      cases converted : strict d v with
      | ok w => rw [agree d v w converted]
      | error e =>
        simp only [converted] at none
        cases none

/-- The nodes of a group are filled in one after the other. -/
theorem fillGroup_cons (coerce : AttributeDefinition → Value → Except InstantiationError Value)
    (parent : Path) (fields : Fields) (name : String) (node : Attribute)
    (rest : List (String × Attribute)) :
    fillGroup coerce parent fields ((name, node) :: rest)
      = let here := node.fill coerce parent name fields
        let after := fillGroup coerce parent here.1 rest
        (after.1, here.2 ++ after.2) := by
  rw [fillGroup]

/-- A group is filled in inside the mapping that is there, or inside a new one. -/
theorem fill_group_of_mapping
    (coerce : AttributeDefinition → Value → Except InstantiationError Value) (parent : Path)
    {name : String} {fields inner : Fields} (children : List (String × Attribute))
    (h : (presentField? fields name).getD (.mapping []) = .mapping inner) :
    (Attribute.group children).fill coerce parent name fields
      = let filled := fillGroup coerce (parent ++ [name]) inner children
        (Entries.insert fields name (.mapping filled.1), filled.2) := by
  rw [Attribute.fill]
  simp only [h]

mutual

theorem fill_of_no_violation (agree : Converts strict lenient) (parent : Path) (name : String)
    (fields : Fields) : (node : Attribute) →
    (node.fill strict parent name fields).2 = [] →
    node.fill lenient parent name fields = node.fill strict parent name fields
  | .leaf d => by
    intro sound
    rw [Attribute.fill] at sound
    rw [Attribute.fill, Attribute.fill]
    exact fillLeaf_of_no_violation agree sound
  | .group children => by
    intro sound
    cases there : (presentField? fields name).getD (.mapping []) with
    | mapping inner =>
      rw [fill_group_of_mapping strict parent children there] at sound
      rw [fill_group_of_mapping strict parent children there,
        fill_group_of_mapping lenient parent children there,
        fillGroup_of_no_violations agree (parent ++ [name]) inner children sound]
    | _ =>
      rw [Attribute.fill, Attribute.fill]
      simp only [there]

/-- Where one conversion fills in a group without a violation, a more lenient one gives the same. -/
theorem fillGroup_of_no_violations (agree : Converts strict lenient) (parent : Path)
    (fields : Fields) : (attributes : List (String × Attribute)) →
    (fillGroup strict parent fields attributes).2 = [] →
    fillGroup lenient parent fields attributes = fillGroup strict parent fields attributes
  | [] => fun _ => by rw [fillGroup, fillGroup]
  | (name, node) :: rest => by
    intro sound
    rw [fillGroup_cons] at sound
    obtain ⟨here, after⟩ := List.append_eq_nil_iff.mp sound
    rw [fillGroup_cons, fillGroup_cons, fill_of_no_violation agree parent name fields node here]
    dsimp only
    rw [fillGroup_of_no_violations agree parent _ rest after]

end

/-! ## §3 Builds -/

namespace Catalog

variable {c : Catalog} {r : Resolver} {levels : Nat} {model : String} {data : Value}

/-- The conversion of attributes in a build, with a number of levels left for nested objects. -/
def conversion (c : Catalog) (r : Resolver) (strict : Bool) (levels : Nat) :
    AttributeDefinition → Value → Except InstantiationError Value :=
  coerceAttribute (fun id => (c.model? id).isSome) fun id v =>
    (buildObject c r strict levels id v).map ModelObject.value

/-- A build of data with fields fills in and computes. Only a strict one can refuse what comes of
it, with the violations found on the way and at the end. -/
theorem buildObject_succ {m : Model} {attributes : Attributes} {fields : Fields}
    (known : c.model? model = some m) (tree : c.attributes? model = some attributes)
    (begun : dataFields model data = .ok fields) (strict : Bool) :
    buildObject c r strict (levels + 1) model data
      = let filled := fillGroup (c.conversion r strict levels) [] fields attributes
        let complete := computeFormulas r (groupFormulas [] attributes) filled.1
        let violations := filled.2 ++ complete.2 ++ groupViolations [] complete.1 attributes
          ++ ruleViolations r m.validations complete.1
        if strict then
          if violations.isEmpty then .ok ⟨model, complete.1⟩
          else .error (.invalid model violations)
        else .ok ⟨model, complete.1⟩ := by
  rw [buildObject, known, tree, begun]
  cases strict <;> rfl

theorem attributes?_of_known {m : Model} (known : c.model? model = some m) :
    ∃ attributes, c.attributes? model = some attributes := by
  unfold attributes?
  rw [known]
  exact ⟨_, rfl⟩

/-- Data has fields if it is null or a mapping. -/
theorem dataFields_eq_error_iff {e : InstantiationError} :
    dataFields model data = .error e ↔
      data.kind ≠ .null ∧ data.kind ≠ .mapping ∧ e = .notAMapping model := by
  cases data <;> simp [dataFields, Value.kind, eq_comm]

/-- An object that a strict build gives, a lenient build gives. -/
theorem buildObject_lenient_of_strict {object : ModelObject}
    (h : buildObject c r true levels model data = .ok object) :
    buildObject c r false levels model data = .ok object := by
  -- the induction is on the levels: nested objects are built with one less
  induction levels generalizing model data object with
  | zero => cases h
  | succ levels ih =>
    have agree : Converts (c.conversion r true levels) (c.conversion r false levels) := by
      refine converts_coerceAttribute fun id v w nested => ?_
      obtain ⟨inner, built, same⟩ := map_eq_ok_iff.mp nested
      exact map_eq_ok_iff.mpr ⟨inner, ih built, same⟩
    cases known : c.model? model with
    | none =>
      rw [buildObject, known] at h
      cases h
    | some m =>
      obtain ⟨attributes, tree⟩ := attributes?_of_known known
      cases begun : dataFields model data with
      | error e =>
        rw [buildObject, known, tree, begun] at h
        cases h
      | ok fields =>
        rw [buildObject_succ known tree begun] at h ⊢
        simp only [if_true] at h
        split at h
        · rename_i accepted
          cases h
          have sound : (fillGroup (c.conversion r true levels) [] fields attributes).2 = [] := by
            simp only [List.isEmpty_iff, List.append_eq_nil_iff] at accepted
            exact accepted.1.1.1
          rw [fillGroup_of_no_violations agree [] fields attributes sound]
          rfl
        · cases h

/-- A lenient build fails before it fills in anything, or not at all. -/
theorem buildObject_lenient_eq_error_iff {e : InstantiationError} :
    buildObject c r false (levels + 1) model data = .error e ↔
      c.model? model = none ∧ e = .unknownModel model ∨
      (c.model? model).isSome ∧ dataFields model data = .error e := by
  cases known : c.model? model with
  | none =>
    rw [buildObject, known]
    simp [eq_comm]
  | some m =>
    obtain ⟨attributes, tree⟩ := attributes?_of_known known
    cases begun : dataFields model data with
    | error e' =>
      rw [buildObject, known, tree, begun]
      simp [bind, Except.bind]
    | ok fields =>
      rw [buildObject_succ known tree begun]
      simp

/-- Strict and lenient instantiation agree. Whatever object strict instantiation gives, lenient
instantiation gives, field for field; and it fails for no other reason than that the model is unknown
or the data is neither null nor a mapping. -/
theorem instantiate_agrees (c : Catalog) (r : Resolver) (model : String) (data : Value) :
    (∀ object, c.instantiate r model data = .ok object →
      c.instantiateLenient r model data = .ok object) ∧
    ((∃ e, c.instantiateLenient r model data = .error e) ↔
      c.model? model = none ∨ (data.kind ≠ .null ∧ data.kind ≠ .mapping)) := by
  refine ⟨fun object => buildObject_lenient_of_strict, ?_⟩
  unfold instantiateLenient
  simp only [buildObject_lenient_eq_error_iff, dataFields_eq_error_iff]
  constructor
  · rintro ⟨e, ⟨unknown, _⟩ | ⟨_, noNull, noMapping, _⟩⟩
    · exact Or.inl unknown
    · exact Or.inr ⟨noNull, noMapping⟩
  · intro fails
    cases known : c.model? model with
    | none => exact ⟨_, Or.inl ⟨rfl, rfl⟩⟩
    | some m =>
      rw [known] at fails
      obtain ⟨noNull, noMapping⟩ := fails.resolve_left nofun
      exact ⟨_, Or.inr ⟨rfl, noNull, noMapping, rfl⟩⟩

/-- Heroes with a group of attributes, a formula, a weapon and a bag of items. -/
def smithy : Catalog where
  models := [
    ("hero", { id := "hero", attributes := [
      ("name", .leaf { typeName := "str" }),
      ("stats", .group [
        ("strength", .leaf { typeName := "int", default := some (.int 10) }),
        ("bonus", .leaf { typeName := "int", derived := some "\x7b\x7b stats.strength // 2 \x7d\x7d" })]),
      ("weapon", .leaf { typeName := "item", optional := true }),
      ("bag", .leaf { typeName := "list", element := some "item", optional := true })] }),
    ("item", { id := "item", attributes := [
      ("name", .leaf { typeName := "str" }),
      ("weight", .leaf { typeName := "int", default := some (.int 1), range := some "0.." })] })]

/-- Data for a hero. -/
def recruit : Value := .mapping [
  ("stats", .mapping [("strength", .text "16")]),
  ("name", .text "Ada"),
  ("weapon", .mapping [("name", .text "Axe")]),
  ("bag", .list [.mapping [("weight", .bool true), ("name", .text "Rope")]])]

/-- The weapon of the hero names its model, and so does the item in the bag. -/
def equipped (object : ModelObject) : Bool :=
  object.value.at? ["weapon", "model"] matches some (.text "item")
    && (object.value.at? ["bag", "0", "weight"] matches some (.int 1))
    && (object.value.at? ["stats", "bonus"] matches some (.int 8))

/-- The recruit becomes a hero, and the same one if nothing is checked. -/
theorem smithy_equips_recruit :
    ∃ object, smithy.instantiate .expressions "hero" recruit = .ok object
      ∧ smithy.instantiateLenient .expressions "hero" recruit = .ok object
      ∧ equipped object = true := by
  have ready : ((smithy.instantiate .expressions "hero" recruit).toOption.any equipped) = true := by
    decide +kernel
  cases made : smithy.instantiate .expressions "hero" recruit with
  | error e =>
    rw [made] at ready
    cases ready
  | ok object =>
    rw [made] at ready
    exact ⟨object, rfl, (instantiate_agrees smithy .expressions "hero" recruit).1 object made, ready⟩

end Catalog

end Tabletop
