/-
Tabletop.Proofs.Model.Demands — what strict objects are made of.

A strict build checks the finished fields, so whatever the source of a value
is, it meets the demands of its attribute: it is there if it is required, in
range, and one of the options. The types are not checked but brought about,
by conversion, and a default is not converted. So every value of an object
is of its type unless it is such a default, and if defaults are of their own
types then every value is (`instantiate_sound`).

  §1 One attribute
  §2 The attributes of a tree
  §3 Types
  §4 Objects
-/
import Tabletop.Proofs.Model.Again

namespace Tabletop

variable {attributes rest : List (String × Attribute)} {fields : Fields} {name : String}
  {d : AttributeDefinition} {p parent path : Path} {v w : Value} {held : Option Value}

/-! ## §1 One attribute -/

/-- What stands in the attribute's place is as the attribute demands: there if it is required, and,
unless it is null, a number in the range and one of the options. -/
structure AttributeDefinition.Meets (d : AttributeDefinition) (held : Option Value) : Prop where
  required : d.optional = false → d.default = none → d.derived = none → ¬ Unset held
  ranged : ∀ v range low high, held = some v → v ≠ .null → d.range = some range →
    splitDots range.toList = some (low, high) →
    ∃ x, v.asFloat? = some x ∧ outsideBounds (readBound low) (readBound high) x = false
  listed : ∀ v options, held = some v → v ≠ .null → d.options = some options →
    ∃ o ∈ options, o.same v = true

theorem rangeViolation_eq_nil_iff {range : String} :
    rangeViolation path range v = [] ↔ ∀ low high, splitDots range.toList = some (low, high) →
      ∃ x, v.asFloat? = some x ∧ outsideBounds (readBound low) (readBound high) x = false := by
  unfold rangeViolation
  cases splitDots range.toList with
  | none => simp
  | some bounds =>
    obtain ⟨low, high⟩ := bounds
    cases v.asFloat? with
    | none => simp
    | some x => simp

theorem optionViolation_eq_nil_iff {options : List Value} :
    optionViolation path options v = [] ↔ ∃ o ∈ options, o.same v = true := by
  unfold optionViolation
  rw [← List.any_eq_true]
  split <;> simp_all

/-- An attribute reports nothing exactly if its demands are met. -/
theorem AttributeDefinition.violations_eq_nil_iff :
    d.violations path (presentField? fields name) = [] ↔ d.Meets (Entries.get? fields name) := by
  cases present : presentField? fields name with
  | none =>
    have unset := presentField?_eq_none_iff.mp present
    have no_value : ∀ v, Entries.get? fields name = some v → v ≠ .null → False :=
      fun v found full => not_unset_some full (found ▸ unset)
    rw [violations]
    constructor
    · intro nothing
      refine ⟨fun needed empty plain => ?_, fun v _ _ _ found full => (no_value v found full).elim,
        fun v _ found full => (no_value v found full).elim⟩
      rw [needed, empty, plain] at nothing
      cases nothing
    · intro met
      rw [if_pos]
      by_contra demanded
      simp only [Bool.or_eq_true, not_or, Bool.not_eq_true, Option.isSome_eq_false_iff,
        Option.isNone_iff_eq_none] at demanded
      exact met.required demanded.1.1 demanded.1.2 demanded.2 unset
  | some v =>
    obtain ⟨found, full⟩ := presentField?_eq_some_iff.mp present
    have same : ∀ {u}, Entries.get? fields name = some u → u = v := by
      intro u other
      rw [found] at other
      exact (Option.some.inj other).symm
    rw [violations, List.append_eq_nil_iff]
    constructor
    · rintro ⟨inRange, anOption⟩
      refine ⟨fun _ _ _ => found ▸ not_unset_some full, ?_, ?_⟩
      · intro u range low high other _ ranged
        rw [ranged] at inRange
        rw [same other]
        exact rangeViolation_eq_nil_iff.mp inRange low high
      · intro u options other _ listed
        rw [listed] at anOption
        rw [same other]
        exact optionViolation_eq_nil_iff.mp anOption
    · intro met
      constructor
      · cases ranged : d.range with
        | none => rfl
        | some range =>
          exact rangeViolation_eq_nil_iff.mpr fun low high => met.ranged v range low high found full
            ranged
      · cases listed : d.options with
        | none => rfl
        | some options =>
          exact optionViolation_eq_nil_iff.mpr (met.listed v options found full listed)

/-! ## §2 The attributes of a tree -/

/-- A tree reports nothing exactly if the demands of all attributes are met to which mappings
lead. -/
theorem groupViolations_eq_nil_iff :
    groupViolations parent fields attributes = [] ↔ ∀ p d, (p, .leaf d) ∈ places attributes →
      (Value.mapping fields).Leads p → d.Meets ((Value.mapping fields).at? p) := by
  induction attributes using Attributes.forest generalizing parent fields with
  | nil =>
    rw [groupViolations]
    exact ⟨fun _ _ _ there => absurd there not_mem_places_nil, fun _ => rfl⟩
  | leaf name own rest ih =>
    rw [groupViolations, List.append_eq_nil_iff, ih, Attribute.violations,
      AttributeDefinition.violations_eq_nil_iff]
    constructor
    · rintro ⟨here, others⟩ p d there leads
      rcases mem_places_leaf.mp there with ⟨rfl, same⟩ | later
      · cases same
        rwa [at?_single]
      · exact others p d later leads
    · intro met
      refine ⟨?_, fun p d later => met p d (mem_places_leaf.mpr (Or.inr later))⟩
      rw [← at?_single]
      exact met [name] own (mem_places_leaf.mpr (Or.inl ⟨rfl, rfl⟩)) Value.leads_single
  | group name children rest ihc ih =>
    have inside : (Attribute.group children).violations parent name fields = [] ↔
        ∀ p d, (p, .leaf d) ∈ places children → (Value.mapping fields).Leads (name :: p) →
          d.Meets ((Value.mapping fields).at? (name :: p)) := by
      rw [Attribute.violations]
      split
      · rename_i inner found
        rw [ihc]
        have below : ∀ q, (Value.mapping fields).at? (name :: q) = (Value.mapping inner).at? q := by
          intro q
          rw [Value.at?_cons, Value.child?_mapping, found]
          rfl
        constructor
        · intro met p d there leads
          obtain ⟨_, same, leads⟩ := leads.below (ne_nil_of_mem_places there)
          rw [found] at same
          cases same
          rw [below]
          exact met p d there leads
        · intro met p d there leads
          rw [← below]
          exact met p d there (leads.cons found)
      · rename_i no_mapping
        refine ⟨fun _ p d there leads => ?_, fun _ => rfl⟩
        obtain ⟨inner, found, _⟩ := leads.below (ne_nil_of_mem_places there)
        exact absurd found (no_mapping inner)
    rw [groupViolations, List.append_eq_nil_iff, ih, inside]
    constructor
    · rintro ⟨here, others⟩ p d there leads
      rcases mem_places_group.mp there with ⟨_, same⟩ | ⟨q, rfl, within⟩ | later
      · cases same
      · exact here q d within leads
      · exact others p d later leads
    · intro met
      exact ⟨fun q d within => met _ d (mem_places_group.mpr (Or.inr (Or.inl ⟨q, rfl, within⟩))),
        fun p d later => met p d (mem_places_group.mpr (Or.inr (Or.inr later)))⟩

/-! ## §3 Types -/

namespace Catalog

variable {c : Catalog} {r : Resolver} {model : String} {data : Value} {m : Model}
  {object : ModelObject}

/-- The value is what a conversion into the type of the attribute gives: of exactly a primitive
type, or an object of a model, unless the attribute is computed. -/
structure Typed (c : Catalog) (r : Resolver) (d : AttributeDefinition) (v : Value) : Prop where
  primitive : ∀ kind, Primitive.named? d.typeName = some kind → kind.isExact v = true
  nested : d.derived = none → Primitive.named? d.typeName = none →
    (c.model? d.typeName).isSome = true →
    ∃ data object, c.instantiate r d.typeName data = .ok object ∧ object.value = v

/-- Strict instantiation of the attribute's model accepts the value, unless the attribute is
computed or of no model. -/
def Accepts (c : Catalog) (r : Resolver) (d : AttributeDefinition) (v : Value) : Prop :=
  d.derived = none → Primitive.named? d.typeName = none → (c.model? d.typeName).isSome = true →
    ∃ object, c.instantiate r d.typeName v = .ok object

theorem typed_of_convert (full : v ≠ .null) (h : c.convert r true d v = .ok w) : c.Typed r d w := by
  have whole := convert_ne_null full h
  constructor
  · intro kind named
    rw [convert_of_primitive named] at h
    exact (isExact_of_coercePrimitive named h).resolve_left whole
  · intro _ named known
    rw [convert_of_model named known] at h
    obtain ⟨object, made, same⟩ := map_eq_ok_iff.mp h
    exact ⟨v, object, made, same⟩

/-- What a formula gives is of the type of the attribute that it computes. -/
theorem typed_of_compute {f : Formula} (computed : d.derived = some f.template)
    (named : d.typeName = f.typeName) (h : f.compute r fields = .ok v) (full : v ≠ .null) :
    c.Typed r d v := by
  refine ⟨fun kind primitive => ?_, fun plain => ?_⟩
  · rw [named] at primitive
    unfold Formula.compute at h
    split at h
    · cases h
    · rw [isPrimitive, primitive, Option.isSome_some, if_pos rfl] at h
      exact (isExact_of_coercePrimitive primitive h).resolve_left full
  · rw [computed] at plain
    cases plain

/-- What is unset when a build begins is unset in the data. -/
theorem unset_data (begun : dataFields model data = .ok fields) (inside : p ≠ [])
    (unblocked : (Value.mapping fields).Admits p) (unset : Unset ((Value.mapping fields).at? p)) :
    Unset (data.at? p) := by
  obtain ⟨name, rest, rfl⟩ := List.exists_cons_of_ne_nil inside
  cases data with
  | null => exact Or.inl rfl
  | mapping own =>
    cases begun
    by_cases key : name = "model"
    · -- the id of the model is no null, and nothing is inside it
      subst key
      have named := Entries.get?_insert_self own "model" (Value.text model)
      cases rest with
      | nil =>
        rw [at?_single, named] at unset
        exact absurd unset (not_unset_some nofun)
      | cons next more =>
        rw [Value.admits_cons rfl, Value.inner_of_get? named] at unblocked
        obtain ⟨_, closed, _⟩ := unblocked
        cases closed
    · have kept : Entries.get? (Entries.insert own "model" (.text model)) name
          = Entries.get? own name := Entries.get?_insert_ne _ (Ne.symm key)
      rwa [at?_of_get? kept] at unset
  | _ => cases begun

/-! ## §4 Objects -/

/-- Where the value of an attribute of an object comes from. -/
theorem typed_or_default (begins : c.Begins model data m attributes fields)
    (sound : c.Flawless r m attributes fields) (distinct : DistinctNames attributes)
    (there : (p, .leaf d) ∈ places attributes)
    (held : (Value.mapping (c.completed r true attributes fields).1).at? p = some v)
    (full : v ≠ .null) :
    c.Typed r d v ∨ d.derived = none ∧ d.default = some v ∧ Unset (data.at? p) := by
  have ready := ready_of_sound sound.filled distinct
  cases computed : d.derived with
  | some template =>
    have listed : ⟨p, template, d.typeName⟩ ∈ groupFormulas [] attributes :=
      mem_groupFormulas.mpr ⟨p, d, template, there, computed, rfl⟩
    obtain ⟨seen, w, gives, stands⟩ := exists_computed ready sound.computed listed
    have same : w = v := Option.some.inj (stands.symm.trans held)
    exact Or.inl (typed_of_compute computed rfl (same ▸ gives) full)
  | none =>
    have taken := fills_of_sound sound.filled distinct there
    have kept := at?_completeGroup (r := r) distinct ready there computed
    change (Value.mapping (c.completed r true attributes fields).1).at? p = _ at kept
    rw [← kept, held] at taken
    rcases taken.source computed full with ⟨_, _, whole, converted⟩ | ⟨unset, filler⟩
    · exact Or.inl (typed_of_convert whole converted)
    · have way := admits_of_sound sound.filled distinct there
      exact Or.inr ⟨rfl, filler,
        unset_data begins.start (ne_nil_of_mem_places there) way unset⟩

/-- An object of a strict build meets the demands of all of its attributes, and its values are of
their types, except for defaults that are not. In a catalog whose defaults are of their types there
are no exceptions, and every nested object is accepted once more. -/
theorem instantiate_sound (distinct : c.Distinct) (tree : c.attributes? model = some attributes)
    (made : c.instantiate r model data = .ok object) (there : (p, .leaf d) ∈ places attributes) :
    d.Meets (object.value.at? p) ∧ ∀ v, object.value.at? p = some v → v ≠ .null →
      (c.Typed r d v ∨ d.derived = none ∧ d.default = some v ∧ Unset (data.at? p)) ∧
      (c.Settled r → c.Typed r d v ∧ c.Accepts r d v) := by
  obtain ⟨m, others, fields, begins⟩ := exists_begins (build_strict ▸ made)
  rw [begins.tree] at tree
  cases tree
  obtain ⟨sound, rfl⟩ := (begins.instantiate_eq_ok_iff distinct).mp made
  have names := distinct model attributes begins.tree
  have met := (List.append_eq_nil_iff.mp sound.met).1
  have way := leads_completeGroup (r := r) sound.filled names there
  refine ⟨groupViolations_eq_nil_iff.mp met p d there way, fun v held full => ?_⟩
  have source := typed_or_default begins sound names there held full
  refine ⟨source, fun settled => ?_⟩
  have typed : c.Typed r d v := by
    rcases source with typed | ⟨plain, filler, _⟩
    · exact typed
    · exact typed_of_convert full
        ((settled model attributes begins.tree).defaults p d v there plain filler full)
  refine ⟨typed, fun plain named known => ?_⟩
  obtain ⟨source, inner, built, rfl⟩ := typed.nested plain named known
  exact ⟨inner, instantiate_again_of_settled distinct settled built⟩

/-- The recruit's weapon meets its demands and is accepted as an item once more. -/
theorem smithy_arms_recruit :
    ∃ object weapon, smithy.instantiate .expressions "hero" recruit = .ok object ∧
      object.value.at? ["weapon"] = some weapon ∧ weapon ≠ .null ∧
      AttributeDefinition.Meets { typeName := "item", optional := true } (some weapon) ∧
      ∃ item, smithy.instantiate .expressions "item" weapon = .ok item := by
  have ready : ((smithy.instantiate .expressions "hero" recruit).toOption.any fun object =>
      (object.value.at? ["weapon"]).any fun weapon => !weapon.isNull) = true := by decide +kernel
  obtain ⟨object, made, armed⟩ := exists_ok_of_any ready
  obtain ⟨weapon, held, full⟩ := (Option.any_eq_true _ _).mp armed
  have full : weapon ≠ .null := by
    rintro rfl
    cases full
  have there : (["weapon"], .leaf { typeName := "item", optional := true })
      ∈ places smithyHero := by
    simp [smithyHero, mem_places_leaf, mem_places_group]
  obtain ⟨met, values⟩ := instantiate_sound smithy_distinct smithy_hero made there
  have accepted := ((values weapon held full).2 smithy_settled).2
  exact ⟨object, weapon, made, held, full, held ▸ met, accepted rfl rfl rfl⟩

/-- A default that is a text stays a text, in an attribute of whole numbers. -/
theorem barracks_keeps_text :
    ∃ object attributes d,
      (barracks "16").instantiate .expressions "hero" (.mapping []) = .ok object ∧
      (barracks "16").attributes? "hero" = some attributes ∧
      (["hp"], .leaf d) ∈ places attributes ∧ Primitive.named? d.typeName = some .int ∧
      object.value.at? ["hp"] = some (.text "16") ∧ Primitive.int.isExact (.text "16") = false :=
  ⟨_, _, _, rfl, rfl, List.mem_cons_self, rfl, rfl, rfl⟩

end Catalog

end Tabletop
