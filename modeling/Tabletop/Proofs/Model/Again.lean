/-
Tabletop.Proofs.Model.Again — instantiating an object once more.

What has been converted is converted into itself, and nested objects are built
once more as they are. But a default goes into an object as it is declared,
not converted, and a formula sees what the data say of attributes that are
computed after it. So an object is instantiated to itself exactly if all of its
values are as their conversions leave them and each formula gives, on the
finished object, what stands in its place (`instantiate_again`). Models whose
defaults are of their own types and whose formulas are in order make no other
objects.

  §1 Models without surprises
  §2 Converting twice
  §3 Values of an object
  §4 Objects as data
-/
import Tabletop.Proofs.Model.Exact
import Tabletop.Proofs.Model.Levels

namespace Tabletop

variable {c : Catalog} {r : Resolver} {attributes : List (String × Attribute)} {fields : Fields}
  {d : AttributeDefinition} {model : String} {data v w : Value} {p : Path} {m : Model}
  {object : ModelObject}

/-! ## §1 Models without surprises -/

/-- No attribute takes the key of the model's id, defaults are as their conversions leave them, and
each formula reads only what is settled before its turn. -/
structure Attributes.Settled (c : Catalog) (r : Resolver) (attributes : Attributes) : Prop where
  free : "model" ∉ Entries.keys attributes
  defaults : ∀ p d v, (p, .leaf d) ∈ places attributes → d.derived = none → d.default = some v →
    v ≠ .null → c.convert r true d v = .ok v
  formulas : InOrder r (fun _ => True) (groupFormulas [] attributes)

/-- All models of the catalog are like that. -/
def Catalog.Settled (c : Catalog) (r : Resolver) : Prop :=
  ∀ id attributes, c.attributes? id = some attributes → Attributes.Settled c r attributes

/-- The values of the object are as their conversions leave them, and each formula gives what stands
in its place. -/
structure Catalog.Stable (c : Catalog) (r : Resolver) (attributes : Attributes) (fields : Fields) :
    Prop where
  converted : ∀ p d v, (p, .leaf d) ∈ places attributes → d.derived = none →
    (Value.mapping fields).at? p = some v → v ≠ .null → c.convert r true d v = .ok v
  computed : ∀ f ∈ groupFormulas [] attributes, ∃ v, f.compute r fields = .ok v ∧
    (Value.mapping fields).at? f.path = some v

/-! ## §2 Converting twice -/

section Conversions

variable {isModel : String → Bool} {build : String → Value → Except InstantiationError Value}

theorem coerceTyped_again {typeName : String}
    (again : build typeName v = .ok w → build typeName w = .ok w)
    (h : coerceTyped isModel build typeName v = .ok w) :
    coerceTyped isModel build typeName w = .ok w := by
  unfold coerceTyped at h ⊢
  split
  · rename_i primitive
    rw [if_pos primitive] at h
    obtain ⟨kind, named⟩ := Option.isSome_iff_exists.mp primitive
    exact coercePrimitive_idem named h
  · rw [if_neg ‹_›] at h
    split
    · rw [if_pos ‹_›] at h
      exact again h
    · rfl

/-- A value is converted into the type of its attribute, item by item, or not at all. -/
theorem coerceAttribute_cases (isModel : String → Bool) (d : AttributeDefinition) (v : Value) :
    (∀ build u, coerceAttribute isModel build d u = coerceTyped isModel build d.typeName u) ∨
    (∃ items element, v = .list items ∧ ∀ build others,
      coerceAttribute isModel build d (.list others)
        = (others.mapM (coerceTyped isModel build element)).map .list) ∨
    ∀ build, coerceAttribute isModel build d v = .ok v := by
  unfold coerceAttribute
  by_cases typed : (isPrimitive d.typeName || isModel d.typeName) = true
  · exact Or.inl fun _ u => if_pos typed
  · simp only [if_neg typed]
    split
    · rename_i items element named own
      refine Or.inr (Or.inl ⟨items, element, rfl, fun build others => ?_⟩)
      rw [named, own]
      rfl
    · exact Or.inr (Or.inr fun _ => rfl)

/-- A converted value is converted into itself, if the objects that it holds are built once more as
they are. -/
theorem coerceAttribute_again (full : v ≠ .null)
    (again : ∀ id u w, u.reach ≤ v.depth → build id u = .ok w → build id w = .ok w)
    (h : coerceAttribute isModel build d v = .ok w) :
    coerceAttribute isModel build d w = .ok w := by
  rcases coerceAttribute_cases isModel d v with typed | ⟨items, element, rfl, each⟩ | kept
  · rw [typed] at h ⊢
    exact coerceTyped_again (again _ v w (Nat.le_of_eq (Value.reach_of_ne_null full))) h
  · rw [each] at h
    obtain ⟨converted, given, rfl⟩ := map_eq_ok_iff.mp h
    rw [each]
    refine map_eq_ok_iff.mpr ⟨converted, mapM_again (fun u hu w => ?_) given, rfl⟩
    exact coerceTyped_again (again _ u w (Value.reach_le_of_mem hu))
  · rw [kept] at h
    cases h
    exact kept build

/-- A value is not converted into null. -/
theorem ne_null_of_coerceAttribute (made : ∀ id u w, build id u = .ok w → w ≠ .null)
    (full : v ≠ .null) (h : coerceAttribute isModel build d v = .ok w) : w ≠ .null := by
  rcases coerceAttribute_cases isModel d v with typed | ⟨items, element, rfl, each⟩ | kept
  · rw [typed] at h
    unfold coerceTyped at h
    split at h
    · rename_i primitive
      obtain ⟨kind, named⟩ := Option.isSome_iff_exists.mp primitive
      rw [coercePrimitive_eq_ok_iff named full] at h
      rintro rfl
      have exact_type := Primitive.isExact_of_convert? h
      cases kind <;> cases exact_type
    · split at h
      · exact made _ _ _ h
      · cases h
        exact full
  · rw [each] at h
    obtain ⟨converted, _, rfl⟩ := map_eq_ok_iff.mp h
    nofun
  · rw [kept] at h
    cases h
    exact full

end Conversions

/-- Values of a primitive type are converted without a build. -/
theorem Catalog.convert_of_primitive {strict : Bool} {kind : Primitive}
    (named : Primitive.named? d.typeName = some kind) :
    c.convert r strict d v = coercePrimitive v d.typeName := by
  simp [convert, coerceAttribute, coerceTyped, isPrimitive, named]

/-- Values of a model are built. -/
theorem Catalog.convert_of_model {strict : Bool} (named : Primitive.named? d.typeName = none)
    (known : (c.model? d.typeName).isSome = true) :
    c.convert r strict d v = (c.build r strict d.typeName v).map ModelObject.value := by
  simp [convert, coerceAttribute, coerceTyped, isPrimitive, named, known]

theorem Catalog.convert_ne_null {strict : Bool} (full : v ≠ .null)
    (h : c.convert r strict d v = .ok w) : w ≠ .null := by
  refine ne_null_of_coerceAttribute (fun id u w made => ?_) full h
  obtain ⟨object, _, rfl⟩ := map_eq_ok_iff.mp made
  nofun

/-- A conversion gives itself if nested objects are instantiated to themselves. -/
theorem Catalog.convert_again (full : v ≠ .null)
    (again : ∀ id u object, u.reach ≤ v.depth → c.instantiate r id u = .ok object →
      c.instantiate r id object.value = .ok object)
    (h : c.convert r true d v = .ok w) : c.convert r true d w = .ok w := by
  refine coerceAttribute_again full (fun id u w small made => ?_) h
  obtain ⟨object, built, rfl⟩ := map_eq_ok_iff.mp made
  exact map_eq_ok_iff.mpr ⟨object, again id u object small built, rfl⟩

/-! ## §3 Values of an object -/

/-- What a build finds inside its fields is less deep than the data. -/
theorem depth_lt_of_begun (begun : dataFields model data = .ok fields) (inside : p ≠ [])
    (found : (Value.mapping fields).at? p = some v) : v.depth < data.reach := by
  obtain ⟨name, rest, rfl⟩ := List.exists_cons_of_ne_nil inside
  rw [Value.at?_cons, Value.child?_mapping] at found
  obtain ⟨u, there, found⟩ := Option.bind_eq_some_iff.mp found
  have less := depth_lt_of_dataFields begun there
  cases rest with
  | nil =>
    cases found
    exact less
  | cons next more => exact Nat.lt_trans (Value.depth_lt_of_at? (List.cons_ne_nil _ _) found) less

/-- An object as data begins with its fields. -/
theorem dataFields_object (named : Entries.get? fields "model" = some (.text model)) :
    dataFields model (.mapping fields) = .ok fields := by
  exact congrArg Except.ok (Entries.insert_of_get? named)

namespace Catalog

/-- The values of sound fields are as their conversions leave them, if nested objects are
instantiated to themselves and the defaults are converted into themselves. -/
theorem converted_of_filled (distinct : DistinctNames attributes)
    (begun : dataFields model data = .ok fields)
    (filled : (c.filled r true attributes fields).2 = [])
    (defaults : ∀ p d v, (p, .leaf d) ∈ places attributes → d.derived = none →
      d.default = some v → v ≠ .null → c.convert r true d v = .ok v)
    (again : ∀ id u object, u.reach < data.reach → c.instantiate r id u = .ok object →
      c.instantiate r id object.value = .ok object)
    (p : Path) (d : AttributeDefinition) (v : Value) (there : (p, .leaf d) ∈ places attributes)
    (plain : d.derived = none)
    (held : (Value.mapping (c.completed r true attributes fields).1).at? p = some v)
    (full : v ≠ .null) : c.convert r true d v = .ok v := by
  have taken := fills_of_sound filled distinct there
  have ready := ready_of_sound filled distinct
  rw [completed, at?_completeGroup distinct ready there plain] at held
  rw [held] at taken
  rcases taken.source plain full with ⟨given, found, whole, converted⟩ | ⟨_, filler⟩
  · refine convert_again whole (fun id u object small => again id u object ?_) converted
    exact Nat.lt_of_le_of_lt small (depth_lt_of_begun begun (ne_nil_of_mem_places there) found)
  · exact defaults p d v there plain filler full

/-- The values of fields that are filled in to themselves are as their conversions leave them. -/
theorem converted_of_still (distinct : DistinctNames attributes)
    (quiet : (c.filled r true attributes fields).2 = [])
    (still : (c.completed r true attributes fields).1 = fields)
    (p : Path) (d : AttributeDefinition) (v : Value) (there : (p, .leaf d) ∈ places attributes)
    (plain : d.derived = none) (held : (Value.mapping fields).at? p = some v) (full : v ≠ .null) :
    c.convert r true d v = .ok v := by
  have taken := fills_of_sound quiet distinct there
  have kept := at?_completeGroup (r := r) distinct (ready_of_sound quiet distinct) there plain
  rw [← kept] at taken
  change d.Fills _ _ ((Value.mapping (c.completed r true attributes fields).1).at? p) at taken
  rw [still, held] at taken
  obtain ⟨w, same, converted⟩ := taken.converted plain full
  cases same
  exact converted

/-! ## §4 Objects as data -/

section Completed

variable {ended : Fields} (begins : c.Begins model data m attributes fields)
  (distinct : c.Distinct) (quiet : (c.filled r true attributes fields).2 = [])
  (ends : (c.completed r true attributes fields).1 = ended)
include begins distinct quiet ends

/-- Filling in changes nothing in completed fields whose values are as their conversions leave
them. -/
theorem Begins.filled_again
    (converted : ∀ p d v, (p, .leaf d) ∈ places attributes → d.derived = none →
      (Value.mapping ended).at? p = some v → v ≠ .null → c.convert r true d v = .ok v) :
    c.filled r true attributes ended = (ended, []) := by
  subst ends
  exact fillGroup_completeGroup quiet (fun _ _ _ => convert_ne_null) converted
    (distinct model attributes begins.tree)

/-- If the formulas are in order, computing once more gives nothing else. -/
theorem Begins.completed_again
    (converted : ∀ p d v, (p, .leaf d) ∈ places attributes → d.derived = none →
      (Value.mapping ended).at? p = some v → v ≠ .null → c.convert r true d v = .ok v)
    (ordered : InOrder r (fun _ => True) (groupFormulas [] attributes)) :
    c.completed r true attributes ended = c.completed r true attributes fields := by
  subst ends
  exact completeGroup_again quiet (fun _ _ _ => convert_ne_null) converted
    (distinct model attributes begins.tree) ordered

/-- Nothing is refused and nothing changed in an object exactly if it is stable. -/
theorem Begins.still_iff_stable :
    (c.filled r true attributes ended).2 = [] ∧ c.completed r true attributes ended = (ended, [])
      ↔ c.Stable r attributes ended := by
  have names := distinct model attributes begins.tree
  -- once filling in is known to change nothing, only the formulas are left
  have formulas : c.filled r true attributes ended = (ended, []) →
      (c.completed r true attributes ended = (ended, []) ↔
        ∀ f ∈ groupFormulas [] attributes, ∃ v, f.compute r ended = .ok v ∧
          (Value.mapping ended).at? f.path = some v) := by
    intro filled
    have ready := ready_of_sound (congrArg Prod.snd filled) names
    change Ready (c.filled r true attributes ended).1 _ at ready
    rw [filled] at ready
    rw [← computeFormulas_eq_self_iff ready, completed, completeGroup]
    change computeFormulas r _ (c.filled r true attributes ended).1 = _ ↔ _
    rw [filled]
  constructor
  · rintro ⟨silent, computed⟩
    have converted := converted_of_still names silent (congrArg Prod.fst computed)
    have filled := begins.filled_again distinct quiet ends converted
    exact ⟨converted, (formulas filled).mp computed⟩
  · rintro ⟨converted, computed⟩
    have filled := begins.filled_again distinct quiet ends converted
    exact ⟨congrArg Prod.snd filled, (formulas filled).mpr computed⟩

end Completed

/-- What is built begins, as data, with its own fields. -/
theorem Begins.again {strict : Bool} (begins : c.Begins model data m attributes fields)
    (free : "model" ∉ Entries.keys attributes)
    (built : c.build r strict model data = .ok object) :
    c.Begins model object.value m attributes object.fields :=
  ⟨begins.known, begins.tree, dataFields_object (get?_buildObject built begins.tree free)⟩

/-- In a catalog without surprises an object is instantiated to itself. -/
theorem instantiate_again_of_settled (distinct : c.Distinct) (settled : c.Settled r)
    (made : c.instantiate r model data = .ok object) :
    c.instantiate r model object.value = .ok object := by
  -- the induction is on the nesting of the data, for the objects inside
  induction hn : data.reach using Nat.strongRecOn generalizing model data object with
  | ind n ih =>
    obtain ⟨m, attributes, fields, begins⟩ := exists_begins (build_strict ▸ made)
    obtain ⟨sound, rfl⟩ := (begins.instantiate_eq_ok_iff distinct).mp made
    obtain ⟨free, defaults, ordered⟩ := settled model attributes begins.tree
    have values := converted_of_filled (distinct model attributes begins.tree) begins.start
      sound.filled defaults fun id u object small built => ih _ (hn ▸ small) built rfl
    have filled := begins.filled_again distinct sound.filled rfl values
    have same := begins.completed_again distinct sound.filled rfl values ordered
    refine ((begins.again free made).instantiate_eq_ok_iff distinct).mpr ⟨?_, ?_⟩
    · refine ⟨?_, ?_, ?_⟩
      · rw [filled]
      · rw [same, sound.computed]
      · rw [same, sound.met]
    · rw [same]

/-- An object of a strict build is instantiated to itself exactly if its values are as their
conversions leave them and each formula gives what stands in its place. In a catalog whose defaults
are of their types and whose formulas are in order, every object is. -/
theorem instantiate_again (distinct : c.Distinct) (tree : c.attributes? model = some attributes)
    (made : c.instantiate r model data = .ok object) :
    (c.Settled r → c.instantiate r model object.value = .ok object) ∧
    ("model" ∉ Entries.keys attributes →
      (c.instantiate r model object.value = .ok object ↔ c.Stable r attributes object.fields)) := by
  refine ⟨fun settled => instantiate_again_of_settled distinct settled made, fun free => ?_⟩
  obtain ⟨m, others, fields, begins⟩ := exists_begins (build_strict ▸ made)
  rw [begins.tree] at tree
  cases tree
  obtain ⟨sound, rfl⟩ := (begins.instantiate_eq_ok_iff distinct).mp made
  rw [(begins.again free made).instantiate_eq_ok_iff distinct,
    ← begins.still_iff_stable distinct sound.filled rfl, ModelObject.mk.injEq]
  constructor
  · rintro ⟨quiet, _, same⟩
    exact ⟨quiet.filled, Prod.ext same.symm quiet.computed⟩
  · rintro ⟨quiet, still⟩
    refine ⟨⟨quiet, ?_, ?_⟩, rfl, ?_⟩
    · rw [still]
    · rw [still, sound.met]
    · rw [still]

/-- The names in the smithy's models are distinct. -/
theorem smithy_distinct : smithy.Distinct := by
  refine distinct_of_own ?_
  simp [smithy, DistinctNames, Attribute.Distinct, Entries.keys]

/-- The attributes of the smithy's heroes. -/
def smithyHero : Attributes := [
  ("name", .leaf { typeName := "str" }),
  ("stats", .group [
    ("strength", .leaf { typeName := "int", default := some (.int 10) }),
    ("bonus", .leaf {
      typeName := "int", derived := some "\x7b\x7b stats.strength // 2 \x7d\x7d" })]),
  ("weapon", .leaf { typeName := "item", optional := true }),
  ("bag", .leaf { typeName := "list", element := some "item", optional := true })]

theorem smithy_hero : smithy.attributes? "hero" = some smithyHero := by rfl

theorem smithy_item : smithy.attributes? "item" = some [
    ("name", .leaf { typeName := "str" }),
    ("weight", .leaf {
      typeName := "int", default := some (.int 1), range := some "0.." })] := by rfl

/-- The defaults of the smithy are whole numbers, and its formula reads a plain attribute. -/
theorem smithy_settled : smithy.Settled .expressions := by
  refine forall_attributes ?_
  simp only [smithy, List.forall_mem_cons]
  refine ⟨fun attributes tree => ?_, fun attributes tree => ?_, nofun⟩
  · cases smithy_hero.symm.trans tree
    refine ⟨by decide, ?_, inOrder_of_reads (by decide +kernel) fun _ _ _ _ => trivial⟩
    intro p d v there plain filler full
    simp only [smithyHero, mem_places_leaf, mem_places_group, not_mem_places_nil,
      Attribute.leaf.injEq, reduceCtorEq, and_false, false_or, or_false] at there
    rcases there with ⟨_, rfl⟩ | ⟨_, _, ⟨_, rfl⟩ | ⟨_, rfl⟩⟩ | ⟨_, rfl⟩ | ⟨_, rfl⟩ <;> cases filler
    rfl
  · cases smithy_item.symm.trans tree
    refine ⟨by decide, ?_, inOrder_of_reads (by decide +kernel) fun _ _ _ _ => trivial⟩
    intro p d v there plain filler full
    simp only [mem_places_leaf, not_mem_places_nil, Attribute.leaf.injEq, or_false] at there
    rcases there with ⟨_, rfl⟩ | ⟨_, rfl⟩ <;> cases filler
    rfl

/-- The recruit's hero is made once more, with its weapon and its bag, and is stable. -/
theorem smithy_remakes_hero :
    ∃ object, smithy.instantiate .expressions "hero" recruit = .ok object ∧
      equipped object = true ∧ smithy.instantiate .expressions "hero" object.value = .ok object ∧
      smithy.Stable .expressions smithyHero object.fields := by
  have ready : ((smithy.instantiate .expressions "hero" recruit).toOption.any equipped) = true := by
    decide +kernel
  obtain ⟨object, made, equipment⟩ := exists_ok_of_any ready
  obtain ⟨remade, stable⟩ := instantiate_again smithy_distinct smithy_hero made
  have again := remade smithy_settled
  exact ⟨object, made, equipment, again, (stable (by decide)).mp again⟩

/-- Heroes with a number as default, written as a text. -/
def barracks (hp : String) : Catalog where
  models := [("hero", { id := "hero", attributes := [
    ("hp", .leaf { typeName := "int", default := some (.text hp) })] })]

/-- A hero that is made from nothing is refused as data. -/
theorem barracks_refuses_own_hero :
    ∃ object e, (barracks "ten").instantiate .expressions "hero" (.mapping []) = .ok object ∧
      (barracks "ten").instantiate .expressions "hero" object.value = .error e :=
  ⟨_, _, rfl, rfl⟩

end Catalog

end Tabletop
