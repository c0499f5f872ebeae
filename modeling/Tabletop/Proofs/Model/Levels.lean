/-
Tabletop.Proofs.Model.Levels — builds without a number of levels.

A build is bounded by a number of levels, which `instantiate` takes from the
nesting of the data. The number is never used up: nested objects are built
from values inside the data, and these are less deep. So a nested object is
built as it would be by itself, and a build has an equation that mentions no
levels. A strict build succeeds exactly if filling in, the formulas, the
attributes and the rules have nothing to report (`Begins.instantiate_eq_ok_iff`).

  §1 Depth
  §2 Conversions of values that are not too deep
  §3 Enough levels
  §4 Builds by themselves
-/
import Tabletop.Proofs.Model.Completing

namespace Tabletop

variable {fields : Fields} {attributes : List (String × Attribute)} {model key : String}
  {v w data : Value} {levels more n : Nat}

/-! ## §1 Depth -/

namespace Value

theorem depth_lt_of_mem {items : List Value} (h : v ∈ items) : v.depth < (list items).depth := by
  rw [depth, Nat.lt_succ_iff]
  induction items with
  | nil => exact absurd h List.not_mem_nil
  | cons first rest ih =>
    rw [depthItems]
    rcases List.mem_cons.mp h with rfl | later
    · exact Nat.le_max_left _ _
    · exact Nat.le_trans (ih later) (Nat.le_max_right _ _)

theorem depth_lt_of_get? (h : Entries.get? fields key = some v) :
    v.depth < (mapping fields).depth := by
  rw [depth, Nat.lt_succ_iff]
  induction fields with
  | nil => cases h
  | cons entry rest ih =>
    obtain ⟨name, first⟩ := entry
    rw [depthFields]
    rw [Entries.get?_cons] at h
    by_cases same : name = key
    · rw [if_pos same] at h
      cases h
      exact Nat.le_max_left _ _
    · rw [if_neg same] at h
      exact Nat.le_trans (ih h) (Nat.le_max_right _ _)

theorem depth_lt_of_child? {segment : String} (h : v.child? segment = some w) :
    w.depth < v.depth := by
  cases v with
  | mapping fields => exact depth_lt_of_get? h
  | list items =>
    obtain ⟨i, _, found⟩ := Option.bind_eq_some_iff.mp h
    exact depth_lt_of_mem (List.mem_of_getElem? found)
  | _ => cases h

/-- What is inside a value is less deep. -/
theorem depth_lt_of_at? {p : Path} (inside : p ≠ []) (h : v.at? p = some w) :
    w.depth < v.depth := by
  induction p generalizing v with
  | nil => exact absurd rfl inside
  | cons segment rest ih =>
    rw [at?_cons] at h
    obtain ⟨u, below, h⟩ := Option.bind_eq_some_iff.mp h
    have step := depth_lt_of_child? below
    cases rest with
    | nil =>
      cases h
      exact step
    | cons next rest => exact Nat.lt_trans (ih (List.cons_ne_nil _ _) h) step

/-- The number of builds inside one another that a value may need, less one. From null an object
without data is built. -/
def reach : Value → Nat
  | .null => 1
  | v => v.depth

theorem reach_of_ne_null (h : v ≠ .null) : v.reach = v.depth := by
  cases v with
  | null => exact absurd rfl h
  | _ => rfl

theorem reach_le_of_mem {items : List Value} (h : v ∈ items) :
    v.reach ≤ (list items).depth := by
  by_cases null : v = .null
  · rw [null, depth]
    exact Nat.succ_le_succ (Nat.zero_le _)
  · rw [reach_of_ne_null null]
    exact Nat.le_of_lt (depth_lt_of_mem h)

theorem reach_lt_depth_add_two (v : Value) : v.reach < v.depth + 2 := by
  by_cases null : v = .null
  · rw [null]
    exact Nat.lt_succ_of_le (Nat.succ_le_succ (Nat.zero_le _))
  · rw [reach_of_ne_null null]
    omega

end Value

/-! ## §2 Conversions of values that are not too deep -/

section Conversions

variable {isModel : String → Bool}
  {build other : String → Value → Except InstantiationError Value}

/-- A value is converted alike by builds that agree on what it holds. -/
theorem coerceAttribute_congr (d : AttributeDefinition) (full : v ≠ .null)
    (agree : ∀ id u, u.reach ≤ v.depth → build id u = other id u) :
    coerceAttribute isModel build d v = coerceAttribute isModel other d v := by
  have each : ∀ typeName u, u.reach ≤ v.depth →
      coerceTyped isModel build typeName u = coerceTyped isModel other typeName u := by
    intro typeName u small
    unfold coerceTyped
    rw [agree typeName u small]
  unfold coerceAttribute
  rw [each d.typeName v (Nat.le_of_eq (Value.reach_of_ne_null full))]
  split
  · rfl
  · split
    · rw [mapM_congr fun u hu => each _ u (Value.reach_le_of_mem hu)]
    · rfl

end Conversions

variable {coerce other : AttributeDefinition → Value → Except InstantiationError Value}

/-- Filling in is the same with conversions that agree on all values that are not too deep, where
no value of the fields is. -/
theorem fillGroup_congr {parent : Path} (distinct : DistinctNames attributes)
    (agree : ∀ d v, v ≠ .null → v.depth < n → coerce d v = other d v)
    (shallow : ∀ name ∈ Entries.keys attributes, ∀ v, Entries.get? fields name = some v →
      v.depth < n) :
    fillGroup coerce parent fields attributes = fillGroup other parent fields attributes := by
  induction attributes using Attributes.forest generalizing parent fields with
  | nil => rw [fillGroup, fillGroup]
  | leaf name d rest ih =>
    obtain ⟨fresh, distinct⟩ := distinctNames_leaf.mp distinct
    have here : fillLeaf coerce (parent ++ [name]) name d fields
        = fillLeaf other (parent ++ [name]) name d fields := by
      unfold fillLeaf
      cases present : presentField? fields name with
      | none => rfl
      | some v =>
        obtain ⟨found, full⟩ := presentField?_eq_some_iff.mp present
        dsimp only
        rw [agree d v full (shallow name List.mem_cons_self v found)]
    rw [fillGroup_cons, fillGroup_cons, Attribute.fill, Attribute.fill, here]
    dsimp only
    rw [ih distinct]
    intro key there v found
    have fresh : name ≠ key := fun same => fresh (same ▸ there)
    rw [get?_fillLeaf other _ d fields fresh] at found
    exact shallow key (List.mem_cons_of_mem _ there) v found
  | group name children rest ihc ih =>
    obtain ⟨fresh, nested, distinct⟩ := distinctNames_group.mp distinct
    have here : (Attribute.group children).fill coerce parent name fields
        = (Attribute.group children).fill other parent name fields := by
      cases opened : (Value.inner fields name).fields? with
      | none => rw [fill_closed coerce parent opened, fill_closed other parent opened]
      | some inner =>
        rw [fill_opened coerce parent opened, fill_opened other parent opened, ihc nested]
        intro child _ v found
        unfold Value.inner at opened
        cases there : Entries.get? fields name with
        | none =>
          rw [there] at opened
          cases opened
          cases found
        | some u =>
          rw [there] at opened
          have less := shallow name List.mem_cons_self u there
          cases u <;> cases opened
          · cases found
          · exact Nat.lt_trans (Value.depth_lt_of_get? found) less
    rw [fillGroup_cons, fillGroup_cons, here]
    dsimp only
    rw [ih distinct]
    intro key there v found
    have fresh : name ≠ key := fun same => fresh (same ▸ there)
    rw [get?_fill other parent fields _ fresh] at found
    exact shallow key (List.mem_cons_of_mem _ there) v found

/-! ## §3 Enough levels -/

/-- The fields that a build starts with are less deep than the data. -/
theorem depth_lt_of_dataFields (begun : dataFields model data = .ok fields)
    (found : Entries.get? fields key = some v) : v.depth < data.reach := by
  have named : ∀ {own : Fields}, Entries.get? (Entries.insert own "model" (.text model)) key
      = some v → (∀ u, Entries.get? own key = some u → u.depth < data.reach) →
      0 < data.reach → v.depth < data.reach := by
    intro own found less some_levels
    rw [Entries.get?_insert] at found
    split at found
    · cases found
      exact some_levels
    · exact less v found
  cases data with
  | null =>
    cases begun
    exact named found nofun Nat.one_pos
  | mapping own =>
    cases begun
    exact named found (fun u => Value.depth_lt_of_get?) (Nat.succ_pos _)
  | _ => cases begun

namespace Catalog

variable {c : Catalog} {r : Resolver} {strict : Bool}

/-- In every group of every model the names are distinct. -/
def Distinct (c : Catalog) : Prop :=
  ∀ id attributes, c.attributes? id = some attributes → DistinctNames attributes

/-- Inheritance keeps names distinct. -/
theorem distinctNames_inherited {enterable : Entries Model} {merged : Attributes}
    (own : ∀ e ∈ enterable, DistinctNames e.2.attributes) (h : DistinctNames merged)
    (parents : List String) : DistinctNames (inherited levels enterable parents merged) := by
  induction levels generalizing enterable parents merged with
  | zero => exact h
  | succ levels ih =>
    unfold inherited
    induction parents generalizing merged with
    | nil => exact h
    | cons p rest below =>
      rw [List.foldl_cons]
      refine below ?_
      cases found : Entries.get? enterable p with
      | none => exact h
      | some m =>
        refine (ih (fun e he => own e (List.mem_filter.mp he).1) h _).override ?_
        exact own _ (Entries.mem_of_get? found)

/-- What holds of the trees of all models holds of every tree. -/
theorem forall_attributes {P : Attributes → Prop}
    (each : ∀ e ∈ c.models, ∀ attributes, c.attributes? e.1 = some attributes → P attributes)
    (id : String) (attributes : Attributes) (tree : c.attributes? id = some attributes) :
    P attributes := by
  obtain ⟨m, known, _⟩ := Option.map_eq_some_iff.mp tree
  exact each _ (Entries.mem_of_get? known) attributes tree

/-- Names are distinct in every tree if they are in what each model declares. -/
theorem distinct_of_own (own : ∀ e ∈ c.models, DistinctNames e.2.attributes) : c.Distinct := by
  intro id attributes tree
  obtain ⟨m, known, rfl⟩ := Option.map_eq_some_iff.mp tree
  refine (distinctNames_inherited (fun e he => own e (List.mem_filter.mp he).1) ?_ _).override
    (own _ (Entries.mem_of_get? known))
  rw [DistinctNames]
  trivial

/-- Above what a value may need the number of levels does not matter. -/
theorem buildObject_levels (distinct : c.Distinct) (h : data.reach < levels)
    (hm : data.reach < more) :
    buildObject c r strict levels model data = buildObject c r strict more model data := by
  -- the induction is on the levels: nested objects are built with one less
  induction levels generalizing more model data with
  | zero => exact absurd h (Nat.not_lt_zero _)
  | succ levels ih =>
    obtain ⟨more, rfl⟩ := Nat.exists_eq_succ_of_ne_zero (Nat.ne_zero_of_lt hm)
    cases known : c.model? model with
    | none => rw [buildObject, buildObject, known]
    | some m =>
      obtain ⟨attributes, tree⟩ := attributes?_of_known known
      cases begun : dataFields model data with
      | error e =>
        rw [buildObject, buildObject, known, tree, begun]
        rfl
      | ok fields =>
        have same : fillGroup (c.conversion r strict levels) [] fields attributes
            = fillGroup (c.conversion r strict more) [] fields attributes := by
          refine fillGroup_congr (n := data.reach) (distinct model attributes tree) ?_
            fun _ _ v found => depth_lt_of_dataFields begun found
          intro d v full less
          refine coerceAttribute_congr d full fun id u small => ?_
          exact congrArg (Except.map ModelObject.value) (ih (by omega) (by omega))
        rw [buildObject_succ known tree begun, buildObject_succ known tree begun, same]

/-! ## §4 Builds by themselves -/

/-- The object of a model that the data make up, with as many levels as the data need. -/
def build (c : Catalog) (r : Resolver) (strict : Bool) (model : String) (data : Value) :
    Except InstantiationError ModelObject :=
  buildObject c r strict (data.depth + 2) model data

theorem build_strict : c.build r true model data = c.instantiate r model data := rfl

theorem build_lenient : c.build r false model data = c.instantiateLenient r model data := rfl

/-- The conversion of attributes, nested objects built by themselves. -/
def convert (c : Catalog) (r : Resolver) (strict : Bool) :
    AttributeDefinition → Value → Except InstantiationError Value :=
  coerceAttribute (fun id => (c.model? id).isSome) fun id v =>
    (c.build r strict id v).map ModelObject.value

/-- The fields of a model filled in, with the violations on the way. -/
def filled (c : Catalog) (r : Resolver) (strict : Bool) (attributes : Attributes)
    (fields : Fields) : Fields × List Violation :=
  fillGroup (c.convert r strict) [] fields attributes

/-- The fields filled in and with their formulas computed, with the violations of the formulas. -/
def completed (c : Catalog) (r : Resolver) (strict : Bool) (attributes : Attributes)
    (fields : Fields) : Fields × List Violation :=
  completeGroup (c.convert r strict) r fields attributes

/-- What completed fields violate. -/
def unmet (r : Resolver) (m : Model) (attributes : Attributes) (fields : Fields) :
    List Violation :=
  groupViolations [] fields attributes ++ ruleViolations r m.validations fields

/-- The build of an object from the data begins with the fields and goes through the tree. -/
structure Begins (c : Catalog) (model : String) (data : Value) (m : Model)
    (attributes : Attributes) (fields : Fields) : Prop where
  known : c.model? model = some m
  tree : c.attributes? model = some attributes
  start : dataFields model data = .ok fields

variable {m : Model}

/-- A build fills in and computes. Only a strict one can refuse what comes of it, with all
violations. -/
theorem Begins.build_eq (h : c.Begins model data m attributes fields) (distinct : c.Distinct)
    (strict : Bool) :
    c.build r strict model data
      = let complete := (c.completed r strict attributes fields).1
        let violations := (c.filled r strict attributes fields).2
          ++ (c.completed r strict attributes fields).2 ++ unmet r m attributes complete
        if strict then
          if violations.isEmpty then .ok ⟨model, complete⟩
          else .error (.invalid model violations)
        else .ok ⟨model, complete⟩ := by
  have same : fillGroup (c.conversion r strict (data.depth + 1)) [] fields attributes
      = c.filled r strict attributes fields := by
    refine fillGroup_congr (n := data.reach) (distinct model attributes h.tree) ?_
      fun _ _ v found => depth_lt_of_dataFields h.start found
    intro d v full less
    refine coerceAttribute_congr d full fun id u small => ?_
    have := data.reach_lt_depth_add_two
    rw [build, buildObject_levels distinct (by omega) u.reach_lt_depth_add_two]
  rw [build, buildObject_succ h.known h.tree h.start, same]
  unfold completed completeGroup filled unmet
  simp only [List.append_assoc]

/-- A build begins, or it fails because the model is unknown or the data have no fields. -/
theorem begins_or_fails (c : Catalog) (r : Resolver) (strict : Bool) (model : String)
    (data : Value) :
    (∃ m attributes fields, c.Begins model data m attributes fields) ∨
      c.build r strict model data = .error (.unknownModel model) ∨
      c.build r strict model data = .error (.notAMapping model) := by
  unfold build
  rw [buildObject]
  cases known : c.model? model with
  | none => exact Or.inr (Or.inl rfl)
  | some m =>
    obtain ⟨attributes, tree⟩ := attributes?_of_known known
    rw [tree]
    cases start : dataFields model data with
    | ok fields => exact Or.inl ⟨m, attributes, fields, known, tree, start⟩
    | error e =>
      obtain ⟨_, _, rfl⟩ := dataFields_eq_error_iff.mp start
      exact Or.inr (Or.inr rfl)

/-- What is built has begun. -/
theorem exists_begins {object : ModelObject} (h : c.build r strict model data = .ok object) :
    ∃ m attributes fields, c.Begins model data m attributes fields := by
  rcases begins_or_fails c r strict model data with begun | failed | failed
  · exact begun
  · rw [failed] at h
    cases h
  · rw [failed] at h
    cases h

/-- The build goes through without anything to report. -/
structure Flawless (c : Catalog) (r : Resolver) (m : Model) (attributes : Attributes)
    (fields : Fields) : Prop where
  filled : (c.filled r true attributes fields).2 = []
  computed : (c.completed r true attributes fields).2 = []
  met : unmet r m attributes (c.completed r true attributes fields).1 = []

/-- A strict build succeeds exactly if there is nothing to report. -/
theorem Begins.instantiate_eq_ok_iff {object : ModelObject}
    (h : c.Begins model data m attributes fields) (distinct : c.Distinct) :
    c.instantiate r model data = .ok object ↔ c.Flawless r m attributes fields ∧
      object = ⟨model, (c.completed r true attributes fields).1⟩ := by
  rw [← build_strict, h.build_eq distinct]
  simp only [if_true]
  constructor
  · intro made
    split at made
    · rename_i nothing
      rw [List.isEmpty_iff, List.append_eq_nil_iff, List.append_eq_nil_iff] at nothing
      exact ⟨⟨nothing.1.1, nothing.1.2, nothing.2⟩, (Except.ok.inj made).symm⟩
    · cases made
  · rintro ⟨⟨filled, computed, met⟩, rfl⟩
    rw [filled, computed, met]
    rfl

/-- A strict build that goes through with something to report fails with all of it. -/
theorem Begins.instantiate_eq_error_iff {e : InstantiationError}
    (h : c.Begins model data m attributes fields) (distinct : c.Distinct) :
    c.instantiate r model data = .error e ↔ ¬ c.Flawless r m attributes fields ∧
      e = .invalid model ((c.filled r true attributes fields).2
        ++ (c.completed r true attributes fields).2
        ++ unmet r m attributes (c.completed r true attributes fields).1) := by
  rw [← build_strict, h.build_eq distinct]
  simp only [if_true]
  constructor
  · intro failed
    split at failed
    · cases failed
    · rename_i something
      refine ⟨fun sound => something ?_, (Except.error.inj failed).symm⟩
      rw [sound.filled, sound.computed, sound.met]
      rfl
  · rintro ⟨unsound, rfl⟩
    rw [if_neg]
    intro nothing
    rw [List.isEmpty_iff, List.append_eq_nil_iff, List.append_eq_nil_iff] at nothing
    exact unsound ⟨nothing.1.1, nothing.1.2, nothing.2⟩

/-- A lenient build that begins succeeds. -/
theorem Begins.instantiateLenient (h : c.Begins model data m attributes fields)
    (distinct : c.Distinct) :
    c.instantiateLenient r model data
      = .ok ⟨model, (c.completed r false attributes fields).1⟩ := by
  rw [← build_lenient, h.build_eq distinct]
  rfl

end Catalog

end Tabletop
