/-
Tabletop.Proofs.Model.Nesting — builds inside one another.

Models may have attributes of their own type, and their defaults may be
objects of any depth, so neither the models nor what a build puts in bounds
the number of builds inside one another. What bounds it is the data: a build
hands on only what it has been given, at the place where it stands, since a
default is put in without being converted and a group that is put in has
nothing to convert. The one value that a build hands on without having been
given it is the id of the model, which is a text and holds nothing.

A build without a number of levels is described by what it makes of the
results of the builds inside it (`Catalog.buildWith`); it ends if all of
those end (`Catalog.Finishes`). Main statement: every build ends, with what
instantiation gives; the builds inside it are of supplied values; and at
most two more of them are inside one another than the data are deep
(`builds_end`).

  §1 The conversions of a build
  §2 The builds inside a build
  §3 What they are given
  §4 Builds end
-/
import Tabletop.Proofs.Model.Levels

namespace Tabletop

variable {coerce other : AttributeDefinition → Value → Except InstantiationError Value}
  {attributes rest children : List (String × Attribute)} {fields inner : Fields}
  {name model : String} {d : AttributeDefinition} {parent place p : Path} {v data : Value}

/-! ## §1 The conversions of a build -/

/-- A value that is converted: the place where it stands, and the attribute there. -/
structure Conversion where
  place : Path
  definition : AttributeDefinition
  value : Value

/-- The conversion of a leaf that has a value to be converted. -/
def leafConversions (path : Path) (name : String) (d : AttributeDefinition) (fields : Fields) :
    List Conversion :=
  if d.derived.isSome then []
  else
    match presentField? fields name with
    | none => []
    | some v => [⟨path, d, v⟩]

mutual

/-- The conversions on the way through a node, in the fields of its group. -/
def Attribute.conversions (coerce : AttributeDefinition → Value → Except InstantiationError Value)
    (parent : Path) (name : String) (fields : Fields) : Attribute → List Conversion
  | .leaf d => leafConversions (parent ++ [name]) name d fields
  | .group children =>
      match (presentField? fields name).getD (.mapping []) with
      | .mapping inner => groupConversions coerce (parent ++ [name]) inner children
      | _ => []

/-- The conversions on the way through a group: each node finds the fields as those before it have
left them. -/
def groupConversions (coerce : AttributeDefinition → Value → Except InstantiationError Value)
    (parent : Path) (fields : Fields) : List (String × Attribute) → List Conversion
  | [] => []
  | (name, node) :: rest =>
      node.conversions coerce parent name fields
        ++ groupConversions coerce parent (node.fill coerce parent name fields).1 rest

end

theorem groupConversions_nil : groupConversions coerce parent fields [] = [] := by
  rw [groupConversions]

theorem groupConversions_cons
    (coerce : AttributeDefinition → Value → Except InstantiationError Value) (parent : Path)
    (fields : Fields) (name : String) (node : Attribute) (rest : List (String × Attribute)) :
    groupConversions coerce parent fields ((name, node) :: rest)
      = node.conversions coerce parent name fields
        ++ groupConversions coerce parent (node.fill coerce parent name fields).1 rest := by
  rw [groupConversions]

theorem conversions_leaf : (Attribute.leaf d).conversions coerce parent name fields
    = leafConversions (parent ++ [name]) name d fields := by
  rw [Attribute.conversions]

/-- Inside a group that is open its nodes are converted. -/
theorem conversions_opened (opened : (Value.inner fields name).fields? = some inner) :
    (Attribute.group children).conversions coerce parent name fields
      = groupConversions coerce (parent ++ [name]) inner children := by
  rw [Attribute.conversions, present_of_opened opened]

/-- Any other value in the place of a group is left as it is. -/
theorem conversions_closed (closed : (Value.inner fields name).fields? = none) :
    (Attribute.group children).conversions coerce parent name fields = [] := by
  rw [Attribute.conversions]
  split
  · rename_i inner held
    exact absurd held (present_of_closed closed inner)
  · rfl

/-- A leaf that is converted is not computed, and a value stands there. -/
theorem of_mem_leafConversions {e : Conversion} (h : e ∈ leafConversions place name d fields) :
    e.place = place ∧ e.definition = d ∧ Entries.get? fields name = some e.value ∧
      e.value ≠ .null := by
  unfold leafConversions at h
  split at h
  · exact absurd h List.not_mem_nil
  · cases present : presentField? fields name with
    | none =>
      rw [present] at h
      exact absurd h List.not_mem_nil
    | some v =>
      rw [present] at h
      obtain rfl := List.mem_singleton.mp h
      obtain ⟨found, full⟩ := presentField?_eq_some_iff.mp present
      exact ⟨rfl, rfl, found, full⟩

theorem fillLeaf_of_conversions (agree : ∀ e ∈ leafConversions place name d fields,
      coerce e.definition e.value = other e.definition e.value) :
    fillLeaf coerce place name d fields = fillLeaf other place name d fields := by
  unfold leafConversions at agree
  unfold fillLeaf
  split
  · rfl
  · rw [if_neg ‹_›] at agree
    cases present : presentField? fields name with
    | none => rfl
    | some v =>
      rw [present] at agree
      have same : coerce d v = other d v := agree _ List.mem_cons_self
      dsimp only
      rw [same]

/-- Filling in depends on nothing but the results of its conversions. -/
theorem fillGroup_of_conversions (agree : ∀ e ∈ groupConversions coerce parent fields attributes,
      coerce e.definition e.value = other e.definition e.value) :
    fillGroup coerce parent fields attributes = fillGroup other parent fields attributes := by
  induction attributes using Attributes.forest generalizing parent fields with
  | nil => rw [fillGroup, fillGroup]
  | leaf name d rest ih =>
    rw [groupConversions_cons, List.forall_mem_append, conversions_leaf] at agree
    -- the nodes after this one find what it has left, which is the same on both sides
    have here : (Attribute.leaf d).fill coerce parent name fields
        = (Attribute.leaf d).fill other parent name fields := by
      rw [Attribute.fill, Attribute.fill, fillLeaf_of_conversions agree.1]
    rw [fillGroup_cons, fillGroup_cons, ← here]
    dsimp only
    rw [ih agree.2]
  | group name children rest ihc ih =>
    rw [groupConversions_cons, List.forall_mem_append] at agree
    have here : (Attribute.group children).fill coerce parent name fields
        = (Attribute.group children).fill other parent name fields := by
      cases opened : (Value.inner fields name).fields? with
      | none => rw [fill_closed coerce parent opened, fill_closed other parent opened]
      | some inner =>
        rw [conversions_opened opened] at agree
        rw [fill_opened coerce parent opened, fill_opened other parent opened, ihc agree.1]
    rw [fillGroup_cons, fillGroup_cons, ← here]
    dsimp only
    rw [ih agree.2]

/-- What is converted at a place is what the fields have there from the start. -/
theorem of_mem_groupConversions {e : Conversion} (distinct : DistinctNames attributes)
    (h : e ∈ groupConversions coerce parent fields attributes) :
    ∃ p, e.place = parent ++ p ∧ (p, .leaf e.definition) ∈ places attributes ∧
      (Value.mapping fields).at? p = some e.value ∧ e.value ≠ .null := by
  induction attributes using Attributes.forest generalizing parent fields with
  | nil =>
    rw [groupConversions_nil] at h
    exact absurd h List.not_mem_nil
  | leaf name d rest ih =>
    obtain ⟨fresh, distinct⟩ := distinctNames_leaf.mp distinct
    rw [groupConversions_cons, conversions_leaf] at h
    rcases List.mem_append.mp h with here | later
    · obtain ⟨placed, same, found, full⟩ := of_mem_leafConversions here
      exact ⟨[name], placed, mem_places_leaf.mpr (Or.inl ⟨rfl, congrArg _ same⟩),
        at?_single.trans found, full⟩
    · -- what the leaf has left under its own name is not below any later name
      obtain ⟨p, placed, there, found, full⟩ := ih distinct later
      obtain ⟨first, q, rfl, apart⟩ := head_ne fresh there
      rw [at?_of_get? (get?_fill coerce parent fields _ apart)] at found
      exact ⟨_, placed, mem_places_leaf.mpr (Or.inr there), found, full⟩
  | group name children rest ihc ih =>
    obtain ⟨fresh, nested, distinct⟩ := distinctNames_group.mp distinct
    rw [groupConversions_cons] at h
    rcases List.mem_append.mp h with here | later
    · cases opened : (Value.inner fields name).fields? with
      | none =>
        rw [conversions_closed opened] at here
        exact absurd here List.not_mem_nil
      | some inner =>
        rw [conversions_opened opened] at here
        obtain ⟨p, placed, there, found, full⟩ := ihc nested here
        rw [List.append_assoc, List.singleton_append] at placed
        exact ⟨name :: p, placed, mem_places_group.mpr (Or.inr (Or.inl ⟨p, rfl, there⟩)),
          (at?_of_opened opened (ne_nil_of_mem_places there)).trans found, full⟩
    · obtain ⟨p, placed, there, found, full⟩ := ih distinct later
      obtain ⟨first, q, rfl, apart⟩ := head_ne fresh there
      rw [at?_of_get? (get?_fill coerce parent fields _ apart)] at found
      exact ⟨_, placed, mem_places_group.mpr (Or.inr (Or.inr there)), found, full⟩

/-! ## §2 The builds inside a build -/

/-- A build that is made inside another one: the place of the attribute it is made for, the model,
and the data it is given. -/
structure NestedBuild where
  place : Path
  model : String
  data : Value

section Builds

variable {isModel : String → Bool} {build made : String → Value → Except InstantiationError Value}
  {typeName : String} {b : NestedBuild}

/-- The build of an object that a conversion to a type makes. -/
def typedBuilds (isModel : String → Bool) (place : Path) (typeName : String) (v : Value) :
    List NestedBuild :=
  if isPrimitive typeName then []
  else if isModel typeName then [⟨place, typeName, v⟩]
  else []

/-- The builds that a conversion makes: of the value, or of the items of a list. Those after an item
that fails are counted too, though no object is made of them. -/
def Conversion.builds (isModel : String → Bool) (e : Conversion) : List NestedBuild :=
  if isPrimitive e.definition.typeName || isModel e.definition.typeName then
    typedBuilds isModel e.place e.definition.typeName e.value
  else
    match e.definition.typeName, e.value, e.definition.element with
    | "list", .list items, some element => items.flatMap (typedBuilds isModel e.place element)
    | _, _, _ => []

theorem of_mem_typedBuilds (h : b ∈ typedBuilds isModel place typeName v) :
    b.place = place ∧ b.data = v := by
  unfold typedBuilds at h
  split at h
  · exact absurd h List.not_mem_nil
  · split at h
    · obtain rfl := List.mem_singleton.mp h
      exact ⟨rfl, rfl⟩
    · exact absurd h List.not_mem_nil

/-- A conversion builds from its value, or from the items if that is a list. -/
theorem Conversion.of_mem_builds {e : Conversion} (h : b ∈ e.builds isModel) :
    b.place = e.place ∧ (b.data = e.value ∨ ∃ items, e.value = .list items ∧ b.data ∈ items) := by
  unfold Conversion.builds at h
  split at h
  · obtain ⟨placed, given⟩ := of_mem_typedBuilds h
    exact ⟨placed, Or.inl given⟩
  · split at h
    · rename_i items element _ held _
      obtain ⟨item, among, h⟩ := List.mem_flatMap.mp h
      obtain ⟨placed, given⟩ := of_mem_typedBuilds h
      exact ⟨placed, Or.inr ⟨items, held, given ▸ among⟩⟩
    · exact absurd h List.not_mem_nil

theorem coerceTyped_of_builds (place : Path)
    (agree : ∀ b ∈ typedBuilds isModel place typeName v,
      build b.model b.data = made b.model b.data) :
    coerceTyped isModel build typeName v = coerceTyped isModel made typeName v := by
  unfold typedBuilds at agree
  unfold coerceTyped
  split
  · rfl
  · rw [if_neg ‹_›] at agree
    split
    · rw [if_pos ‹_›] at agree
      exact agree _ List.mem_cons_self
    · rfl

/-- A conversion depends on nothing but the results of its builds. -/
theorem coerceAttribute_of_builds (e : Conversion)
    (agree : ∀ b ∈ e.builds isModel, build b.model b.data = made b.model b.data) :
    coerceAttribute isModel build e.definition e.value
      = coerceAttribute isModel made e.definition e.value := by
  unfold Conversion.builds at agree
  unfold coerceAttribute
  split
  · rw [if_pos ‹_›] at agree
    exact coerceTyped_of_builds e.place agree
  · rw [if_neg ‹_›] at agree
    split
    · rename_i items element named held typed
      rw [named, held, typed] at agree
      rw [mapM_congr fun item among => coerceTyped_of_builds e.place fun b hb =>
        agree b (List.mem_flatMap.mpr ⟨item, among, hb⟩)]
    · rfl

end Builds

namespace Catalog

variable {c : Catalog} {r : Resolver} {strict : Bool} {levels : Nat}
  {nested made : String → Value → Except InstantiationError ModelObject}

/-- The conversion of attributes with given results of the builds inside. -/
def coercion (c : Catalog) (nested : String → Value → Except InstantiationError ModelObject) :
    AttributeDefinition → Value → Except InstantiationError Value :=
  coerceAttribute (fun id => (c.model? id).isSome) fun id v => (nested id v).map ModelObject.value

/-- A build with given results of the builds inside. -/
def buildWith (c : Catalog) (r : Resolver) (strict : Bool)
    (nested : String → Value → Except InstantiationError ModelObject) (model : String)
    (data : Value) : Except InstantiationError ModelObject :=
  match c.model? model, c.attributes? model with
  | some m, some attributes => do
      let fields ← dataFields model data
      let (filled, atFilling) := fillGroup (c.coercion nested) [] fields attributes
      let (complete, atFormulas) := computeFormulas r (groupFormulas [] attributes) filled
      if strict then
        let violations := atFilling ++ atFormulas ++ groupViolations [] complete attributes
          ++ ruleViolations r m.validations complete
        if violations.isEmpty then .ok ⟨model, complete⟩
        else .error (.invalid model violations)
      else .ok ⟨model, complete⟩
  | _, _ => .error (.unknownModel model)

/-- The builds that a build makes inside, with given results of them. -/
def nestedBuilds (c : Catalog) (nested : String → Value → Except InstantiationError ModelObject)
    (model : String) (data : Value) : List NestedBuild :=
  match c.attributes? model, dataFields model data with
  | some attributes, .ok fields =>
      (groupConversions (c.coercion nested) [] fields attributes).flatMap
        (Conversion.builds fun id => (c.model? id).isSome)
  | _, _ => []

/-- A build with levels to spare is one whose inner builds have a level less. -/
theorem buildObject_eq_buildWith :
    buildObject c r strict (levels + 1) model data
      = c.buildWith r strict (buildObject c r strict levels) model data := by
  rw [buildObject, buildWith]
  rfl

/-- A build depends on nothing but the results of the builds that it makes inside. -/
theorem buildWith_congr (agree : ∀ b ∈ c.nestedBuilds nested model data,
      nested b.model b.data = made b.model b.data) :
    c.buildWith r strict nested model data = c.buildWith r strict made model data := by
  unfold nestedBuilds at agree
  unfold buildWith
  cases known : c.model? model with
  | none => rfl
  | some m =>
    obtain ⟨attributes, tree⟩ := attributes?_of_known known
    rw [tree] at agree ⊢
    cases begun : dataFields model data with
    | error e => rfl
    | ok fields =>
      rw [begun] at agree
      have same : fillGroup (c.coercion nested) [] fields attributes
          = fillGroup (c.coercion made) [] fields attributes := by
        refine fillGroup_of_conversions fun e he => coerceAttribute_of_builds e fun b hb => ?_
        exact congrArg (Except.map ModelObject.value)
          (agree b (List.mem_flatMap.mpr ⟨e, he, hb⟩))
      dsimp only [bind, Except.bind]
      rw [same]

end Catalog

/-! ## §3 What they are given -/

/-- What the build is given is what the data of the outer build have at its place, or an item of the
list there. Only at the place `model` it is the id of the outer model, which stands there instead of
anything that the data may have. -/
inductive NestedBuild.Supplied (model : String) (data : Value) (b : NestedBuild) : Prop
  | injected (here : b.place = ["model"]) (given : b.data = .text model)
  | whole (inside : b.place ≠ []) (apart : b.place.head? ≠ some "model")
      (given : data.at? b.place = some b.data)
  | item {items : List Value} (inside : b.place ≠ []) (apart : b.place.head? ≠ some "model")
      (held : data.at? b.place = some (.list items)) (given : b.data ∈ items)

/-- Where the id of the model stands it is the only value, elsewhere the fields of a build are those
of its data. -/
theorem at?_of_dataFields (begun : dataFields model data = .ok fields) (inside : p ≠ [])
    (found : (Value.mapping fields).at? p = some v) :
    p = ["model"] ∧ v = .text model ∨ p.head? ≠ some "model" ∧ data.at? p = some v := by
  obtain ⟨first, q, rfl⟩ := List.exists_cons_of_ne_nil inside
  by_cases here : first = "model"
  · subst here
    rw [Value.at?_cons, Value.child?_mapping, get?_dataFields begun, Option.bind_some] at found
    cases q with
    | nil => exact Or.inl ⟨rfl, (Option.some.inj found).symm⟩
    | cons next more => cases found
  · refine Or.inr ⟨fun same => here (Option.some.inj same), ?_⟩
    cases data with
    | null =>
      cases begun
      rw [Value.at?_cons, Value.child?_mapping, Entries.get?_insert_ne _ (Ne.symm here)] at found
      cases found
    | mapping own =>
      cases begun
      rwa [at?_of_get? (Entries.get?_insert_ne _ (Ne.symm here))] at found
    | _ => cases begun

namespace Catalog

variable {c : Catalog} {r : Resolver} {strict : Bool} {b : NestedBuild}
  {nested : String → Value → Except InstantiationError ModelObject}
  {result : Except InstantiationError ModelObject}

/-- A build inside is made for a value that the fields have at its place, or for an item of it. -/
theorem of_mem_nestedBuilds (distinct : c.Distinct) (h : b ∈ c.nestedBuilds nested model data) :
    ∃ fields v, dataFields model data = .ok fields ∧ b.place ≠ [] ∧
      (Value.mapping fields).at? b.place = some v ∧ v ≠ .null ∧
      (b.data = v ∨ ∃ items, v = .list items ∧ b.data ∈ items) := by
  unfold nestedBuilds at h
  cases tree : c.attributes? model with
  | none =>
    rw [tree] at h
    exact absurd h List.not_mem_nil
  | some attributes =>
    cases begun : dataFields model data with
    | error e =>
      rw [tree, begun] at h
      exact absurd h List.not_mem_nil
    | ok fields =>
      rw [tree, begun] at h
      obtain ⟨e, he, hb⟩ := List.mem_flatMap.mp h
      obtain ⟨p, placed, there, found, full⟩ :=
        of_mem_groupConversions (distinct model attributes tree) he
      obtain ⟨same, given⟩ := Conversion.of_mem_builds hb
      rw [List.nil_append] at placed
      rw [same, placed]
      exact ⟨fields, e.value, rfl, ne_nil_of_mem_places there, found, full, given⟩

/-- The builds inside a build are given what the data have, and the id of the model. -/
theorem supplied_of_mem (distinct : c.Distinct) (h : b ∈ c.nestedBuilds nested model data) :
    b.Supplied model data := by
  obtain ⟨fields, v, begun, inside, found, full, given⟩ := of_mem_nestedBuilds distinct h
  rcases at?_of_dataFields begun inside found with ⟨here, rfl⟩ | ⟨apart, held⟩
  · rcases given with given | ⟨items, list, -⟩
    · exact .injected here given
    · cases list
  · rcases given with given | ⟨items, rfl, given⟩
    · exact .whole inside apart (given ▸ held)
    · exact .item inside apart held given

/-- They need fewer levels. -/
theorem reach_lt_of_mem (distinct : c.Distinct) (h : b ∈ c.nestedBuilds nested model data) :
    b.data.reach < data.reach := by
  obtain ⟨fields, v, begun, inside, found, full, given⟩ := of_mem_nestedBuilds distinct h
  have less : v.depth < data.reach := by
    obtain ⟨first, q, split⟩ := List.exists_cons_of_ne_nil inside
    rw [split, Value.at?_cons] at found
    obtain ⟨u, there, found⟩ := Option.bind_eq_some_iff.mp found
    have outer := depth_lt_of_dataFields begun there
    by_cases whole : q = []
    · subst whole
      exact Option.some.inj found ▸ outer
    · exact Nat.lt_trans (Value.depth_lt_of_at? whole found) outer
  rcases given with given | ⟨items, rfl, given⟩
  · rwa [given, Value.reach_of_ne_null full]
  · exact Nat.lt_of_le_of_lt (Value.reach_le_of_mem given) less

/-! ## §4 Builds end -/

/-- The build of an object ends with the result: the builds inside it end with the given results,
and from these it makes that result. -/
inductive Finishes (c : Catalog) (r : Resolver) (strict : Bool) :
    String → Value → Except InstantiationError ModelObject → Prop
  | intro {model : String} {data : Value}
      (nested : String → Value → Except InstantiationError ModelObject)
      (each : ∀ b ∈ c.nestedBuilds nested model data,
        Finishes c r strict b.model b.data (nested b.model b.data)) :
      Finishes c r strict model data (c.buildWith r strict nested model data)

/-- A build makes the second object inside the first one. -/
def Nests (c : Catalog) (r : Resolver) (strict : Bool) (outer inner : String × Value) : Prop :=
  ∃ b ∈ c.nestedBuilds (c.build r strict) outer.1 outer.2, inner = (b.model, b.data)

/-- A build is made of the builds inside it, whatever the number of levels. -/
theorem build_eq_buildWith (distinct : c.Distinct) (r : Resolver) (strict : Bool) (model : String)
    (data : Value) : c.build r strict model data
      = c.buildWith r strict (c.build r strict) model data := by
  rw [build, buildObject_eq_buildWith]
  refine buildWith_congr fun b hb => ?_
  have less := reach_lt_of_mem distinct hb
  have bound := data.reach_lt_depth_add_two
  exact buildObject_levels distinct (by omega) b.data.reach_lt_depth_add_two

/-- A build ends in one way only, as instantiation does. -/
theorem Finishes.eq_build (distinct : c.Distinct) (h : c.Finishes r strict model data result) :
    result = c.build r strict model data := by
  induction h with
  | intro nested each ih =>
    rw [build_eq_buildWith distinct]
    exact buildWith_congr ih

theorem finishes_build (distinct : c.Distinct) (r : Resolver) (strict : Bool) (model : String)
    (data : Value) : c.Finishes r strict model data (c.build r strict model data) := by
  -- the induction is on what the data may need: what is given to a build inside needs less
  induction bound : data.reach using Nat.strongRecOn generalizing model data with
  | _ n ih =>
    rw [build_eq_buildWith distinct]
    exact .intro _ fun b hb => ih _ (bound ▸ reach_lt_of_mem distinct hb) b.model b.data rfl

/-- A chain on which a number falls is no longer than the number. -/
theorem length_le_of_falling {α : Type} {next : α → α → Prop} {rank : α → Nat}
    (falls : ∀ a b, next a b → rank b < rank a) {a : α} {chain : List α}
    (h : List.IsChain next (a :: chain)) : chain.length ≤ rank a := by
  induction chain generalizing a with
  | nil => exact Nat.zero_le _
  | cons b rest ih =>
    obtain ⟨step, onward⟩ := List.isChain_cons_cons.mp h
    exact Nat.lt_of_le_of_lt (ih onward) (falls a b step)

/-- The building of objects ends. Strict and lenient builds of any data end with what instantiation
gives, and with nothing else; the builds inside a build are of values that its data supply, or of
the id of its model; and a chain of builds inside one another has at most two more builds than the
data have levels. -/
theorem builds_end (distinct : c.Distinct) (r : Resolver) (model : String) (data : Value) :
    (∀ result, c.Finishes r true model data result ↔ result = c.instantiate r model data) ∧
    (∀ result, c.Finishes r false model data result ↔
      result = c.instantiateLenient r model data) ∧
    ∀ strict, (∀ b ∈ c.nestedBuilds (c.build r strict) model data, b.Supplied model data) ∧
      ∀ chain, List.IsChain (c.Nests r strict) ((model, data) :: chain) →
        chain.length + 1 ≤ data.depth + 2 := by
  have ends : ∀ strict result, c.Finishes r strict model data result ↔
      result = c.build r strict model data :=
    fun strict result => ⟨Finishes.eq_build distinct, fun same =>
      same ▸ finishes_build distinct r strict model data⟩
  refine ⟨ends true, ends false, fun strict => ⟨fun b => supplied_of_mem distinct, ?_⟩⟩
  intro chain linked
  have falls : ∀ outer inner, c.Nests r strict outer inner → inner.2.reach < outer.2.reach := by
    rintro outer _ ⟨b, hb, rfl⟩
    exact reach_lt_of_mem distinct hb
  have short : chain.length ≤ data.reach := length_le_of_falling falls linked
  have bound := data.reach_lt_depth_add_two
  omega

/-- Each person may have an heir, wards and a house with a steward, and a tutor who has an heir
stands in for one that is not given. -/
def dynasty : Catalog where
  models := [("person", { id := "person", attributes := [
    ("heir", .leaf { typeName := "person", optional := true }),
    ("wards", .leaf { typeName := "list", element := some "person", optional := true }),
    ("house", .group [("steward", .leaf { typeName := "person", optional := true })]),
    ("tutor", .leaf {
      typeName := "person", default := some (.mapping [("heir", .mapping [])]) })] })]

/-- A person whose heir has a ward. -/
def matriarch : Value :=
  .mapping [("heir", .mapping [("wards", .list [.mapping []])])]

/-- The names in the family's model are distinct. -/
theorem dynasty_distinct : dynasty.Distinct := by
  refine distinct_of_own ?_
  simp [dynasty, DistinctNames, Attribute.Distinct, Entries.keys]

/-- The build of the matriarch ends: her heir is built inside it, and the ward inside the heir. Her
tutor, who is a default, is not; and no chain is longer than her data allow. -/
theorem dynasty_ends :
    (∃ object, dynasty.instantiate .expressions "person" matriarch = .ok object ∧
      dynasty.Finishes .expressions true "person" matriarch (.ok object)) ∧
    dynasty.nestedBuilds (dynasty.build .expressions true) "person" matriarch
      = [⟨["heir"], "person", .mapping [("wards", .list [.mapping []])]⟩] ∧
    List.IsChain (dynasty.Nests .expressions true)
      [("person", matriarch), ("person", .mapping [("wards", .list [.mapping []])]),
        ("person", .mapping [])] ∧
    ∀ chain, List.IsChain (dynasty.Nests .expressions true) (("person", matriarch) :: chain) →
      chain.length ≤ 5 := by
  obtain ⟨ends, -, inside⟩ := builds_end dynasty_distinct .expressions "person" matriarch
  obtain ⟨-, short⟩ := inside true
  have heir : dynasty.nestedBuilds (dynasty.build .expressions true) "person" matriarch
      = [⟨["heir"], "person", .mapping [("wards", .list [.mapping []])]⟩] := by rfl
  have ward : dynasty.nestedBuilds (dynasty.build .expressions true) "person"
      (.mapping [("wards", .list [.mapping []])]) = [⟨["wards"], "person", .mapping []⟩] := by rfl
  refine ⟨⟨_, rfl, (ends _).mpr rfl⟩, heir, ?_, fun chain linked =>
    Nat.le_of_succ_le_succ (short chain linked)⟩
  exact .cons_cons ⟨_, heir ▸ List.mem_cons_self, rfl⟩
    (.cons_cons ⟨_, ward ▸ List.mem_cons_self, rfl⟩ (.singleton _))

end Catalog

end Tabletop
