/-
Tabletop.Proofs.Model.Leaves — the leaves of a model, by their paths.

A path can lead through groups and through attributes of other models to a
primitive attribute, a leaf. Two walks go along such a path. One finds the
declared type, segment by segment; the other builds the object, group by
group and one model inside another. They agree: what the data supply for the
leaf is converted into the type that is declared for its path, so it comes to
the same whether it is stored alone or with the whole object
(`Catalog.leaf_stored_alike`). Paths to leaves are followed model by model
(`Catalog.LeafAt`), and both walks by induction on that.

  §1 Supplied values
  §2 Supplied values in a build
  §3 Leaves
  §4 The walk of a build
  §5 The walk of declared types
  §6 Storing leaves
-/
import Tabletop.Flow.Typing
import Tabletop.Proofs.Model.Again
import Tabletop.Proofs.Value.Split

namespace Tabletop

open Tabletop.Path

variable {c : Catalog} {r : Resolver} {attributes inner : List (String × Attribute)}
  {fields other : Fields} {formulas : List Formula} {d : AttributeDefinition} {f : Flow}
  {field : FlowField} {data v w new : Value} {p q : Path} {name model t x : String}
  {object : ModelObject} {state : SlotState}

/-! ## §1 Supplied values -/

/-- The data supply a value for an attribute path: it is there, it is not null, and there are
mappings on the way. What a list holds is no attribute, even if a path is written alike. -/
structure Value.Supplies (data : Value) (p : Path) (v : Value) : Prop where
  way : data.Leads p
  found : data.at? p = some v
  full : v ≠ .null

namespace Value.Supplies

/-- What a supplied value supplies is supplied at the joined path. -/
theorem append (h : data.Supplies p w) (below : w.Supplies q v) : data.Supplies (p ++ q) v where
  way := h.way.append h.found below.way
  found := by
    rw [at?_append, h.found]
    exact below.found
  full := below.full

/-- What is supplied further down is supplied by a mapping that is supplied. -/
theorem split (h : data.Supplies (p ++ q) v) (more : q ≠ []) :
    ∃ inner, data.Supplies p (.mapping inner) ∧ (Value.mapping inner).Supplies q v := by
  obtain ⟨way, inner, there, below⟩ := h.way.split more
  have found := h.found
  rw [at?_append, there] at found
  exact ⟨inner, ⟨way, there, nofun⟩, below, found, h.full⟩

/-- Only mappings supply attributes. -/
theorem mapping (h : data.Supplies (name :: p) v) : ∃ fields, data = .mapping fields := by
  obtain ⟨fields, a_mapping⟩ := h.way [] List.nil_prefix (List.cons_ne_nil _ _).symm
  exact ⟨fields, Option.some.inj a_mapping⟩

/-- A field that is not on the path does not count for what is supplied there. -/
theorem insert (h : data.Supplies p v) (inside : p ≠ []) (off : name ∉ p) (new : Value) :
    ∃ fields, data = .mapping fields ∧
      (Value.mapping (Entries.insert fields name new)).Supplies p v := by
  obtain ⟨first, rest, rfl⟩ := List.exists_cons_of_ne_nil inside
  obtain ⟨fields, rfl⟩ := h.mapping
  have another : name ≠ first := fun same => off (same ▸ List.mem_cons_self)
  have kept : Entries.get? fields first = Entries.get? (Entries.insert fields name new) first :=
    (Entries.get?_insert_ne new another).symm
  exact ⟨fields, rfl, h.way.of_get? kept, (at?_of_get? kept).symm.trans h.found, h.full⟩

end Value.Supplies

/-! ## §2 Supplied values in a build -/

/-- Formulas leave what they do not touch, also if they replace values on their own ways. -/
theorem Value.Leads.computed (way : (Value.mapping fields).Leads q)
    (apart : ∀ f ∈ formulas, Incomparable q f.path) :
    (Value.mapping (computeFormulas r formulas fields).1).Leads q ∧
      (Value.mapping (computeFormulas r formulas fields).1).at? q
        = (Value.mapping fields).at? q := by
  induction formulas generalizing fields with
  | nil => exact ⟨way, rfl⟩
  | cons f rest ih =>
    rw [List.forall_mem_cons] at apart
    cases given : f.compute r fields with
    | error e =>
      rw [computeFormulas_error given]
      exact ih way apart.2
    | ok u =>
      have inside : f.path ≠ [] := fun root => not_incomparable_nil_right (root ▸ apart.1)
      obtain ⟨still, same⟩ := way.withAt_beside apart.1.symm u
      rw [← mapping_insertAt fields inside] at still same
      rw [computeFormulas_ok given, ← same]
      exact ih still apart.2

variable {coerce : AttributeDefinition → Value → Except InstantiationError Value}

/-- What is supplied for a plain attribute is converted, or kept if it cannot be. -/
theorem Value.Supplies.completed (h : (Value.mapping fields).Supplies p v) (distinct : DistinctNames attributes)
    (there : (p, .leaf d) ∈ places attributes) (plain : d.derived = none)
    (solid : ∀ w, coerce d v = .ok w → w ≠ .null) :
    (Value.mapping (completeGroup coerce r fields attributes).1).Supplies p
      ((coerce d v).toOption.getD v) := by
  obtain ⟨way, outcome⟩ := filledAt_of_admits coerce [] distinct there h.way.admits
  obtain ⟨leads, same⟩ := way.computed (r := r) fun f hf =>
    incomparable_formula distinct there plain hf
  suffices filled : (Value.mapping (fillGroup coerce [] fields attributes).1).at? p
      = some ((coerce d v).toOption.getD v) ∧ (coerce d v).toOption.getD v ≠ .null from
    ⟨leads, same.trans filled.1, filled.2⟩
  rw [h.found] at outcome
  rcases outcome with ⟨e, ⟨_, u, same, _, refused⟩, kept, _⟩ | taken
  · cases same
    rw [refused]
    exact ⟨kept, h.full⟩
  · obtain ⟨w, after, converted⟩ := taken.converted plain h.full
    rw [converted]
    exact ⟨after, solid w converted⟩

/-! ## §3 Leaves -/

namespace Catalog

/-- The path leads to a plain attribute of the primitive type, through groups and through plain
attributes of models. -/
inductive LeafAt (c : Catalog) : Attributes → Path → String → Prop
  | own {attributes : Attributes} {p : Path} {d : AttributeDefinition}
      (there : (p, .leaf d) ∈ places attributes) (plain : d.derived = none)
      (primitive : isPrimitive d.typeName = true) : LeafAt c attributes p d.typeName
  | nested {attributes inner : Attributes} {p q : Path} {d : AttributeDefinition} {t : String}
      (there : (p, .leaf d) ∈ places attributes) (plain : d.derived = none)
      (tree : c.attributes? d.typeName = some inner) (below : LeafAt c inner q t) :
      LeafAt c attributes (p ++ q) t

/-- No model is named like a primitive type, nor like the type of lists. -/
def NamesApart (c : Catalog) : Prop :=
  ∀ id, (c.model? id).isSome = true → Primitive.named? id = none ∧ id ≠ "list"

theorem known_of_tree (tree : c.attributes? model = some attributes) :
    (c.model? model).isSome = true := by
  obtain ⟨m, known, _⟩ := Option.map_eq_some_iff.mp tree
  rw [known]
  rfl

namespace LeafAt

theorem ne_nil (leaf : c.LeafAt attributes p t) : p ≠ [] := by
  cases leaf with
  | own there => exact ne_nil_of_mem_places there
  | nested there => exact List.append_ne_nil_of_left_ne_nil (ne_nil_of_mem_places there) _

theorem primitive (leaf : c.LeafAt attributes p t) : isPrimitive t = true := by
  induction leaf with
  | own _ _ primitive => exact primitive
  | nested _ _ _ _ ih => exact ih

end LeafAt

/-! ## §4 The walk of a build -/

/-- From data that supply an attribute a build begins, with the attribute supplied. -/
theorem exists_begins_supplied (tree : c.attributes? model = some attributes) (inside : p ≠ [])
    (unnamed : "model" ∉ p) (given : data.Supplies p v) :
    ∃ m fields, c.Begins model data m attributes fields ∧
      (Value.mapping fields).Supplies p v := by
  obtain ⟨m, known, _⟩ := Option.map_eq_some_iff.mp tree
  obtain ⟨own, rfl, kept⟩ := given.insert inside unnamed (.text model)
  exact ⟨m, _, ⟨known, tree, rfl⟩, kept⟩

section Attribute

variable (distinct : c.Distinct) (tree : c.attributes? model = some attributes)
  (there : (p, .leaf d) ∈ places attributes) (plain : d.derived = none) (unnamed : "model" ∉ p)
  (given : data.Supplies p v)
include distinct tree there plain unnamed given

/-- A lenient build keeps a value that is supplied for an attribute, converted if it can be. -/
theorem lenient_supplied (r : Resolver) :
    ∃ object, c.instantiateLenient r model data = .ok object ∧
      object.value.Supplies p ((c.convert r false d v).toOption.getD v) := by
  obtain ⟨m, fields, begins, given⟩ :=
    exists_begins_supplied tree (ne_nil_of_mem_places there) unnamed given
  refine ⟨_, begins.instantiateLenient distinct, ?_⟩
  exact given.completed (distinct model attributes tree) there plain
    fun _ converted => convert_ne_null given.full converted

end Attribute

section Leaf

variable (leaf : c.LeafAt attributes p t) (distinct : c.Distinct) (apart : c.NamesApart)
  (tree : c.attributes? model = some attributes) (unnamed : "model" ∉ p)
  (given : data.Supplies p v)
include leaf distinct apart tree unnamed given

/-- Whatever the data supply for a leaf, a lenient build makes an object of them, and there the leaf
holds the converted value, or the value as it is if it cannot be converted. -/
theorem LeafAt.lenient (r : Resolver) :
    ∃ object, c.instantiateLenient r model data = .ok object ∧
      object.value.Supplies p ((coercePrimitive v t).toOption.getD v) := by
  -- the induction is on the models that the path leads through: an object that is nested is built
  -- as it would be by itself
  induction leaf generalizing model data with
  | own there plain primitive =>
    obtain ⟨kind, named⟩ := Option.isSome_iff_exists.mp primitive
    have built := lenient_supplied distinct tree there plain unnamed given r
    rwa [convert_of_primitive named] at built
  | @nested _ _ _ _ d _ there plain within below ih =>
    rw [List.mem_append, not_or] at unnamed
    obtain ⟨own, given, supplied⟩ := given.split below.ne_nil
    obtain ⟨inside, made, held⟩ := ih within unnamed.2 supplied
    have converted : c.convert r false d (.mapping own) = .ok inside.value := by
      have known := known_of_tree within
      rw [convert_of_model (apart _ known).1 known, build_lenient, made]
      rfl
    obtain ⟨object, built, around⟩ :=
      lenient_supplied distinct tree there plain unnamed.1 given r
    rw [converted] at around
    exact ⟨object, built, around.append held⟩

end Leaf

end Catalog

/-! ## §5 The walk of declared types -/

/-- A joined path is walked part by part. -/
theorem Declared.at?_append (c : Catalog) (e : Declared) (p q : Path) :
    e.at? c (p ++ q) = (e.at? c p).bind fun below => below.at? c q := by
  induction p generalizing e with
  | nil => rfl
  | cons segment rest ih =>
    rw [List.cons_append, at?, at?]
    cases e.child? c segment with
    | none => rfl
    | some below => exact ih below

/-- Below the name of a model the walk goes on in its tree. -/
theorem Declared.at?_typed (tree : c.attributes? model = some attributes) (more : p ≠ []) :
    (Declared.typed model).at? c p = (Declared.group attributes).at? c p := by
  obtain ⟨segment, rest, rfl⟩ := List.exists_cons_of_ne_nil more
  rw [at?, at?, child?, child?, tree]
  rfl

theorem declaredBy_leaf (no_list : d.typeName ≠ "list")
    (found : Entries.get? attributes name = some (.leaf d)) :
    declaredBy attributes name = some (.typed d.typeName) := by
  unfold declaredBy
  rw [found]
  simp only [Option.map_some]
  split
  · exact absurd ‹_› no_list
  · rfl

/-- The walk through the groups of a tree ends in the attribute at that place. -/
theorem Declared.at?_place (distinct : DistinctNames attributes)
    (there : (p, .leaf d) ∈ places attributes) (no_list : d.typeName ≠ "list") :
    (Declared.group attributes).at? c p = some (.typed d.typeName) := by
  -- what stands behind the first node of a tree is not found under its name
  have behind : ∀ {first next : String} {node : Attribute} {rest : Attributes} {q : Path},
      first ≠ next →
      (Declared.group ((first, node) :: rest)).at? c (next :: q)
        = (Declared.group rest).at? c (next :: q) := by
    intro first next node rest q other
    rw [at?, at?, child?, child?, declaredBy, declaredBy, Entries.get?_cons, if_neg other]
  induction attributes using Attributes.forest generalizing p with
  | nil => exact absurd there not_mem_places_nil
  | leaf first own rest ih =>
    obtain ⟨fresh, distinct⟩ := distinctNames_leaf.mp distinct
    rcases mem_places_leaf.mp there with ⟨rfl, same⟩ | later
    · cases same
      rw [at?, child?, declaredBy_leaf no_list (by rw [Entries.get?_cons, if_pos rfl])]
      rfl
    · obtain ⟨next, q, rfl, other⟩ := head_ne fresh later
      rw [behind other, ih distinct later]
  | group first children rest ihc ih =>
    obtain ⟨fresh, nested, distinct⟩ := distinctNames_group.mp distinct
    rcases mem_places_group.mp there with ⟨_, same⟩ | ⟨q, rfl, inside⟩ | later
    · cases same
    · rw [at?, child?, declaredBy, Entries.get?_cons, if_pos rfl]
      exact ihc nested inside
    · obtain ⟨next, q, rfl, other⟩ := head_ne fresh later
      rw [behind other, ih distinct later]

namespace Catalog

/-- The walk of declared types comes to the type of the leaf. -/
theorem LeafAt.declared (leaf : c.LeafAt attributes p t) (distinct : c.Distinct)
    (apart : c.NamesApart) (tree : c.attributes? model = some attributes) :
    (Declared.typed model).at? c p = some (.typed t) := by
  rw [Declared.at?_typed tree leaf.ne_nil]
  induction leaf generalizing model with
  | own there plain primitive =>
    refine Declared.at?_place (distinct model _ tree) there ?_
    intro a_list
    rw [a_list] at primitive
    cases primitive
  | nested there plain within below ih =>
    have no_list := (apart _ (known_of_tree within)).2
    rw [Declared.at?_append, Declared.at?_place (distinct model _ tree) there no_list,
      Option.bind_some, Declared.at?_typed within below.ne_nil]
    exact ih within

/-! ## §6 Storing leaves -/

section Storing

variable (bare : Path.IsBare x) (declared : f.declared? "variables" x = some field)
  (typed : field.typeName = model)
include bare declared typed

end Storing

/-- The attributes of a creature: a group with a formula. -/
def creature : Attributes := [
  ("stats", .group [
    ("hp", .leaf { typeName := "int" }),
    ("armor", .leaf { typeName := "int", derived := some "\x7b\x7b stats.hp // 2 \x7d\x7d" })])]

end Catalog

end Tabletop
