/-
Tabletop.Proofs.Model.Forged — data that speak of computed attributes.

Data may have values in the places of computed attributes. Two builds from
data that differ there alone fill in the same everywhere else and report the
same. The formulas then overwrite those places one after the other, and each
gives the same in both builds as long as it does not read its own place or that
of a later one, and no mapping as a whole in which such a place is: of such a
mapping the order of keys may differ. What remains different in the end is the
order of keys (`forging_fails`).

  §1 Fields that differ in computed attributes
  §2 Filling in
  §3 Computing
  §4 Values up to the order of keys
  §5 Builds
-/
import Tabletop.Proofs.Model.Demands

namespace Tabletop

open Tabletop.Path

variable {c : Catalog} {r : Resolver} {attributes rest children : List (String × Attribute)}
  {a b x y : Fields} {d : AttributeDefinition} {name key : String} {p q parent : Path} {m : Model}
  {formulas : List Formula}
  {coerce : AttributeDefinition → Value → Except InstantiationError Value}

/-! ## §1 Fields that differ in computed attributes -/

/-- The path does not touch the place of a computed attribute. -/
def Clear (attributes : List (String × Attribute)) (q : Path) : Prop :=
  ∀ p d, (p, .leaf d) ∈ places attributes → d.derived.isSome = true → q.Incomparable p

/-- A group can be filled in here: there is a mapping, null or nothing. -/
def Vacant (found : Option Value) : Prop := ∃ inner, (found.getD (.mapping [])).fields? = some inner

/-- The fields differ in the values of computed attributes only, and in which groups are there to
hold them. -/
structure DifferInComputed (attributes : List (String × Attribute)) (a b : Fields) : Prop where
  aside : ∀ q, q ≠ [] → Clear attributes q → (Value.mapping a).at? q = (Value.mapping b).at? q
  groups : ∀ p children, (p, .group children) ∈ places attributes →
    (Value.mapping a).at? p = (Value.mapping b).at? p ∨
      Vacant ((Value.mapping a).at? p) ∧ Vacant ((Value.mapping b).at? p)

theorem DifferInComputed.symm (h : DifferInComputed attributes a b) :
    DifferInComputed attributes b a :=
  ⟨fun q inside clear => (h.aside q inside clear).symm,
    fun p children there => (h.groups p children there).imp Eq.symm And.symm⟩

theorem clear_iff : Clear attributes q ↔
    ∀ f ∈ groupFormulas [] attributes, q.Incomparable f.path := by
  constructor
  · intro clear f hf
    obtain ⟨d, there, computed, _⟩ := place_of_formula hf
    exact clear f.path d there (by rw [computed]; rfl)
  · intro apart p d there computed
    obtain ⟨template, computed⟩ := Option.isSome_iff_exists.mp computed
    exact apart ⟨p, template, d.typeName⟩
      (mem_groupFormulas.mpr ⟨p, d, template, there, computed, rfl⟩)

/-- The place of a plain attribute is clear. -/
theorem clear_plain (distinct : DistinctNames attributes)
    (there : (p, .leaf d) ∈ places attributes) (plain : d.derived = none) : Clear attributes p :=
  clear_iff.mpr fun _ hf => incomparable_formula distinct there plain hf

/-- What is on a way that is open to a write can become a group. -/
theorem vacant_of_admits {v : Value} (unblocked : v.Admits p) (on : q <+: p) (short : q ≠ p) :
    Vacant (v.at? q) := by
  induction q generalizing v p with
  | nil =>
    cases p with
    | nil => exact absurd rfl short
    | cons segment rest =>
      obtain ⟨fields, opened, _⟩ := unblocked
      exact ⟨fields, opened⟩
  | cons segment rest ih =>
    obtain ⟨below, rfl⟩ := on
    rw [List.cons_append] at unblocked short
    obtain ⟨fields, opened, unblocked⟩ := unblocked
    rw [Value.at?_cons, Value.child?_of_fields? opened]
    have inside := ih unblocked (List.prefix_append rest below) fun same => short (same ▸ rfl)
    unfold Value.inner at inside
    cases found : Entries.get? fields segment with
    | none => exact ⟨[], rfl⟩
    | some w =>
      rw [found] at inside
      exact inside

/-- Fields with any value written in the place of a computed attribute are fields that differ in
computed attributes. -/
theorem differ_insertAt (distinct : DistinctNames attributes)
    (there : (p, .leaf d) ∈ places attributes) (computed : d.derived.isSome = true)
    (unblocked : (Value.mapping a).Admits p) (v : Value) :
    DifferInComputed attributes a (insertAt a p v) := by
  have written := mapping_insertAt a (ne_nil_of_mem_places there) v
  constructor
  · intro q _ clear
    rw [written, Value.at?_withAt_incomparable unblocked (clear p d there computed).symm]
  · intro q children group
    rw [written]
    rcases prefix_or_incomparable p q with onward | on | aside
    · obtain ⟨_, same⟩ := eq_of_leaf_leads distinct there group onward
      cases same
    · have short : q ≠ p := by
        rintro rfl
        obtain ⟨_, same⟩ := eq_of_leaf_leads distinct there group List.prefix_rfl
        cases same
      refine Or.inr ⟨vacant_of_admits unblocked on short, ?_⟩
      obtain ⟨inner, found⟩ := Value.leads_withAt_self (.mapping a) p v q on short
      rw [found]
      exact ⟨inner, rfl⟩
    · exact Or.inl (Value.at?_withAt_incomparable unblocked aside v).symm

/-! ## §2 Filling in -/

/-- The nodes with these names find the same wherever no attribute is computed, and groups that can
be filled in where they do not. -/
structure FindAlike (attributes : List (String × Attribute)) (a b : Fields) : Prop where
  aside : ∀ name ∈ Entries.keys attributes, ∀ q, Clear attributes (name :: q) →
    (Value.mapping a).at? (name :: q) = (Value.mapping b).at? (name :: q)
  groups : ∀ p children, (p, .group children) ∈ places attributes →
    (Value.mapping a).at? p = (Value.mapping b).at? p ∨
      Vacant ((Value.mapping a).at? p) ∧ Vacant ((Value.mapping b).at? p)

theorem DifferInComputed.findAlike (h : DifferInComputed attributes a b) :
    FindAlike attributes a b :=
  ⟨fun _ _ _ => h.aside _ (List.cons_ne_nil _ _), h.groups⟩

/-- Other names are none of a node's business. -/
theorem clear_later {node : Attribute} (other : name ≠ key) (clear : Clear rest (key :: q)) :
    Clear ((name, node) :: rest) (key :: q) := by
  intro p d there computed
  rcases mem_places_cons.mp there with ⟨rfl, _⟩ | ⟨below, rfl, _⟩ | later
  · rw [incomparable_cons]
    exact fun same => absurd same.symm other
  · rw [incomparable_cons]
    exact fun same => absurd same.symm other
  · exact clear p d later computed

/-- What is clear inside a group is clear below its name. -/
theorem clear_inside (fresh : name ∉ Entries.keys rest) (clear : Clear children q) :
    Clear ((name, .group children) :: rest) (name :: q) := by
  intro p d there computed
  rcases mem_places_group.mp there with ⟨_, same⟩ | ⟨below, rfl, inside⟩ | later
  · cases same
  · rw [incomparable_cons]
    exact fun _ => clear below d inside computed
  · obtain ⟨first, _, rfl, other⟩ := head_ne fresh later
    rw [incomparable_cons]
    exact fun same => absurd same other

theorem fillLeaf_of_get? (path : Path) (same : Entries.get? a name = Entries.get? b name) :
    (fillLeaf coerce path name d a).2 = (fillLeaf coerce path name d b).2 ∧
      Entries.get? (fillLeaf coerce path name d a).1 name
        = Entries.get? (fillLeaf coerce path name d b).1 name := by
  have present : presentField? a name = presentField? b name := by
    rw [presentField?, presentField?, same]
  unfold fillLeaf
  rw [present]
  split
  · exact ⟨rfl, same⟩
  · split
    · split
      · exact ⟨rfl, by rw [Entries.get?_insert_self, Entries.get?_insert_self]⟩
      · exact ⟨rfl, same⟩
    · split
      · exact ⟨rfl, by rw [Entries.get?_insert_self, Entries.get?_insert_self]⟩
      · exact ⟨rfl, same⟩

variable (coerce) in
/-- A node depends on what it finds under its name. -/
theorem fill_of_get? (parent : Path) (node : Attribute)
    (same : Entries.get? a name = Entries.get? b name) :
    (node.fill coerce parent name a).2 = (node.fill coerce parent name b).2 ∧
      Entries.get? (node.fill coerce parent name a).1 name
        = Entries.get? (node.fill coerce parent name b).1 name := by
  cases node with
  | leaf d =>
    rw [Attribute.fill, Attribute.fill]
    exact fillLeaf_of_get? _ same
  | group children =>
    have inner : Value.inner a name = Value.inner b name := by rw [Value.inner, Value.inner, same]
    cases opened : (Value.inner b name).fields? with
    | none =>
      rw [fill_closed coerce parent opened, fill_closed coerce parent (inner ▸ opened)]
      exact ⟨rfl, same⟩
    | some found =>
      rw [fill_opened coerce parent opened, fill_opened coerce parent (inner ▸ opened)]
      exact ⟨rfl, by rw [Entries.get?_insert_self, Entries.get?_insert_self]⟩

/-- Below a name nodes leave what they leave, whatever is behind them. -/
theorem at?_fillGroup_cons {node : Attribute} (fresh : name ∉ Entries.keys rest) :
    (Value.mapping (fillGroup coerce parent a ((name, node) :: rest)).1).at? (name :: q)
      = (Value.mapping (node.fill coerce parent name a).1).at? (name :: q) := by
  rw [fillGroup_cons]
  exact at?_of_get? (get?_fillGroup coerce parent _ fresh)

/-- Filling in leaves alone what is below other names. -/
theorem at?_fillGroup_other (other : key ∉ Entries.keys attributes) :
    (Value.mapping (fillGroup coerce parent a attributes).1).at? (key :: q)
      = (Value.mapping a).at? (key :: q) :=
  at?_of_get? (get?_fillGroup coerce parent a other)

variable (parent) (coerce) in
/-- The nodes behind another find alike what they did. -/
theorem FindAlike.later {node : Attribute} (h : FindAlike ((name, node) :: rest) a b)
    (fresh : name ∉ Entries.keys rest) :
    FindAlike rest (node.fill coerce parent name a).1 (node.fill coerce parent name b).1 := by
  have kept : ∀ {key : String} {q : Path} (fields : Fields), name ≠ key →
      (Value.mapping (node.fill coerce parent name fields).1).at? (key :: q)
        = (Value.mapping fields).at? (key :: q) :=
    fun fields other => at?_of_get? (get?_fill coerce parent fields node other)
  constructor
  · intro key hk q clear
    have other : name ≠ key := fun same => fresh (same ▸ hk)
    rw [kept a other, kept b other]
    exact h.aside key (List.mem_cons_of_mem _ hk) q (clear_later other clear)
  · intro p children there
    obtain ⟨first, q, rfl, other⟩ := head_ne fresh there
    rw [kept a other, kept b other]
    exact h.groups _ children (mem_places_cons.mpr (Or.inr (Or.inr there)))

/-- The nodes inside an open group find alike what is in its fields. -/
theorem FindAlike.inside (h : FindAlike ((name, .group children) :: rest) a b)
    (fresh : name ∉ Entries.keys rest) (openA : (Value.inner a name).fields? = some x)
    (openB : (Value.inner b name).fields? = some y) : FindAlike children x y := by
  constructor
  · intro key _ q clear
    have := h.aside name List.mem_cons_self (key :: q) (clear_inside fresh clear)
    rwa [at?_of_opened openA (List.cons_ne_nil _ _), at?_of_opened openB (List.cons_ne_nil _ _)]
      at this
  · intro p own there
    have more := ne_nil_of_mem_places there
    have := h.groups (name :: p) own (mem_places_group.mpr (Or.inr (Or.inl ⟨p, rfl, there⟩)))
    rwa [at?_of_opened openA more, at?_of_opened openB more] at this

/-- Filling in reports the same in both fields and leaves them alike aside from computed
attributes. -/
def FillsAlike (coerce : AttributeDefinition → Value → Except InstantiationError Value)
    (parent : Path) (attributes : List (String × Attribute)) (a b : Fields) : Prop :=
  (fillGroup coerce parent a attributes).2 = (fillGroup coerce parent b attributes).2 ∧
    ∀ name ∈ Entries.keys attributes, ∀ q, Clear attributes (name :: q) →
      (Value.mapping (fillGroup coerce parent a attributes).1).at? (name :: q)
        = (Value.mapping (fillGroup coerce parent b attributes).1).at? (name :: q)

/-- A node in front that is filled in alike. -/
theorem FillsAlike.cons {node : Attribute} (fresh : name ∉ Entries.keys rest)
    (report : (node.fill coerce parent name a).2 = (node.fill coerce parent name b).2)
    (here : ∀ q, Clear ((name, node) :: rest) (name :: q) →
      (Value.mapping (node.fill coerce parent name a).1).at? (name :: q)
        = (Value.mapping (node.fill coerce parent name b).1).at? (name :: q))
    (later : FillsAlike coerce parent rest (node.fill coerce parent name a).1
      (node.fill coerce parent name b).1) :
    FillsAlike coerce parent ((name, node) :: rest) a b := by
  obtain ⟨reports, others⟩ := later
  refine ⟨?_, fun key hk q clear => ?_⟩
  · rw [fillGroup_cons, fillGroup_cons]
    dsimp only
    rw [report, reports]
  · rcases List.mem_cons.mp hk with rfl | hk
    · rw [at?_fillGroup_cons fresh, at?_fillGroup_cons fresh]
      exact here q clear
    · rw [fillGroup_cons, fillGroup_cons]
      refine others key hk q fun p d there computed => ?_
      exact clear p d (mem_places_cons.mpr (Or.inr (Or.inr there))) computed

/-- What is found alike is filled in alike. -/
theorem fillsAlike_of_findAlike (distinct : DistinctNames attributes)
    (h : FindAlike attributes a b) : FillsAlike coerce parent attributes a b := by
  induction attributes using Attributes.forest generalizing parent a b with
  | nil =>
    unfold FillsAlike
    rw [fillGroup, fillGroup]
    exact ⟨rfl, fun _ there => absurd there List.not_mem_nil⟩
  | leaf name d rest ih =>
    obtain ⟨fresh, others⟩ := distinctNames_leaf.mp distinct
    have later := @ih _ _ parent others (h.later parent coerce fresh)
    cases computed : d.derived with
    | some template =>
      refine .cons fresh ?_ (fun q clear => ?_) later
      · rw [Attribute.fill, Attribute.fill, fillLeaf, fillLeaf, computed]
        rfl
      · have touched := clear [name] d (mem_places_leaf.mpr (Or.inl ⟨rfl, rfl⟩))
          (by rw [computed]; rfl)
        exact absurd (List.cons_prefix_cons.mpr ⟨rfl, List.nil_prefix⟩) touched.2
    | none =>
      have same : Entries.get? a name = Entries.get? b name := by
        rw [← at?_single, ← at?_single]
        exact h.aside name List.mem_cons_self []
          (clear_plain distinct (mem_places_leaf.mpr (Or.inl ⟨rfl, rfl⟩)) computed)
      have filled := fill_of_get? coerce parent (.leaf d) same
      exact .cons fresh filled.1 (fun q _ => at?_of_get? filled.2) later
  | group name children rest ihc ih =>
    obtain ⟨fresh, nested, others⟩ := distinctNames_group.mp distinct
    have later := @ih _ _ parent others (h.later parent coerce fresh)
    by_cases same : Entries.get? a name = Entries.get? b name
    · have filled := fill_of_get? coerce parent (.group children) same
      exact .cons fresh filled.1 (fun q _ => at?_of_get? filled.2) later
    · -- the group is open in both fields, and holds what is computed
      have vacant := h.groups [name] children (mem_places_group.mpr (Or.inl ⟨rfl, rfl⟩))
      rw [at?_single, at?_single] at vacant
      obtain ⟨⟨x, openA⟩, ⟨y, openB⟩⟩ := vacant.resolve_left same
      have inside := h.inside fresh openA openB
      have below : FillsAlike coerce (parent ++ [name]) children x y := ihc nested inside
      obtain ⟨report, aside⟩ := below
      refine .cons fresh ?_ (fun q clear => ?_) later
      · rw [fill_opened coerce parent openA, fill_opened coerce parent openB]
        exact report
      · cases q with
        | nil =>
          refine absurd ?_ same
          rw [← at?_single, ← at?_single]
          exact h.aside name List.mem_cons_self [] clear
        | cons key q =>
          have written : ∀ {fields inner : Fields}, (Value.inner fields name).fields? = some inner →
              (Value.mapping ((Attribute.group children).fill coerce parent name fields).1).at?
                  (name :: key :: q)
                = (Value.mapping (fillGroup coerce (parent ++ [name]) inner children).1).at?
                  (key :: q) := by
            intro fields inner opened
            rw [fill_opened coerce parent opened, Value.at?_cons, Value.child?_mapping,
              Entries.get?_insert_self]
            rfl
          rw [written openA, written openB]
          by_cases own : key ∈ Entries.keys children
          · refine aside key own q fun p d there computed => ?_
            have := clear (name :: p) d
              (mem_places_group.mpr (Or.inr (Or.inl ⟨p, rfl, there⟩))) computed
            rw [incomparable_cons] at this
            exact this rfl
          · rw [at?_fillGroup_other own, at?_fillGroup_other own,
              ← at?_of_opened openA (List.cons_ne_nil _ _),
              ← at?_of_opened openB (List.cons_ne_nil _ _)]
            exact h.aside name List.mem_cons_self (key :: q) clear

variable (parent) (coerce) in
/-- Fields that differ in computed attributes are filled in to such. -/
theorem DifferInComputed.filled (distinct : DistinctNames attributes)
    (h : DifferInComputed attributes a b) :
    (fillGroup coerce parent a attributes).2 = (fillGroup coerce parent b attributes).2 ∧
      ∀ q, q ≠ [] → Clear attributes q →
        (Value.mapping (fillGroup coerce parent a attributes).1).at? q
          = (Value.mapping (fillGroup coerce parent b attributes).1).at? q := by
  have filled : FillsAlike coerce parent attributes a b :=
    fillsAlike_of_findAlike distinct h.findAlike
  refine ⟨filled.1, fun q inside clear => ?_⟩
  obtain ⟨name, rest, rfl⟩ := List.exists_cons_of_ne_nil inside
  by_cases own : name ∈ Entries.keys attributes
  · exact filled.2 name own rest clear
  · rw [at?_fillGroup_other own, at?_fillGroup_other own]
    exact h.aside _ inside clear

/-! ## §3 Computing -/

/-- Formulas that are in order report something in both fields, or nothing and leave them alike at
all places that are visible, if these are alike aside from what is computed. -/
theorem computeFormulas_alike {visible : Path → Prop} (readyA : Ready a formulas)
    (readyB : Ready b formulas) (ordered : InOrder r visible formulas)
    (whole : ∀ q, visible q → ∀ f ∈ formulas, q <+: f.path → q = f.path)
    (agree : ∀ q, visible q → (∀ f ∈ formulas, q.Incomparable f.path) →
      (Value.mapping a).at? q = (Value.mapping b).at? q) :
    (computeFormulas r formulas a).2 ≠ [] ∧ (computeFormulas r formulas b).2 ≠ [] ∨
      (computeFormulas r formulas a).2 = [] ∧ (computeFormulas r formulas b).2 = [] ∧
        ∀ q, visible q → (Value.mapping (computeFormulas r formulas a).1).at? q
          = (Value.mapping (computeFormulas r formulas b).1).at? q := by
  induction formulas generalizing a b with
  | nil => exact Or.inr ⟨rfl, rfl, fun q seen => agree q seen nofun⟩
  | cons f rest ih =>
    have same : f.compute r a = f.compute r b :=
      Formula.compute_of_agree ordered.1 fun q seen => agree q seen.1 seen.2
    cases computed : f.compute r b with
    | error e =>
      rw [computed] at same
      rw [computeFormulas_error computed, computeFormulas_error same]
      exact Or.inl ⟨List.cons_ne_nil _ _, List.cons_ne_nil _ _⟩
    | ok v =>
      rw [computed] at same
      rw [computeFormulas_ok computed, computeFormulas_ok same]
      refine ih (readyA.step v) (readyB.step v) ordered.2
        (fun q seen g hg => whole q seen g (List.mem_cons_of_mem _ hg)) fun q seen apart => ?_
      rw [readyA.written, readyB.written]
      rcases prefix_or_incomparable f.path q with ⟨below, rfl⟩ | above | aside
      · rw [Value.at?_append, Value.at?_append, Value.at?_withAt_self, Value.at?_withAt_self]
      · rw [whole q seen f List.mem_cons_self above, Value.at?_withAt_self, Value.at?_withAt_self]
      · rw [Value.at?_withAt_incomparable readyA.admits aside,
          Value.at?_withAt_incomparable readyB.admits aside]
        exact agree q seen (List.forall_mem_cons.mpr ⟨aside.symm, apart⟩)

/-! ## §4 Values up to the order of keys -/

/-- At every path both values are mappings, or they are equal: only the order of keys may differ. -/
def Value.Reordered (v w : Value) : Prop :=
  ∀ p, v.at? p = w.at? p ∨ ∃ a b, v.at? p = some (.mapping a) ∧ w.at? p = some (.mapping b)

/-- Well-formed values that differ in the order of keys are the same. -/
theorem Value.Reordered.same {v w : Value} (h : v.Reordered w) (hv : v.WellFormed)
    (hw : w.WellFormed) : v.same w = true := by
  refine same_of_alike hv hw fun p => ?_
  rcases h p with equal | ⟨a, b, ha, hb⟩
  · rw [equal]
    exact (sameAs_refl fun u hu => hw.at hu).alike
  · rw [ha, hb]
    exact .some (.mapping a b)

/-! ## §5 Builds -/

/-- The path is no mapping in which an attribute is computed. -/
def Whole (attributes : List (String × Attribute)) (q : Path) : Prop :=
  q ≠ [] ∧ ∀ f ∈ groupFormulas [] attributes, q <+: f.path → q = f.path

instance : Decidable (Whole attributes q) := inferInstanceAs (Decidable (_ ∧ _))

/-- The place of an attribute is whole. -/
theorem whole_of_leaf (distinct : DistinctNames attributes)
    (there : (p, .leaf d) ∈ places attributes) : Whole attributes p := by
  refine ⟨ne_nil_of_mem_places there, fun f hf onward => ?_⟩
  obtain ⟨_, own, _⟩ := place_of_formula hf
  exact (eq_of_leaf_leads distinct there own onward).1.symm

/-- A build overwrites the key of the model's id. -/
theorem DifferInComputed.named (h : DifferInComputed attributes a b) (id : Value) :
    DifferInComputed attributes (Entries.insert a "model" id) (Entries.insert b "model" id) := by
  have kept : ∀ {key : String} {q : Path} (fields : Fields), "model" ≠ key →
      (Value.mapping (Entries.insert fields "model" id)).at? (key :: q)
        = (Value.mapping fields).at? (key :: q) :=
    fun fields other => at?_of_get? (Entries.get?_insert_ne id other)
  have named : ∀ q : Path, (Value.mapping (Entries.insert a "model" id)).at? ("model" :: q)
      = (Value.mapping (Entries.insert b "model" id)).at? ("model" :: q) := by
    intro q
    refine at?_of_get? ?_
    rw [Entries.get?_insert_self, Entries.get?_insert_self]
  constructor
  · intro q inside clear
    obtain ⟨key, rest, rfl⟩ := List.exists_cons_of_ne_nil inside
    by_cases same : "model" = key
    · rw [← same]
      exact named rest
    · rw [kept a same, kept b same]
      exact h.aside _ inside clear
  · intro p children there
    obtain ⟨key, rest, rfl⟩ := List.exists_cons_of_ne_nil (ne_nil_of_mem_places there)
    by_cases same : "model" = key
    · rw [← same]
      exact Or.inl (named rest)
    · rw [kept a same, kept b same]
      exact h.groups _ children there

namespace Catalog

variable {model : String}

/-- The formulas of the model are in order, and no formula and no rule reads a mapping in which an
attribute is computed. -/
structure Guarded (r : Resolver) (m : Model) (attributes : Attributes) : Prop where
  formulas : InOrder r (Whole attributes) (groupFormulas [] attributes)
  rules : ∀ rule ∈ m.validations,
    r.ReadsOnly (conditionTemplate rule.expression) (Whole attributes)

/-- Rules that read only what is alike report the same. -/
theorem ruleViolations_alike {visible : Path → Prop} {rules : List ValidationRule}
    (reads : ∀ rule ∈ rules, r.ReadsOnly (conditionTemplate rule.expression) visible)
    (agree : ∀ q, visible q → (Value.mapping a).at? q = (Value.mapping b).at? q) :
    ruleViolations r rules a = ruleViolations r rules b := by
  unfold ruleViolations
  refine List.flatMap_congr fun rule hr => ?_
  rw [Resolver.condition, Resolver.condition, reads rule hr a b agree]

/-- What goes through with some values of computed attributes goes through with others, and comes to
the same but for the order of keys. -/
theorem Flawless.of_differ (sound : c.Flawless r m attributes x) (distinct : DistinctNames attributes)
    (guarded : Guarded r m attributes) (differ : DifferInComputed attributes x y) :
    c.Flawless r m attributes y ∧
      (Value.mapping (c.completed r true attributes x).1).Reordered
        (.mapping (c.completed r true attributes y).1) := by
  obtain ⟨quiet, computed, met⟩ := sound
  obtain ⟨report, aside⟩ := differ.filled [] (c.convert r true) distinct
  have quietY : (c.filled r true attributes y).2 = [] := report.symm.trans quiet
  obtain ⟨noisy, _⟩ | ⟨_, computedY, agree⟩ := computeFormulas_alike (ready_of_sound quiet distinct)
    (ready_of_sound quietY distinct) guarded.formulas (fun q whole => whole.2)
    fun q whole apart => aside q whole.1 (clear_iff.mpr apart)
  · exact absurd computed noisy
  obtain ⟨metX, rulesX⟩ := List.append_eq_nil_iff.mp met
  refine ⟨⟨quietY, computedY, List.append_eq_nil_iff.mpr ⟨?_, ?_⟩⟩, fun q => ?_⟩
  · refine groupViolations_eq_nil_iff.mpr fun p d there _ => ?_
    have same := agree p (whole_of_leaf distinct there)
    change (Value.mapping (c.completed r true attributes x).1).at? p
      = (Value.mapping (c.completed r true attributes y).1).at? p at same
    rw [← same]
    exact groupViolations_eq_nil_iff.mp metX p d there (leads_completeGroup quiet distinct there)
  · exact (ruleViolations_alike guarded.rules agree).symm.trans rulesX
  · by_cases whole : Whole attributes q
    · exact Or.inl (agree q whole)
    · by_cases inside : q = []
      · rw [inside]
        exact Or.inr ⟨_, _, rfl, rfl⟩
      · -- the place is a group on the way to a computed attribute
        unfold Whole at whole
        push Not at whole
        obtain ⟨f, hf, onward, short⟩ := whole inside
        obtain ⟨d, leaf, _⟩ := place_of_formula hf
        obtain ⟨children, group⟩ := group_of_way leaf onward short inside
        obtain ⟨inner, foundX⟩ := mapping_completeGroup (r := r) quiet distinct group
        obtain ⟨other, foundY⟩ := mapping_completeGroup (r := r) quietY distinct group
        exact Or.inr ⟨inner, other, foundX, foundY⟩

/-- Values of computed attributes in the data change nothing: data that differ in these only are
both refused, or make the same object but for the order of keys. -/
theorem forging_fails (distinct : c.Distinct) (known : c.model? model = some m)
    (tree : c.attributes? model = some attributes) (guarded : Guarded r m attributes)
    (differ : DifferInComputed attributes a b) :
    (∃ e e', c.instantiate r model (.mapping a) = .error e ∧
      c.instantiate r model (.mapping b) = .error e') ∨
    ∃ o o', c.instantiate r model (.mapping a) = .ok o ∧
      c.instantiate r model (.mapping b) = .ok o' ∧ o.value.Reordered o'.value := by
  have names := distinct model attributes tree
  have beginsA : c.Begins model (.mapping a) m attributes _ := ⟨known, tree, rfl⟩
  have beginsB : c.Begins model (.mapping b) m attributes _ := ⟨known, tree, rfl⟩
  have differ := differ.named (.text model)
  by_cases sound : c.Flawless r m attributes (Entries.insert a "model" (.text model))
  · obtain ⟨soundB, reordered⟩ := sound.of_differ names guarded differ
    exact Or.inr ⟨_, _, (beginsA.instantiate_eq_ok_iff distinct).mpr ⟨sound, rfl⟩,
      (beginsB.instantiate_eq_ok_iff distinct).mpr ⟨soundB, rfl⟩, reordered⟩
  · refine Or.inl ⟨_, _, (beginsA.instantiate_eq_error_iff distinct).mpr ⟨sound, rfl⟩,
      (beginsB.instantiate_eq_error_iff distinct).mpr ⟨fun soundB => sound ?_, rfl⟩⟩
    exact (soundB.of_differ names guarded differ.symm).1

/-- Data for a hero, as they are. -/
def honest : Fields := [("name", .text "Ada"), ("stats", .mapping [("strength", .int 16)])]

/-- A bonus in the data makes no other hero. -/
theorem smithy_ignores_bonus :
    ∃ o o', smithy.instantiate .expressions "hero" (.mapping honest) = .ok o ∧
      smithy.instantiate .expressions "hero"
        (.mapping (insertAt honest ["stats", "bonus"] (.int 99))) = .ok o' ∧
      o.value.Reordered o'.value := by
  have formulas : InOrder .expressions (Whole smithyHero) (groupFormulas [] smithyHero) :=
    inOrder_of_reads (by decide +kernel) (by decide +kernel)
  have there : (["stats", "bonus"], .leaf
      { typeName := "int", derived := some "\x7b\x7b stats.strength // 2 \x7d\x7d" })
      ∈ places smithyHero := by
    simp [smithyHero, mem_places_leaf, mem_places_group]
  have names := smithy_distinct "hero" smithyHero smithy_hero
  have way : (Value.mapping honest).Admits ["stats", "bonus"] := ⟨_, rfl, _, rfl, trivial⟩
  have ready : ((smithy.instantiate .expressions "hero" (.mapping honest)).toOption.any
      fun _ => true) = true := by decide +kernel
  obtain ⟨o, made, _⟩ := exists_ok_of_any ready
  have no_rules : ∀ rule ∈ ([] : List ValidationRule),
      Resolver.expressions.ReadsOnly (conditionTemplate rule.expression) (Whole smithyHero) :=
    List.forall_mem_nil _
  rcases forging_fails smithy_distinct rfl smithy_hero ⟨formulas, no_rules⟩
    (differ_insertAt names there rfl way (.int 99)) with ⟨e, _, failed, _⟩ | ⟨o, o', both⟩
  · cases made.symm.trans failed
  · exact ⟨o, o', both⟩

/-- The attributes of knights. The first formula reads what the second one computes. -/
def knightly : Attributes := [
  ("name", .leaf { typeName := "str" }),
  ("summary", .leaf {
    typeName := "str", derived := some "\x7b\x7b name \x7d\x7d the \x7b\x7b rank \x7d\x7d" }),
  ("rank", .leaf { typeName := "str", derived := some "\x7b\x7b 'squire' \x7d\x7d" })]

/-- Knights. -/
def chivalry : Catalog where
  models := [("knight", { id := "knight", attributes := knightly })]

/-- The text in a field. -/
def fieldText (key : String) (object : ModelObject) : Option String :=
  match object.value.at? [key] with
  | some (.text s) => some s
  | _ => none

theorem at?_of_fieldText {object : ModelObject} {s : String} (h : fieldText key object = some s) :
    object.value.at? [key] = some (.text s) := by
  unfold fieldText at h
  split at h
  · cases h
    assumption
  · cases h

/-- A rank in the data is overwritten, but the summary still has it: data that differ in the rank
only make two squires with different summaries. -/
theorem chivalry_believes_king :
    ∃ o o', chivalry.attributes? "knight" = some knightly ∧
      DifferInComputed knightly [("name", .text "Ada")]
        [("name", .text "Ada"), ("rank", .text "king")] ∧
      chivalry.instantiate .expressions "knight" (.mapping [("name", .text "Ada")]) = .ok o ∧
      chivalry.instantiate .expressions "knight"
        (.mapping [("name", .text "Ada"), ("rank", .text "king")]) = .ok o' ∧
      fieldText "rank" o = some "squire" ∧ fieldText "rank" o' = some "squire" ∧
      ¬ o.value.Reordered o'.value := by
  let squire (summary : String) (object : ModelObject) : Bool :=
    fieldText "rank" object == some "squire" && fieldText "summary" object == some summary
  have plain : ((chivalry.instantiate .expressions "knight"
      (.mapping [("name", .text "Ada")])).toOption.any (squire "Ada the ")) = true := by
    decide +kernel
  have posed : ((chivalry.instantiate .expressions "knight"
      (.mapping [("name", .text "Ada"), ("rank", .text "king")])).toOption.any
        (squire "Ada the king")) = true := by decide +kernel
  obtain ⟨o, made, seen⟩ := exists_ok_of_any plain
  obtain ⟨o', made', seen'⟩ := exists_ok_of_any posed
  obtain ⟨rank, summary⟩ := Bool.and_eq_true_iff.mp seen
  obtain ⟨rank', summary'⟩ := Bool.and_eq_true_iff.mp seen'
  have names : DistinctNames knightly := by
    simp [knightly, DistinctNames, Attribute.Distinct, Entries.keys]
  have there : (["rank"], .leaf
      { typeName := "str", derived := some "\x7b\x7b 'squire' \x7d\x7d" }) ∈ places knightly := by
    simp [knightly, mem_places_leaf]
  have differ : DifferInComputed knightly [("name", .text "Ada")]
      [("name", .text "Ada"), ("rank", .text "king")] :=
    differ_insertAt names there rfl ⟨_, rfl, trivial⟩ (.text "king")
  refine ⟨o, o', rfl, differ, made, made', eq_of_beq rank, eq_of_beq rank', fun same => ?_⟩
  have here := same ["summary"]
  rw [at?_of_fieldText (eq_of_beq summary), at?_of_fieldText (eq_of_beq summary')] at here
  rcases here with equal | ⟨_, _, mapping, _⟩
  · exact absurd (Value.text.inj (Option.some.inj equal)) (by decide)
  · cases mapping

end Catalog

end Tabletop
