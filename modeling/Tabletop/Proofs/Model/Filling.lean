/-
Tabletop.Proofs.Model.Filling — what filling in leaves at each place.

Filling in goes through a tree node by node. Where names are distinct no node
is touched twice, so what comes to stand at an attribute's place is settled
by what stood there: a computed attribute is left alone, a missing value
becomes the default, any other is converted or, if it cannot be, reported
and kept. Only groups that are no mappings are reported besides. Fields of
which every attribute is as filling in leaves it are filled in to themselves.

  §1 One attribute
  §2 The attributes of a tree
  §3 Groups
  §4 Violations
  §5 Fields that are filled in already
-/
import Tabletop.Proofs.Model.Lenient
import Tabletop.Proofs.Model.Tree
import Tabletop.Proofs.Value.Route

namespace Tabletop

variable {coerce : AttributeDefinition → Value → Except InstantiationError Value}
  {attributes rest children : List (String × Attribute)} {fields inner : Fields}
  {name key : String} {d : AttributeDefinition} {p q parent : Path} {v : Value}

/-! ## §1 One attribute -/

/-- There is no value, or null. -/
def Unset (found : Option Value) : Prop := found = none ∨ found = some .null

theorem not_unset_some (h : v ≠ .null) : ¬ Unset (some v) := by
  rintro (none_there | null)
  · cases none_there
  · exact h (Option.some.inj null)

theorem presentField?_eq_some_iff :
    presentField? fields name = some v ↔ Entries.get? fields name = some v ∧ v ≠ .null := by
  unfold presentField?
  rw [Option.filter_eq_some_iff]
  cases v <;> simp [Value.isNull]

theorem presentField?_eq_none_iff :
    presentField? fields name = none ↔ Unset (Entries.get? fields name) := by
  unfold presentField? Unset
  cases Entries.get? fields name with
  | none => simp
  | some w => cases w <;> simp [Value.isNull]

/-- How an attribute takes the value found at its place to the value that comes to stand there. -/
inductive AttributeDefinition.Fills
    (coerce : AttributeDefinition → Value → Except InstantiationError Value)
    (d : AttributeDefinition) : Option Value → Option Value → Prop
  | computed {found : Option Value} (computed : d.derived.isSome = true) :
      Fills coerce d found found
  | supplied {v w : Value} (plain : d.derived = none) (full : v ≠ .null) (h : coerce d v = .ok w) :
      Fills coerce d (some v) (some w)
  | default {found : Option Value} {v : Value} (plain : d.derived = none) (unset : Unset found)
      (h : d.default = some v) : Fills coerce d found (some v)
  | missing {found : Option Value} (plain : d.derived = none) (unset : Unset found)
      (h : d.default = none) : Fills coerce d found found

/-- The attribute refuses the value found at its place. -/
def AttributeDefinition.Refuses
    (coerce : AttributeDefinition → Value → Except InstantiationError Value)
    (d : AttributeDefinition) (found : Option Value) (e : InstantiationError) : Prop :=
  d.derived = none ∧ ∃ v, found = some v ∧ v ≠ .null ∧ coerce d v = .error e

/-- Filling in an attribute: the value is refused, reported and kept, or it is taken. -/
theorem fillLeaf_cases (coerce : AttributeDefinition → Value → Except InstantiationError Value)
    (path : Path) (name : String) (d : AttributeDefinition) (fields : Fields) :
    (∃ e, d.Refuses coerce (Entries.get? fields name) e ∧
      fillLeaf coerce path name d fields = (fields, [.attribute path e])) ∨
    (d.Fills coerce (Entries.get? fields name)
        (Entries.get? (fillLeaf coerce path name d fields).1 name) ∧
      (fillLeaf coerce path name d fields).2 = []) := by
  unfold fillLeaf
  cases computed : d.derived with
  | some template =>
    refine Or.inr ⟨?_, rfl⟩
    exact .computed (by rw [computed]; rfl)
  | none =>
    simp only [Option.isSome_none, Bool.false_eq_true, if_false]
    cases present : presentField? fields name with
    | none =>
      have unset := presentField?_eq_none_iff.mp present
      cases filler : d.default with
      | none => exact Or.inr ⟨.missing computed unset filler, rfl⟩
      | some v =>
        refine Or.inr ⟨?_, rfl⟩
        rw [Entries.get?_insert_self]
        exact .default computed unset filler
    | some v =>
      obtain ⟨found, full⟩ := presentField?_eq_some_iff.mp present
      cases converted : coerce d v with
      | ok w =>
        simp only [converted, and_true]
        refine Or.inr ?_
        rw [Entries.get?_insert_self, found]
        exact .supplied computed full converted
      | error e =>
        simp only [converted]
        exact Or.inl ⟨e, ⟨computed, v, found, full, converted⟩, rfl⟩

/-- What a plain attribute is supplied with comes to stand there converted. -/
theorem AttributeDefinition.Fills.converted {after : Option Value}
    (h : d.Fills coerce (some v) after) (plain : d.derived = none) (full : v ≠ .null) :
    ∃ w, after = some w ∧ coerce d v = .ok w := by
  cases h with
  | computed computed =>
    rw [plain] at computed
    cases computed
  | supplied _ _ taken => exact ⟨_, rfl, taken⟩
  | default _ unset | missing _ unset => exact absurd unset (not_unset_some full)

/-- What comes to stand in the place of a plain attribute is converted, or it is the default. -/
theorem AttributeDefinition.Fills.source {found : Option Value}
    (h : d.Fills coerce found (some w)) (plain : d.derived = none) (full : w ≠ .null) :
    (∃ v, found = some v ∧ v ≠ .null ∧ coerce d v = .ok w) ∨
      Unset found ∧ d.default = some w := by
  cases h with
  | computed computed =>
    rw [plain] at computed
    cases computed
  | supplied _ whole taken => exact Or.inl ⟨_, rfl, whole, taken⟩
  | default _ unset filler => exact Or.inr ⟨unset, filler⟩
  | missing _ unset => exact absurd unset (not_unset_some full)

theorem AttributeDefinition.Fills.not_refuses {found after : Option Value}
    (h : d.Fills coerce found after) (e : InstantiationError) : ¬ d.Refuses coerce found e := by
  rintro ⟨plain, v, rfl, full, refused⟩
  obtain ⟨w, _, taken⟩ := h.converted plain full
  rw [refused] at taken
  cases taken

/-! ## §2 The attributes of a tree -/

/-- A group is a mapping, or a new one if there is nothing in its place. -/
theorem present_of_opened (opened : (Value.inner fields name).fields? = some inner) :
    (presentField? fields name).getD (.mapping []) = .mapping inner := by
  unfold Value.inner at opened
  unfold presentField?
  cases found : Entries.get? fields name with
  | none =>
    rw [found] at opened
    cases opened
    rfl
  | some w =>
    rw [found] at opened
    cases w <;> cases opened <;> rfl

theorem present_of_closed (closed : (Value.inner fields name).fields? = none) (inner : Fields) :
    (presentField? fields name).getD (.mapping []) ≠ .mapping inner := by
  unfold Value.inner at closed
  unfold presentField?
  cases found : Entries.get? fields name with
  | none =>
    rw [found] at closed
    cases closed
  | some w =>
    rw [found] at closed
    cases w <;> cases closed <;> nofun

/-- A group is filled in inside the mapping that is there, or inside a new one. -/
theorem fill_opened (coerce : AttributeDefinition → Value → Except InstantiationError Value)
    (parent : Path) (opened : (Value.inner fields name).fields? = some inner) :
    (Attribute.group children).fill coerce parent name fields
      = let filled := fillGroup coerce (parent ++ [name]) inner children
        (Entries.insert fields name (.mapping filled.1), filled.2) :=
  fill_group_of_mapping coerce parent children (present_of_opened opened)

/-- Any other value in the place of a group is reported and kept. -/
theorem fill_closed (coerce : AttributeDefinition → Value → Except InstantiationError Value)
    (parent : Path) (closed : (Value.inner fields name).fields? = none) :
    (Attribute.group children).fill coerce parent name fields
      = (fields, [.notAGroup (parent ++ [name])]) := by
  rw [Attribute.fill]
  split
  · rename_i inner held
    exact absurd held (present_of_closed closed inner)
  · rfl

/-- Below a name fields read like others that have the same value there. -/
theorem at?_of_get? {other : Fields} (same : Entries.get? fields name = Entries.get? other name) :
    (Value.mapping fields).at? (name :: p) = (Value.mapping other).at? (name :: p) := by
  rw [Value.at?_cons, Value.at?_cons, Value.child?_mapping, Value.child?_mapping, same]

theorem at?_single : (Value.mapping fields).at? [name] = Entries.get? fields name := by
  rw [Value.at?_cons, Value.child?_mapping]
  cases Entries.get? fields name <;> rfl

/-- They are as open to writes as others that have the same value there. -/
theorem admits_of_get? {other : Fields}
    (same : Entries.get? fields name = Entries.get? other name)
    (h : (Value.mapping fields).Admits (name :: p)) : (Value.mapping other).Admits (name :: p) := by
  rw [Value.admits_cons rfl, Value.inner] at h ⊢
  rwa [← same]

/-- What is found below a group that is open is found in its fields. -/
theorem at?_of_opened (opened : (Value.inner fields name).fields? = some inner) (more : p ≠ []) :
    (Value.mapping fields).at? (name :: p) = (Value.mapping inner).at? p := by
  cases p with
  | nil => exact absurd rfl more
  | cons next rest =>
    rw [Value.at?_cons, Value.child?_mapping, ← Value.at?_inner, Value.at?_cons, Value.at?_cons,
      Value.child?_of_fields? opened, Value.child?_mapping]

theorem admits_of_opened (opened : (Value.inner fields name).fields? = some inner) (more : p ≠ []) :
    (Value.mapping fields).Admits (name :: p) ↔ (Value.mapping inner).Admits p := by
  cases p with
  | nil => exact absurd rfl more
  | cons next rest =>
    rw [Value.admits_cons rfl, Value.admits_cons opened, Value.admits_cons rfl]

/-- A place below a group that is open to writes is in a group that is open. -/
theorem exists_opened (unblocked : (Value.mapping fields).Admits (name :: p)) (more : p ≠ []) :
    ∃ inner, (Value.inner fields name).fields? = some inner := by
  cases p with
  | nil => exact absurd rfl more
  | cons next rest =>
    rw [Value.admits_cons rfl] at unblocked
    obtain ⟨inner, opened, _⟩ := unblocked
    exact ⟨inner, opened⟩

/-- After filling in there are mappings on the way to the attribute's place, and what stood there is
refused, kept and reported, or it is taken. -/
def FilledAt (coerce : AttributeDefinition → Value → Except InstantiationError Value)
    (parent : Path) (fields : Fields) (attributes : List (String × Attribute)) (p : Path)
    (d : AttributeDefinition) : Prop :=
  let after := fillGroup coerce parent fields attributes
  (Value.mapping after.1).Leads p ∧
    ((∃ e, d.Refuses coerce ((Value.mapping fields).at? p) e ∧
        (Value.mapping after.1).at? p = (Value.mapping fields).at? p ∧
        .attribute (parent ++ p) e ∈ after.2) ∨
      d.Fills coerce ((Value.mapping fields).at? p) ((Value.mapping after.1).at? p))

/-- A node in front does not touch the attributes of the others. -/
theorem FilledAt.later {node : Attribute} {first : String} (other : name ≠ first)
    (h : FilledAt coerce parent (node.fill coerce parent name fields).1 rest (first :: p) d) :
    FilledAt coerce parent fields ((name, node) :: rest) (first :: p) d := by
  have kept := get?_fill coerce parent fields node other
  obtain ⟨leads, outcome⟩ := h
  rw [at?_of_get? kept] at outcome
  unfold FilledAt
  rw [fillGroup_cons]
  refine ⟨leads, outcome.imp_left ?_⟩
  rintro ⟨e, refused, same, reported⟩
  exact ⟨e, refused, same, List.mem_append_right _ reported⟩

variable (coerce) (parent) in
/-- What comes to stand at the place of an attribute, if the way there is open. -/
theorem filledAt_of_admits (distinct : DistinctNames attributes)
    (there : (p, .leaf d) ∈ places attributes) (unblocked : (Value.mapping fields).Admits p) :
    FilledAt coerce parent fields attributes p d := by
  induction attributes using Attributes.forest generalizing parent fields p with
  | nil => exact absurd there not_mem_places_nil
  | leaf name own rest ih =>
    obtain ⟨fresh, distinct⟩ := distinctNames_leaf.mp distinct
    rcases mem_places_leaf.mp there with ⟨rfl, same⟩ | later
    · cases same
      unfold FilledAt
      rw [fillGroup_cons, Attribute.fill]
      dsimp only
      refine ⟨Value.leads_single, ?_⟩
      rw [at?_single, at?_single, get?_fillGroup coerce parent _ fresh]
      rcases fillLeaf_cases coerce (parent ++ [name]) name d fields with
        ⟨e, refused, filled⟩ | ⟨taken, _⟩
      · rw [filled]
        exact Or.inl ⟨e, refused, rfl, List.mem_append_left _ (List.mem_singleton.mpr rfl)⟩
      · exact Or.inr taken
    · obtain ⟨first, q, rfl, other⟩ := head_ne fresh later
      have kept := get?_fill coerce parent fields (.leaf own) other
      exact .later other (ih _ distinct later (admits_of_get? kept.symm unblocked))
  | group name children rest ihc ih =>
    obtain ⟨fresh, nested, distinct⟩ := distinctNames_group.mp distinct
    rcases mem_places_group.mp there with ⟨_, same⟩ | ⟨q, rfl, inside⟩ | later
    · cases same
    · have more := ne_nil_of_mem_places inside
      obtain ⟨inner, opened⟩ := exists_opened unblocked more
      obtain ⟨leads, outcome⟩ :=
        ihc (parent ++ [name]) nested inside ((admits_of_opened opened more).mp unblocked)
      have kept := get?_fillGroup coerce parent (Entries.insert fields name
        (.mapping (fillGroup coerce (parent ++ [name]) inner children).1)) fresh
      have written : (Value.inner (Entries.insert fields name
          (.mapping (fillGroup coerce (parent ++ [name]) inner children).1)) name).fields?
          = some (fillGroup coerce (parent ++ [name]) inner children).1 := by
        rw [Value.inner_of_get? (Entries.get?_insert_self _ _ _)]
        rfl
      unfold FilledAt
      rw [fillGroup_cons, fill_opened coerce parent opened]
      dsimp only
      rw [at?_of_get? kept, at?_of_opened opened more, at?_of_opened written more]
      refine ⟨.of_get? kept.symm (.cons (Entries.get?_insert_self _ _ _) leads),
        outcome.imp_left ?_⟩
      rintro ⟨e, refused, same, reported⟩
      refine ⟨e, refused, same, List.mem_append_left _ ?_⟩
      rwa [List.append_assoc, List.singleton_append] at reported
    · obtain ⟨first, q, rfl, other⟩ := head_ne fresh later
      have kept := get?_fill coerce parent fields (.group children) other
      exact .later other (ih _ distinct later (admits_of_get? kept.symm unblocked))

/-! ## §3 Groups -/

/-- In the place stands a value that is neither null nor a mapping, with mappings on the way
there. -/
def Blocked (fields : Fields) (q : Path) : Prop :=
  (Value.mapping fields).Leads q ∧
    ∃ v, (Value.mapping fields).at? q = some v ∧ v.fields? = none

theorem blocked_single : Blocked fields [name] ↔ (Value.inner fields name).fields? = none := by
  unfold Blocked Value.inner
  rw [at?_single]
  cases Entries.get? fields name with
  | none => simp [Value.fields?]
  | some v => simp [Value.leads_single]

theorem blocked_of_get? {other : Fields}
    (same : Entries.get? fields name = Entries.get? other name) (h : Blocked fields (name :: q)) :
    Blocked other (name :: q) := by
  obtain ⟨leads, v, found, full⟩ := h
  exact ⟨leads.of_get? same, v, (at?_of_get? same).symm.trans found, full⟩

/-- What is blocked below a name is blocked in the mapping there. -/
theorem Blocked.below (h : Blocked fields (name :: q)) (more : q ≠ []) :
    ∃ inner, Entries.get? fields name = some (.mapping inner) ∧ Blocked inner q := by
  obtain ⟨leads, v, found, full⟩ := h
  obtain ⟨inner, there, below⟩ := leads.below more
  rw [Value.at?_cons, Value.child?_mapping, there] at found
  exact ⟨inner, there, below, v, found, full⟩

theorem Blocked.cons (there : Entries.get? fields name = some (.mapping inner))
    (h : Blocked inner q) : Blocked fields (name :: q) := by
  obtain ⟨leads, v, found, full⟩ := h
  refine ⟨leads.cons there, v, ?_, full⟩
  rw [Value.at?_cons, Value.child?_mapping, there]
  exact found

/-- What is blocked in an open group is blocked below its name. -/
theorem Blocked.cons_of_opened (h : Blocked inner q)
    (opened : (Value.inner fields name).fields? = some inner) (more : q ≠ []) :
    Blocked fields (name :: q) := by
  obtain ⟨leads, v, found, full⟩ := h
  refine Blocked.cons ?_ ⟨leads, v, found, full⟩
  -- only a mapping has anything inside
  have empty : inner ≠ [] := by
    rintro rfl
    cases q with
    | nil => exact more rfl
    | cons => cases found
  unfold Value.inner at opened
  cases there : Entries.get? fields name with
  | none =>
    rw [there] at opened
    exact absurd (Option.some.inj opened).symm empty
  | some u =>
    rw [there] at opened
    cases u with
    | mapping own => rw [← Option.some.inj opened]
    | null => exact absurd (Option.some.inj opened).symm empty
    | _ => cases opened

/-- If a write at a place is not possible, a place on the way there is blocked. -/
theorem exists_blocked (closed : ¬ (Value.mapping fields).Admits p) :
    ∃ q, q <+: p ∧ q ≠ p ∧ q ≠ [] ∧ Blocked fields q := by
  induction p generalizing fields with
  | nil => exact absurd (Value.admits_nil _) closed
  | cons name rest ih =>
    have more : rest ≠ [] := by
      rintro rfl
      refine closed ?_
      rw [Value.admits_cons rfl]
      exact Value.admits_nil _
    cases opened : (Value.inner fields name).fields? with
    | none =>
      exact ⟨[name], List.cons_prefix_cons.mpr ⟨rfl, List.nil_prefix⟩,
        fun same => more (List.cons.inj same).2.symm, List.cons_ne_nil _ _,
        blocked_single.mpr opened⟩
    | some inner =>
      rw [admits_of_opened opened more] at closed
      obtain ⟨q, on, short, inside, blocked⟩ := ih closed
      refine ⟨name :: q, List.cons_prefix_cons.mpr ⟨rfl, on⟩,
        fun same => short (List.cons.inj same).2, List.cons_ne_nil _ _, ?_⟩
      exact blocked.cons_of_opened opened inside

variable (coerce) (parent) in
/-- A blocked group is reported and kept. -/
theorem reported_of_blocked (distinct : DistinctNames attributes)
    (there : (q, .group children) ∈ places attributes) (blocked : Blocked fields q) :
    .notAGroup (parent ++ q) ∈ (fillGroup coerce parent fields attributes).2 ∧
      Blocked (fillGroup coerce parent fields attributes).1 q := by
  induction attributes using Attributes.forest generalizing parent fields q with
  | nil => exact absurd there not_mem_places_nil
  | leaf name own rest ih =>
    obtain ⟨fresh, distinct⟩ := distinctNames_leaf.mp distinct
    rw [fillGroup_cons]
    rcases mem_places_leaf.mp there with ⟨_, same⟩ | later
    · cases same
    · obtain ⟨first, q, rfl, other⟩ := head_ne fresh later
      have kept := get?_fill coerce parent fields (.leaf own) other
      obtain ⟨reported, still⟩ := ih _ distinct later (blocked_of_get? kept.symm blocked)
      exact ⟨List.mem_append_right _ reported, still⟩
  | group name own rest ihc ih =>
    obtain ⟨fresh, nested, distinct⟩ := distinctNames_group.mp distinct
    rw [fillGroup_cons]
    rcases mem_places_group.mp there with ⟨rfl, _⟩ | ⟨q, rfl, inside⟩ | later
    · rw [fill_closed coerce parent (blocked_single.mp blocked)]
      exact ⟨List.mem_append_left _ (List.mem_singleton.mpr rfl),
        blocked_of_get? (get?_fillGroup coerce parent _ fresh).symm blocked⟩
    · obtain ⟨inner, found, below⟩ := blocked.below (ne_nil_of_mem_places inside)
      have opened : (Value.inner fields name).fields? = some inner := by
        rw [Value.inner_of_get? found]
        rfl
      obtain ⟨reported, still⟩ := ihc (parent ++ [name]) nested inside below
      rw [fill_opened coerce parent opened]
      rw [List.append_assoc, List.singleton_append] at reported
      refine ⟨List.mem_append_left _ reported, ?_⟩
      exact .cons ((get?_fillGroup coerce parent _ fresh).trans (Entries.get?_insert_self _ _ _))
        still
    · obtain ⟨first, q, rfl, other⟩ := head_ne fresh later
      have kept := get?_fill coerce parent fields (.group own) other
      obtain ⟨reported, still⟩ := ih _ distinct later (blocked_of_get? kept.symm blocked)
      exact ⟨List.mem_append_right _ reported, still⟩

variable (coerce) (parent) in
/-- The way to a node is open if no group on the way is reported. -/
theorem admits_of_unreported {node : Attribute} (distinct : DistinctNames attributes)
    (there : (p, node) ∈ places attributes)
    (quiet : ∀ q, q <+: p → q ≠ p →
      .notAGroup (parent ++ q) ∉ (fillGroup coerce parent fields attributes).2) :
    (Value.mapping fields).Admits p := by
  by_contra closed
  obtain ⟨q, on, short, inside, blocked⟩ := exists_blocked closed
  obtain ⟨children, group⟩ := group_of_way there on short inside
  exact quiet q on short (reported_of_blocked coerce parent distinct group blocked).1

/-! ## §4 Violations -/

/-- The violation is that of a blocked group, or of a value that an attribute refuses. -/
def Explained (coerce : AttributeDefinition → Value → Except InstantiationError Value)
    (parent : Path) (fields : Fields) (attributes : List (String × Attribute)) (x : Violation) :
    Prop :=
  (∃ q children, (q, .group children) ∈ places attributes ∧ Blocked fields q ∧
      x = .notAGroup (parent ++ q)) ∨
    ∃ p d e, (p, .leaf d) ∈ places attributes ∧ (Value.mapping fields).Admits p ∧
      d.Refuses coerce ((Value.mapping fields).at? p) e ∧ x = .attribute (parent ++ p) e

/-- The attributes behind a node find what it leaves alone. -/
theorem Explained.later {node : Attribute} {x : Violation} (fresh : name ∉ Entries.keys rest)
    (h : Explained coerce parent (node.fill coerce parent name fields).1 rest x) :
    Explained coerce parent fields ((name, node) :: rest) x := by
  rcases h with ⟨q, children, there, blocked, rfl⟩ | ⟨p, d, e, there, unblocked, refused, rfl⟩
  · obtain ⟨first, q, rfl, other⟩ := head_ne fresh there
    exact Or.inl ⟨_, children, mem_places_cons.mpr (Or.inr (Or.inr there)),
      blocked_of_get? (get?_fill coerce parent fields node other) blocked, rfl⟩
  · obtain ⟨first, q, rfl, other⟩ := head_ne fresh there
    have kept := get?_fill coerce parent fields node other
    rw [at?_of_get? kept] at refused
    exact Or.inr ⟨_, d, e, mem_places_cons.mpr (Or.inr (Or.inr there)),
      admits_of_get? kept unblocked, refused, rfl⟩

/-- What filling in reports is explained. -/
theorem explained_of_mem {x : Violation} (distinct : DistinctNames attributes)
    (reported : x ∈ (fillGroup coerce parent fields attributes).2) :
    Explained coerce parent fields attributes x := by
  induction attributes using Attributes.forest generalizing parent fields with
  | nil =>
    rw [fillGroup] at reported
    exact absurd reported List.not_mem_nil
  | leaf name own rest ih =>
    obtain ⟨fresh, distinct⟩ := distinctNames_leaf.mp distinct
    rw [fillGroup_cons] at reported
    rcases List.mem_append.mp reported with here | reported
    · rw [Attribute.fill] at here
      rcases fillLeaf_cases coerce (parent ++ [name]) name own fields with
        ⟨e, refused, filled⟩ | ⟨_, nothing⟩
      · rw [filled] at here
        have unblocked : (Value.mapping fields).Admits [name] := by
          rw [Value.admits_cons rfl]
          exact Value.admits_nil _
        refine Or.inr ⟨[name], own, e, mem_places_leaf.mpr (Or.inl ⟨rfl, rfl⟩), unblocked, ?_,
          List.mem_singleton.mp here⟩
        rwa [at?_single]
      · rw [nothing] at here
        exact absurd here List.not_mem_nil
    · exact .later fresh (ih distinct reported)
  | group name children rest ihc ih =>
    obtain ⟨fresh, nested, distinct⟩ := distinctNames_group.mp distinct
    rw [fillGroup_cons] at reported
    rcases List.mem_append.mp reported with here | reported
    · cases opened : (Value.inner fields name).fields? with
      | none =>
        rw [fill_closed coerce parent opened] at here
        exact Or.inl ⟨[name], children, mem_places_group.mpr (Or.inl ⟨rfl, rfl⟩),
          blocked_single.mpr opened, List.mem_singleton.mp here⟩
      | some inner =>
        rw [fill_opened coerce parent opened] at here
        rcases ihc nested here with
          ⟨q, own, there, blocked, rfl⟩ | ⟨p, d, e, there, unblocked, refused, rfl⟩
        · refine Or.inl ⟨name :: q, own, mem_places_group.mpr (Or.inr (Or.inl ⟨q, rfl, there⟩)),
            ?_, ?_⟩
          · exact blocked.cons_of_opened opened (ne_nil_of_mem_places there)
          · rw [List.append_assoc, List.singleton_append]
        · have more := ne_nil_of_mem_places there
          rw [← at?_of_opened opened more] at refused
          refine Or.inr ⟨name :: p, d, e, mem_places_group.mpr (Or.inr (Or.inl ⟨p, rfl, there⟩)),
            (admits_of_opened opened more).mpr unblocked, refused, ?_⟩
          rw [List.append_assoc, List.singleton_append]
    · exact .later fresh (ih distinct reported)

/-- A group that is not reported holds fields, or nothing yet. -/
theorem exists_opened_of_quiet
    (quiet : ((Attribute.group children).fill coerce parent name fields).2 = []) :
    ∃ inner, (Value.inner fields name).fields? = some inner := by
  cases opened : (Value.inner fields name).fields? with
  | some inner => exact ⟨inner, rfl⟩
  | none =>
    rw [fill_closed coerce parent opened] at quiet
    cases quiet

/-- If nothing is reported, every group holds a mapping afterwards. -/
theorem mapping_fillGroup (distinct : DistinctNames attributes)
    (quiet : (fillGroup coerce parent fields attributes).2 = [])
    (there : (p, .group children) ∈ places attributes) :
    ∃ inner, (Value.mapping (fillGroup coerce parent fields attributes).1).at? p
      = some (.mapping inner) := by
  induction attributes using Attributes.forest generalizing parent fields p with
  | nil => exact absurd there not_mem_places_nil
  | leaf name own rest ih =>
    obtain ⟨_, distinct⟩ := distinctNames_leaf.mp distinct
    rw [fillGroup_cons] at quiet ⊢
    rcases mem_places_leaf.mp there with ⟨_, same⟩ | later
    · cases same
    · exact ih distinct (List.append_eq_nil_iff.mp quiet).2 later
  | group name own rest ihc ih =>
    obtain ⟨fresh, nested, distinct⟩ := distinctNames_group.mp distinct
    rw [fillGroup_cons] at quiet ⊢
    obtain ⟨here, after⟩ := List.append_eq_nil_iff.mp quiet
    obtain ⟨inner, opened⟩ := exists_opened_of_quiet here
    rw [fill_opened coerce parent opened] at here after ⊢
    have kept := (get?_fillGroup coerce parent (Entries.insert fields name
      (.mapping (fillGroup coerce (parent ++ [name]) inner own).1)) fresh).trans
        (Entries.get?_insert_self _ _ _)
    rcases mem_places_group.mp there with ⟨rfl, _⟩ | ⟨q, rfl, inside⟩ | later
    · exact ⟨_, at?_single.trans kept⟩
    · obtain ⟨found, hf⟩ := ihc nested here inside
      refine ⟨found, ?_⟩
      rw [Value.at?_cons, Value.child?_mapping, kept]
      exact hf
    · exact ih distinct after later

/-! ## §5 Fields that are filled in already -/

/-- An attribute that is as filling in leaves it is filled in to itself. -/
theorem fillLeaf_of_fills {path : Path}
    (h : d.Fills coerce (Entries.get? fields name) (Entries.get? fields name)) :
    fillLeaf coerce path name d fields = (fields, []) := by
  unfold fillLeaf
  generalize seen : Entries.get? fields name = found at h
  cases h with
  | computed computed => rw [if_pos computed]
  | supplied plain full taken =>
    rw [plain, presentField?_eq_some_iff.mpr ⟨seen, full⟩]
    simp only [Option.isSome_none, Bool.false_eq_true, if_false, taken,
      Entries.insert_of_get? seen]
  | default plain unset filler =>
    rw [plain, presentField?_eq_none_iff.mpr (seen ▸ unset), filler]
    simp only [Option.isSome_none, Bool.false_eq_true, if_false, Entries.insert_of_get? seen]
  | missing plain unset empty =>
    rw [plain, presentField?_eq_none_iff.mpr (seen ▸ unset), empty]
    rfl

/-- If every attribute is as filling in leaves it and every group holds a mapping, filling in
changes nothing and reports nothing. -/
theorem fillGroup_of_filled (distinct : DistinctNames attributes)
    (leaves : ∀ p d, (p, .leaf d) ∈ places attributes →
      d.Fills coerce ((Value.mapping fields).at? p) ((Value.mapping fields).at? p))
    (groups : ∀ p children, (p, .group children) ∈ places attributes →
      ∃ inner, (Value.mapping fields).at? p = some (.mapping inner)) :
    fillGroup coerce parent fields attributes = (fields, []) := by
  induction attributes using Attributes.forest generalizing parent fields with
  | nil => rw [fillGroup]
  | leaf name d rest ih =>
    obtain ⟨fresh, distinct⟩ := distinctNames_leaf.mp distinct
    have here : fillLeaf coerce (parent ++ [name]) name d fields = (fields, []) := by
      have settled := leaves [name] d (mem_places_leaf.mpr (Or.inl ⟨rfl, rfl⟩))
      rw [at?_single] at settled
      exact fillLeaf_of_fills settled
    rw [fillGroup_cons, Attribute.fill, here]
    dsimp only
    rw [ih distinct (fun p d there => leaves p d (mem_places_leaf.mpr (Or.inr there)))
      fun p children there => groups p children (mem_places_leaf.mpr (Or.inr there))]
    rfl
  | group name children rest ihc ih =>
    obtain ⟨fresh, nested, distinct⟩ := distinctNames_group.mp distinct
    obtain ⟨inner, found⟩ := groups [name] children (mem_places_group.mpr (Or.inl ⟨rfl, rfl⟩))
    rw [at?_single] at found
    have opened : (Value.inner fields name).fields? = some inner := by
      rw [Value.inner_of_get? found]
      rfl
    have below : ∀ {p node}, (p, node) ∈ places children →
        (Value.mapping fields).at? (name :: p) = (Value.mapping inner).at? p :=
      fun there => at?_of_opened opened (ne_nil_of_mem_places there)
    have here : fillGroup coerce (parent ++ [name]) inner children = (inner, []) := by
      refine ihc nested (fun p d there => ?_) fun p own there => ?_
      · rw [← below there]
        exact leaves _ d (mem_places_group.mpr (Or.inr (Or.inl ⟨p, rfl, there⟩)))
      · rw [← below there]
        exact groups _ own (mem_places_group.mpr (Or.inr (Or.inl ⟨p, rfl, there⟩)))
    rw [fillGroup_cons, fill_opened coerce parent opened, here]
    dsimp only
    rw [Entries.insert_of_get? found,
      ih distinct (fun p d there => leaves p d (mem_places_group.mpr (Or.inr (Or.inr there))))
        fun p own there => groups p own (mem_places_group.mpr (Or.inr (Or.inr there)))]
    rfl

end Tabletop
