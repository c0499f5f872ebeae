/-
Tabletop.Proofs.Model.Options — values that an attribute's options refuse.

The options of an attribute are compared with the value that an object comes
to hold, and that has been converted, while the options stand as they are
written. So an option that is supplied as it is written is refused if its
counterpart is the same as none of the options (`refusesOption_iff`). Null is
no value to be compared: where it is supplied, the default is.

  §1 What a tree reports
  §2 What else is reported
  §3 What a supplied value comes to
  §4 Refused options
-/
import Tabletop.Proofs.Model.Demands
import Tabletop.Proofs.Model.Leaves

namespace Tabletop

open Tabletop.Path

variable {attributes : List (String × Attribute)} {fields : Fields} {formulas : List Formula}
  {r : Resolver} {d : AttributeDefinition} {p parent path : Path} {e v w : Value}
  {x : Violation} {listed : List String} {found model : String}

/-! ## §1 What a tree reports -/

/-- The value that an attribute is checked with. -/
def Present (held : Option Value) : Option Value := held.filter fun v => !v.isNull

theorem present_eq_some_iff {held : Option Value} :
    Present held = some v ↔ held = some v ∧ v ≠ .null := by
  unfold Present
  rw [Option.filter_eq_some_iff, Bool.not_eq_true', Value.isNull_eq_false_iff]

theorem present_at? (fields : Fields) (name : String) :
    presentField? fields name = Present ((Value.mapping fields).at? [name]) := by
  rw [at?_single]
  rfl

/-- A tree reports what the attributes report to which mappings lead. -/
theorem mem_groupViolations :
    x ∈ groupViolations parent fields attributes ↔ ∃ p d, (p, .leaf d) ∈ places attributes ∧
      (Value.mapping fields).Leads p ∧
      x ∈ d.violations (parent ++ p) (Present ((Value.mapping fields).at? p)) := by
  induction attributes using Attributes.forest generalizing parent fields with
  | nil =>
    rw [groupViolations]
    simp [not_mem_places_nil]
  | leaf name own rest ih =>
    rw [groupViolations, List.mem_append, ih, Attribute.violations, present_at?]
    constructor
    · rintro (here | ⟨p, d, there, way, reported⟩)
      · exact ⟨[name], own, mem_places_leaf.mpr (Or.inl ⟨rfl, rfl⟩), Value.leads_single, here⟩
      · exact ⟨p, d, mem_places_leaf.mpr (Or.inr there), way, reported⟩
    · rintro ⟨p, d, there, way, reported⟩
      rcases mem_places_leaf.mp there with ⟨rfl, same⟩ | later
      · cases same
        exact Or.inl reported
      · exact Or.inr ⟨p, d, later, way, reported⟩
  | group name children rest ihc ih =>
    have inside : x ∈ (Attribute.group children).violations parent name fields ↔
        ∃ q d, (q, .leaf d) ∈ places children ∧ (Value.mapping fields).Leads (name :: q) ∧
          x ∈ d.violations (parent ++ name :: q)
            (Present ((Value.mapping fields).at? (name :: q))) := by
      rw [Attribute.violations]
      split
      · rename_i inner there
        have below : ∀ q, (Value.mapping fields).at? (name :: q) = (Value.mapping inner).at? q := by
          intro q
          rw [Value.at?_cons, Value.child?_mapping, there]
          rfl
        rw [ihc]
        simp only [below, List.append_assoc, List.singleton_append]
        constructor
        · rintro ⟨q, d, leaf, way, reported⟩
          exact ⟨q, d, leaf, way.cons there, reported⟩
        · rintro ⟨q, d, leaf, way, reported⟩
          obtain ⟨_, same, way⟩ := way.below (ne_nil_of_mem_places leaf)
          rw [there] at same
          cases same
          exact ⟨q, d, leaf, way, reported⟩
      · rename_i no_mapping
        refine iff_of_false List.not_mem_nil ?_
        rintro ⟨q, d, leaf, way, _⟩
        obtain ⟨inner, there, _⟩ := way.below (ne_nil_of_mem_places leaf)
        exact no_mapping inner there
    rw [groupViolations, List.mem_append, ih, inside]
    constructor
    · rintro (⟨q, d, leaf, here⟩ | ⟨p, d, later, here⟩)
      · exact ⟨name :: q, d, mem_places_group.mpr (Or.inr (Or.inl ⟨q, rfl, leaf⟩)), here⟩
      · exact ⟨p, d, mem_places_group.mpr (Or.inr (Or.inr later)), here⟩
    · rintro ⟨p, d, there, here⟩
      rcases mem_places_group.mp there with ⟨_, same⟩ | ⟨q, rfl, leaf⟩ | later
      · cases same
      · exact Or.inl ⟨q, d, leaf, here⟩
      · exact Or.inr ⟨p, d, later, here⟩

/-- An attribute reports an option exactly if its value is none of its options. -/
theorem notAnOption_mem_violations {held : Option Value} :
    .notAnOption p listed found ∈ d.violations path held ↔ p = path ∧ ∃ v options, held = some v ∧
      d.options = some options ∧ (∀ o ∈ options, o.same v = false) ∧
      listed = options.map Value.render ∧ found = v.render := by
  cases held with
  | none =>
    refine iff_of_false (fun reported => ?_) ?_
    · rw [AttributeDefinition.violations] at reported
      split at reported
      · exact absurd reported List.not_mem_nil
      · cases List.mem_singleton.mp reported
    · rintro ⟨_, v, _, nothing, _⟩
      cases nothing
  | some v =>
    have in_range : ∀ range, .notAnOption p listed found ∉ rangeViolation path range v := by
      intro range reported
      unfold rangeViolation at reported
      split at reported
      · exact absurd reported List.not_mem_nil
      · split at reported
        · cases List.mem_singleton.mp reported
        · split at reported
          · cases List.mem_singleton.mp reported
          · exact absurd reported List.not_mem_nil
    rw [AttributeDefinition.violations, List.mem_append]
    constructor
    · rintro (ranged | optional)
      · split at ranged
        · exact absurd ranged (in_range _)
        · exact absurd ranged List.not_mem_nil
      · split at optional
        · rename_i options written
          unfold optionViolation at optional
          split at optional
          · exact absurd optional List.not_mem_nil
          · rename_i none_same
            cases List.mem_singleton.mp optional
            refine ⟨rfl, v, options, rfl, written, fun o ho => ?_, rfl, rfl⟩
            exact Bool.eq_false_iff.mpr fun same => none_same (List.any_eq_true.mpr ⟨o, ho, same⟩)
        · exact absurd optional List.not_mem_nil
    · rintro ⟨rfl, u, options, same, written, others, rfl, rfl⟩
      cases same
      have none_same : ¬ (options.any fun o => o.same v) = true := by
        rw [Bool.not_eq_true, List.any_eq_false]
        exact fun o ho => Bool.eq_false_iff.mp (others o ho)
      rw [written]
      dsimp only
      rw [optionViolation, if_neg none_same]
      exact Or.inr (List.mem_singleton.mpr rfl)

/-! ## §2 What else is reported -/

/-- Formulas report that they could not be computed, and nothing else. -/
theorem derived_of_mem (reported : x ∈ (computeFormulas r formulas fields).2) :
    ∃ path e, x = .derived path e := by
  induction formulas generalizing fields with
  | nil => exact absurd reported List.not_mem_nil
  | cons f rest ih =>
    cases given : f.compute r fields with
    | ok v =>
      rw [computeFormulas_ok given] at reported
      exact ih reported
    | error e =>
      rw [computeFormulas_error given] at reported
      rcases List.mem_cons.mp reported with rfl | later
      · exact ⟨_, _, rfl⟩
      · exact ih later

/-- Rules report that they do not hold, or why they cannot be evaluated. -/
theorem rule_of_mem {rules : List ValidationRule} (reported : x ∈ ruleViolations r rules fields) :
    (∃ message, x = .rule message) ∨ ∃ e, x = .ruleFailed e := by
  obtain ⟨rule, _, here⟩ := List.mem_flatMap.mp reported
  split at here
  · exact absurd here List.not_mem_nil
  · exact Or.inl ⟨_, List.mem_singleton.mp here⟩
  · exact Or.inr ⟨_, List.mem_singleton.mp here⟩

/-! ## §3 What a supplied value comes to -/

variable {coerce : AttributeDefinition → Value → Except InstantiationError Value}

/-- Where null is supplied for a plain attribute its default comes to stand, and any other value
that can be converted is. -/
theorem completed_holds (distinct : DistinctNames attributes)
    (there : (p, .leaf d) ∈ places attributes) (plain : d.derived = none)
    (way : (Value.mapping fields).Leads p) (given : (Value.mapping fields).at? p = some e)
    (taken : e ≠ .null → coerce d e = .ok w) :
    (Value.mapping (completeGroup coerce r fields attributes).1).Leads p ∧
      (Value.mapping (completeGroup coerce r fields attributes).1).at? p
        = some (if e.isNull then d.default.getD .null else w) := by
  obtain ⟨leads, outcome⟩ := filledAt_of_admits coerce [] distinct there way.admits
  obtain ⟨still, same⟩ := leads.computed (r := r) fun f hf =>
    incomparable_formula distinct there plain hf
  refine ⟨still, same.trans ?_⟩
  rw [given] at outcome
  generalize (Value.mapping (fillGroup coerce [] fields attributes).1).at? p = after at outcome ⊢
  rcases outcome with ⟨_, ⟨_, u, held, full, refused⟩, _⟩ | fills
  · cases held
    rw [taken full] at refused
    cases refused
  · by_cases null : e = .null
    · subst null
      cases fills with
      | computed computed =>
        rw [plain] at computed
        cases computed
      | supplied _ full => exact absurd rfl full
      | default _ _ filler =>
        rw [filler]
        rfl
      | missing _ _ empty =>
        rw [empty]
        rfl
    · obtain ⟨u, rfl, converted⟩ := fills.converted plain null
      rw [taken null] at converted
      cases converted
      rw [Value.isNull_eq_false_iff.mpr null, if_neg Bool.false_ne_true]

/-! ## §4 Refused options -/

namespace Catalog

variable {c : Catalog} {data : Value} {kind : Primitive} {options : List Value}

/-- A strict build of the data is refused, among other things because what it has for the attribute
at the path is none of the options. -/
def RefusesOption (c : Catalog) (r : Resolver) (model : String) (data : Value) (p : Path) : Prop :=
  ∃ violations listed found, c.instantiate r model data = .error (.invalid model violations) ∧
    .notAnOption p listed found ∈ violations

/-- A build that has begun is refused with exactly what is reported. -/
theorem Begins.exists_violations_iff {m : Model} (h : c.Begins model data m attributes fields)
    (distinct : c.Distinct) :
    (∃ violations, c.instantiate r model data = .error (.invalid model violations) ∧
      x ∈ violations) ↔ x ∈ (c.filled r true attributes fields).2
        ++ (c.completed r true attributes fields).2
        ++ unmet r m attributes (c.completed r true attributes fields).1 := by
  rw [← build_strict, h.build_eq distinct]
  simp only [if_true]
  constructor
  · rintro ⟨violations, refused, reported⟩
    split at refused
    · cases refused
    · cases refused
      exact reported
  · intro reported
    refine ⟨_, ?_, reported⟩
    rw [if_neg]
    intro nothing
    rw [List.isEmpty_iff.mp nothing] at reported
    exact absurd reported List.not_mem_nil

/-- Only the attributes report options. -/
theorem Begins.refusesOption_iff_reported {m : Model} (h : c.Begins model data m attributes fields)
    (distinct : c.Distinct) :
    c.RefusesOption r model data p ↔ ∃ listed found, .notAnOption p listed found
      ∈ groupViolations [] (c.completed r true attributes fields).1 attributes := by
  have reported : ∀ listed found, (∃ violations,
      c.instantiate r model data = .error (.invalid model violations) ∧
        .notAnOption p listed found ∈ violations) ↔ .notAnOption p listed found
          ∈ groupViolations [] (c.completed r true attributes fields).1 attributes := by
    intro listed found
    rw [h.exists_violations_iff distinct, unmet]
    simp only [List.mem_append]
    constructor
    · rintro ((filling | formula) | (tree | rule))
      · rcases explained_of_mem (distinct model attributes h.tree) filling with
          ⟨_, _, _, _, same⟩ | ⟨_, _, _, _, _, _, same⟩ <;> cases same
      · obtain ⟨_, _, same⟩ := derived_of_mem formula
        cases same
      · exact tree
      · rcases rule_of_mem rule with ⟨_, same⟩ | ⟨_, same⟩ <;> cases same
    · exact fun tree => Or.inr (Or.inl tree)
  constructor
  · rintro ⟨violations, listed, found, refused, here⟩
    exact ⟨listed, found, (reported listed found).mp ⟨violations, refused, here⟩⟩
  · rintro ⟨listed, found, here⟩
    obtain ⟨violations, refused, here⟩ := (reported listed found).mpr here
    exact ⟨violations, listed, found, refused, here⟩

/-- From data with mappings on the way to an attribute a build begins with what the data have. The
id of the model is written over a field of that name. -/
theorem exists_begins_held (tree : c.attributes? model = some attributes)
    (there : (p, .leaf d) ∈ places attributes) (unnamed : p.head? ≠ some "model")
    (way : data.Leads p) (given : data.at? p = some e) :
    ∃ m fields, c.Begins model data m attributes fields ∧ (Value.mapping fields).Leads p ∧
      (Value.mapping fields).at? p = some e := by
  obtain ⟨m, known, _⟩ := Option.map_eq_some_iff.mp tree
  obtain ⟨first, rest, rfl⟩ := List.exists_cons_of_ne_nil (ne_nil_of_mem_places there)
  obtain ⟨own, a_mapping⟩ := way [] List.nil_prefix (List.cons_ne_nil _ _).symm
  cases a_mapping
  have another : "model" ≠ first := fun same => unnamed (same ▸ rfl)
  have kept : Entries.get? own first
      = Entries.get? (Entries.insert own "model" (.text model)) first :=
    (Entries.get?_insert_ne _ another).symm
  exact ⟨m, _, ⟨known, tree, rfl⟩, way.of_get? kept, (at?_of_get? kept).symm.trans given⟩

/-- Where data supply a value for an attribute of a primitive type, options are compared with its
counterpart as they are written, and with the default if the value is null. So an option that is
supplied is refused exactly if none of the options is the same as that. -/
theorem refusesOption_iff (distinct : c.Distinct) (tree : c.attributes? model = some attributes)
    (there : (p, .leaf d) ∈ places attributes) (plain : d.derived = none)
    (named : Primitive.named? d.typeName = some kind) (written : d.options = some options)
    (unnamed : p.head? ≠ some "model") (way : data.Leads p) (given : data.at? p = some e)
    (converted : coercePrimitive e d.typeName = .ok w) :
    c.RefusesOption r model data p ↔ ∃ v, v ≠ .null ∧
      (v = w ∨ w = .null ∧ d.default = some v) ∧ ∀ o ∈ options, o.same v = false := by
  obtain ⟨m, fields, begins, way, given⟩ := exists_begins_held tree there unnamed way given
  have names := distinct model attributes tree
  have taken : e ≠ .null → c.convert r true d e = .ok w := by
    rw [convert_of_primitive named]
    exact fun _ => converted
  obtain ⟨leads, held⟩ := completed_holds (r := r) names there plain way given taken
  rw [begins.refusesOption_iff_reported distinct]
  change (Value.mapping (c.completed r true attributes fields).1).Leads p at leads
  change (Value.mapping (c.completed r true attributes fields).1).at? p = _ at held
  have compared : ∀ v, Present (some (if e.isNull then d.default.getD .null else w)) = some v ↔
      v ≠ .null ∧ (v = w ∨ w = .null ∧ d.default = some v) := by
    intro v
    rw [present_eq_some_iff, and_comm]
    refine and_congr_right fun full => ?_
    by_cases null : e = .null
    · subst null
      cases converted
      cases filler : d.default with
      | none => simp [Value.isNull, eq_comm]
      | some u => simp [Value.isNull, full, eq_comm]
    · have whole : w ≠ .null := convert_ne_null null (taken null)
      rw [Value.isNull_eq_false_iff.mpr null, if_neg Bool.false_ne_true]
      simp [whole, eq_comm]
  simp only [mem_groupViolations, notAnOption_mem_violations, List.nil_append]
  constructor
  · rintro ⟨_, _, q, own, leaf, _, rfl, v, _, checked, same, others, _⟩
    obtain ⟨_, same_leaf⟩ := eq_of_leaf_leads names there leaf List.prefix_rfl
    cases same_leaf
    rw [written] at same
    cases same
    rw [held, compared] at checked
    exact ⟨v, checked.1, checked.2, others⟩
  · rintro ⟨v, full, source, others⟩
    refine ⟨_, _, p, d, there, leads, rfl, v, options, ?_, written, others, rfl, rfl⟩
    rw [held]
    exact (compared v).mpr ⟨full, source⟩

/-- Heroes whose points are one of the options. -/
def ranked (options : List Value) : Catalog where
  models := [("hero", { id := "hero", attributes := [
    ("points", .leaf { typeName := "int", options := some options })] })]

theorem ranked_distinct (options : List Value) : (ranked options).Distinct := by
  refine distinct_of_own ?_
  simp [ranked, DistinctNames, Attribute.Distinct, Entries.keys]

/-- An option that is a whole number is supplied as it is written, or as a text, and taken. -/
theorem ranked_takes_number :
    ¬ (ranked [.int 1, .int 5]).RefusesOption .expressions "hero" (.mapping [("points", .text "5")])
      ["points"] := by
  have there : (["points"], .leaf { typeName := "int", options := some [.int 1, .int 5] })
      ∈ places [("points", .leaf { typeName := "int", options := some [.int 1, .int 5] })] :=
    mem_places_leaf.mpr (Or.inl ⟨rfl, rfl⟩)
  rw [refusesOption_iff (w := .int 5) (ranked_distinct _) rfl there rfl rfl rfl (by decide)
    Value.leads_single at?_single rfl]
  rintro ⟨v, _, rfl | ⟨null, _⟩, others⟩
  · exact absurd (others (.int 5) (by simp)) (by decide)
  · cases null

/-- An option that is a text is supplied as it is written, converted, and refused. -/
theorem ranked_refuses_text :
    coercePrimitive (.text "5") "int" = .ok (.int 5) ∧
    (ranked [.text "5"]).instantiate .expressions "hero" (.mapping [("points", .text "5")])
      = .error (.invalid "hero" [.notAnOption ["points"] ["5"] "5"]) :=
  ⟨rfl, rfl⟩

end Catalog

end Tabletop
