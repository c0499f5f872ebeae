/-
Tabletop.Proofs.Model.Deferred — checks that are put off.

A lenient build keeps what a strict one refuses, and a strict build of what it
gives is to refuse that in turn. It does where a value cannot be converted:
the value is still there, or was made into something that is refused as well,
by induction on the nesting. It does where demands, formulas or rules fail,
since completed fields are completed to themselves. Only a value in the place
of a group can get lost, when a formula writes into that group and so replaces
the value. Failures that blame such a value, at any depth, are set apart
(`BlamesGroup`); every other one stays (`invalid_stays`).

  §1 Values in the place of groups
  §2 Conversions
  §3 Refused values
  §4 Builds
-/
import Tabletop.Proofs.Model.Again

namespace Tabletop

variable {c : Catalog} {r : Resolver} {attributes children : List (String × Attribute)}
  {fields : Fields} {d : AttributeDefinition} {model : String} {data v w : Value} {p q : Path}
  {m : Model} {object : ModelObject} {e : InstantiationError} {violations : List Violation}

/-! ## §1 Values in the place of groups -/

mutual

/-- The failure is that of a value in the place of a group with a formula inside, also if the group
is in a nested object. -/
def InstantiationError.BlamesGroup (c : Catalog) : InstantiationError → Prop
  | .invalid model violations => AnyBlamesGroup c model violations
  | _ => False

/-- The violation in an object of the model is such a failure. -/
def Violation.BlamesGroup (c : Catalog) (model : String) : Violation → Prop
  | .notAGroup q => ∃ attributes, c.attributes? model = some attributes ∧
      ∃ f ∈ groupFormulas [] attributes, q <+: f.path
  | .attribute _ e => e.BlamesGroup c
  | _ => False

/-- One of the violations is. -/
def AnyBlamesGroup (c : Catalog) (model : String) : List Violation → Prop
  | [] => False
  | x :: rest => x.BlamesGroup c model ∨ AnyBlamesGroup c model rest

end

theorem anyBlamesGroup_iff :
    AnyBlamesGroup c model violations ↔ ∃ x ∈ violations, x.BlamesGroup c model := by
  induction violations with
  | nil => simp [AnyBlamesGroup]
  | cons x rest ih => simp [AnyBlamesGroup, ih]

/-! ## §2 Conversions -/

section Conversions

variable {isModel : String → Bool}
  {strict lenient : String → Value → Except InstantiationError Value}

theorem coerceTyped_deferred {typeName : String}
    (deferred : strict typeName v = .error e → lenient typeName v = .ok w →
      ∃ e', strict typeName w = .error e')
    (refused : coerceTyped isModel strict typeName v = .error e)
    (kept : coerceTyped isModel lenient typeName v = .ok w) :
    ∃ e', coerceTyped isModel strict typeName w = .error e' := by
  unfold coerceTyped at refused kept ⊢
  split
  · rw [if_pos ‹_›] at refused kept
    rw [refused] at kept
    cases kept
  · rw [if_neg ‹_›] at refused kept
    split
    · rw [if_pos ‹_›] at refused kept
      exact deferred refused kept
    · rw [if_neg ‹_›] at refused
      cases refused

/-- What a strict conversion refuses and a lenient one makes into something else is refused then, if
that is so of nested objects. -/
theorem coerceAttribute_deferred (full : v ≠ .null)
    (deferred : ∀ id u w, u.reach ≤ v.depth → strict id u = .error e → lenient id u = .ok w →
      ∃ e', strict id w = .error e')
    (refused : coerceAttribute isModel strict d v = .error e)
    (kept : coerceAttribute isModel lenient d v = .ok w) :
    ∃ e', coerceAttribute isModel strict d w = .error e' := by
  rcases coerceAttribute_cases isModel d v with typed | ⟨items, element, rfl, each⟩ | same
  · rw [typed] at refused kept ⊢
    exact coerceTyped_deferred
      (deferred _ v w (Nat.le_of_eq (Value.reach_of_ne_null full))) refused kept
  · rw [each] at refused kept
    obtain ⟨converted, given, rfl⟩ := map_eq_ok_iff.mp kept
    obtain ⟨u, hu, refused⟩ := exists_of_mapM_error (map_eq_error_iff.mp refused)
    obtain ⟨w, hw, kept⟩ := exists_of_mapM_ok given hu
    obtain ⟨e', still⟩ :=
      coerceTyped_deferred (deferred _ u w (Value.reach_le_of_mem hu)) refused kept
    rw [each]
    cases all : converted.mapM (coerceTyped isModel strict element) with
    | error other => exact ⟨other, rfl⟩
    | ok ws =>
      obtain ⟨_, _, taken⟩ := exists_of_mapM_ok all hw
      rw [still] at taken
      cases taken
  · rw [same] at refused
    cases refused

end Conversions

namespace Catalog

/-! ## §3 Refused values -/

/-- A lenient build converts whatever a strict one does, and to the same. -/
theorem filled_lenient (quiet : (c.filled r true attributes fields).2 = []) :
    c.filled r false attributes fields = c.filled r true attributes fields := by
  refine fillGroup_of_no_violations (converts_coerceAttribute fun id v w made => ?_) [] fields
    attributes quiet
  obtain ⟨object, built, same⟩ := map_eq_ok_iff.mp made
  exact map_eq_ok_iff.mpr ⟨object, buildObject_lenient_of_strict built, same⟩

/-- What strict conversion refuses and lenient conversion makes into something else is refused then,
if that is so of nested objects. -/
theorem convert_deferred (full : v ≠ .null)
    (deferred : ∀ id u object, u.reach ≤ v.depth → c.instantiate r id u = .error e →
      c.instantiateLenient r id u = .ok object → ∃ e', c.instantiate r id object.value = .error e')
    (refused : c.convert r true d v = .error e) (kept : c.convert r false d v = .ok w) :
    ∃ e', c.convert r true d w = .error e' := by
  refine coerceAttribute_deferred full (fun id u w small strict lenient => ?_) refused kept
  obtain ⟨object, built, rfl⟩ := map_eq_ok_iff.mp lenient
  obtain ⟨e', still⟩ := deferred id u object small (map_eq_error_iff.mp strict) built
  exact ⟨e', map_eq_error_iff.mpr still⟩

section Refused

variable (distinct : DistinctNames attributes)
  (ready : Ready (c.filled r false attributes fields).1 (groupFormulas [] attributes))
include distinct ready

/-- A value that an attribute refuses, and that stays refused whatever a lenient build makes of it,
is reported once more. -/
theorem reported_of_refused (there : (p, .leaf d) ∈ places attributes)
    (unblocked : (Value.mapping fields).Admits p)
    (refused : d.Refuses (c.convert r true) ((Value.mapping fields).at? p) e)
    (deferred : ∀ v w, (Value.mapping fields).at? p = some v → v ≠ .null →
      c.convert r false d v = .ok w → ∃ e', c.convert r true d w = .error e') :
    (c.filled r true attributes (c.completed r false attributes fields).1).2 ≠ [] := by
  obtain ⟨plain, v, found, full, refused⟩ := refused
  intro quiet
  have taken := fills_of_sound quiet distinct there
  have ended := at?_completeGroup (r := r) distinct ready there plain
  change (Value.mapping (c.completed r false attributes fields).1).at? p = _ at ended
  rw [ended] at taken
  obtain ⟨_, ⟨_, _, kept, _⟩ | made⟩ :=
    filledAt_of_admits (c.convert r false) [] distinct there unblocked
  · rw [kept, found] at taken
    exact taken.not_refuses e ⟨plain, v, rfl, full, refused⟩
  · rw [found] at made
    obtain ⟨w, kept, converted⟩ := made.converted plain full
    obtain ⟨e', still⟩ := deferred v w found full converted
    exact taken.not_refuses e' ⟨plain, w, kept, convert_ne_null full converted, still⟩

/-- A value in the place of a group into which no formula writes is reported once more. -/
theorem reported_of_group (there : (q, .group children) ∈ places attributes)
    (blocked : Blocked fields q) (aside : ∀ f ∈ groupFormulas [] attributes, ¬ q <+: f.path) :
    (c.filled r true attributes (c.completed r false attributes fields).1).2 ≠ [] := by
  have kept : Blocked (c.filled r false attributes fields).1 q :=
    (reported_of_blocked _ [] distinct there blocked).2
  obtain ⟨leads, v, found, closed⟩ := kept
  have still : Blocked (c.completed r false attributes fields).1 q := by
    refine ⟨leads_computeFormulas ready leads fun f hf onward => ?_, v, ?_, closed⟩
    · exact absurd onward (not_formula_leads distinct there hf)
    · exact (at?_computeFormulas ready fun f hf =>
        ⟨aside f hf, not_formula_leads distinct there hf⟩).trans found
  have reported := (reported_of_blocked (c.convert r true) [] distinct there still).1
  exact List.ne_nil_of_mem reported

end Refused

/-! ## §4 Builds -/

/-- A strict failure that blames no value in the place of a group is a failure of what the lenient
build gives, too. -/
theorem fails_again (distinct : c.Distinct) (settled : c.Settled r)
    (failed : c.instantiate r model data = .error e) (unblamed : ¬ e.BlamesGroup c)
    (kept : c.instantiateLenient r model data = .ok object) :
    ∃ e', c.instantiate r model object.value = .error e' := by
  -- the induction is on the nesting of the data, for the objects inside
  induction hn : data.reach using Nat.strongRecOn generalizing model data object e with
  | ind n ih =>
    obtain ⟨m, attributes, fields, begins⟩ := exists_begins (build_lenient ▸ kept)
    have names := distinct model attributes begins.tree
    obtain ⟨free, defaults, ordered⟩ := settled model attributes begins.tree
    obtain ⟨unsound, rfl⟩ := (begins.instantiate_eq_error_iff distinct).mp failed
    have again := begins.again free kept
    rw [begins.instantiateLenient distinct] at kept
    cases kept
    refine ⟨_, (again.instantiate_eq_error_iff distinct).mpr ⟨fun sound => unsound ?_, rfl⟩⟩
    by_cases quiet : (c.filled r true attributes fields).2 = []
    · -- nothing is refused: both builds have completed the same fields, once and for all
      have same : c.completed r false attributes fields = c.completed r true attributes fields := by
        change computeFormulas r _ (c.filled r false attributes fields).1 = _
        rw [filled_lenient quiet]
        rfl
      have values := converted_of_filled names begins.start quiet defaults
        fun id u object _ built => instantiate_again_of_settled distinct settled built
      have still := begins.completed_again distinct quiet rfl values ordered
      have computed := sound.computed
      have met := sound.met
      rw [same, still] at computed met
      exact ⟨quiet, computed, met⟩
    · -- something is refused: it is still there
      obtain ⟨x, reported⟩ := List.exists_mem_of_ne_nil _ quiet
      rw [InstantiationError.BlamesGroup, anyBlamesGroup_iff] at unblamed
      have blameless : ∀ y ∈ (c.filled r true attributes fields).2, ¬ y.BlamesGroup c model :=
        fun y hy blamed => unblamed ⟨y, List.mem_append_left _ (List.mem_append_left _ hy), blamed⟩
      have ready : Ready (c.filled r false attributes fields).1 (groupFormulas [] attributes) := by
        refine ready_fillGroup names fun f hf => ?_
        obtain ⟨d, there, _⟩ := place_of_formula hf
        refine admits_of_unreported (c.convert r true) [] names there fun q onward _ blamed => ?_
        refine blameless _ blamed ?_
        rw [Violation.BlamesGroup]
        exact ⟨attributes, begins.tree, f, hf, onward⟩
      refine absurd sound.filled ?_
      rcases explained_of_mem names reported with
        ⟨q, children, there, blocked, rfl⟩ | ⟨p, d, e, there, unblocked, refused, rfl⟩
      · refine reported_of_group names ready there blocked fun f hf onward => ?_
        refine blameless _ reported ?_
        rw [Violation.BlamesGroup]
        exact ⟨attributes, begins.tree, f, hf, onward⟩
      · refine reported_of_refused names ready there unblocked refused fun v w found full kept => ?_
        obtain ⟨_, _, same, _, refused⟩ := refused
        rw [found] at same
        cases same
        have inner : ¬ e.BlamesGroup c := by
          have := blameless _ reported
          rwa [Violation.BlamesGroup] at this
        refine convert_deferred full (fun id u object small failed kept => ?_) refused kept
        have less := depth_lt_of_begun begins.start (ne_nil_of_mem_places there) found
        exact ih _ (hn ▸ Nat.lt_of_le_of_lt small less) failed inner kept rfl

/-- Putting checks off hides nothing: where defaults are of their types and formulas are in order,
data that strict instantiation finds invalid are made into an object by lenient instantiation, and
that is not accepted either, unless the failure blames a value in the place of a group that a
formula writes into. -/
theorem invalid_stays (distinct : c.Distinct) (settled : c.Settled r)
    (invalid : c.instantiate r model data = .error (.invalid model violations))
    (unblamed : ¬ AnyBlamesGroup c model violations) :
    ∃ object, c.instantiateLenient r model data = .ok object ∧
      ∃ e, c.instantiate r model object.value = .error e := by
  rcases begins_or_fails c r true model data with ⟨m, attributes, fields, begins⟩ | failed | failed
  · refine ⟨_, begins.instantiateLenient distinct, ?_⟩
    refine fails_again distinct settled invalid ?_ (begins.instantiateLenient distinct)
    rwa [InstantiationError.BlamesGroup]
  · cases invalid.symm.trans failed
  · cases invalid.symm.trans failed

/-- Data for a hero whose strength is no number. -/
def weakling : Value := .mapping [
  ("name", .text "Ada"),
  ("stats", .mapping [("strength", .text "none")])]

/-- The conversion and the formula fail, and nothing else. -/
def failsPlainly : Except InstantiationError ModelObject → Bool
  | .ok _ => false
  | .error (.invalid model violations) => model == "hero" && violations.all fun
      | .attribute _ (.coercion _ _) | .derived _ _ => true
      | _ => false
  | .error _ => false

/-- The weakling is refused by the smithy, and so is what lenient instantiation makes of it. -/
theorem smithy_refuses_weakling :
    ∃ violations object e,
      smithy.instantiate .expressions "hero" weakling = .error (.invalid "hero" violations) ∧
      smithy.instantiateLenient .expressions "hero" weakling = .ok object ∧
      smithy.instantiate .expressions "hero" object.value = .error e := by
  have plain : failsPlainly (smithy.instantiate .expressions "hero" weakling) = true := by
    decide +kernel
  unfold failsPlainly at plain
  split at plain
  · cases plain
  · rename_i model violations failed
    obtain ⟨same, each⟩ := Bool.and_eq_true_iff.mp plain
    cases eq_of_beq same
    have unblamed : ¬ AnyBlamesGroup smithy "hero" violations := by
      rw [anyBlamesGroup_iff]
      rintro ⟨x, hx, blamed⟩
      have clear := List.all_eq_true.mp each x hx
      split at clear
      · rwa [Violation.BlamesGroup, InstantiationError.BlamesGroup] at blamed
        nofun
      · rwa [Violation.BlamesGroup] at blamed
        all_goals nofun
      · cases clear
    obtain ⟨object, kept, e, still⟩ := invalid_stays smithy_distinct smithy_settled failed unblamed
    exact ⟨violations, object, e, failed, kept, still⟩
  · cases plain

/-- Heroes with a group that holds nothing but a computed attribute. -/
def garrison : Catalog where
  models := [("hero", { id := "hero", attributes := [
    ("level", .leaf { typeName := "int" }),
    ("stats", .group [
      ("modifier", .leaf { typeName := "int", derived := some "\x7b\x7b level // 2 \x7d\x7d" })])] })]

/-- Data with a text in the place of the group. -/
def braggart : Value := .mapping [("level", .int 4), ("stats", .text "strong")]

/-- The braggart is refused, since the stats are no mapping. Lenient instantiation replaces them,
and then nothing is refused any more. -/
theorem garrison_hides_braggart :
    ∃ violations object hero,
      garrison.instantiate .expressions "hero" braggart = .error (.invalid "hero" violations) ∧
      garrison.instantiateLenient .expressions "hero" braggart = .ok object ∧
      garrison.instantiate .expressions "hero" object.value = .ok hero := by
  let accepts (object : ModelObject) : Bool :=
    (garrison.instantiate .expressions "hero" object.value).toOption.any fun _ => true
  have accepted : ((garrison.instantiateLenient .expressions "hero" braggart).toOption.any accepts)
      = true := by decide +kernel
  obtain ⟨object, kept, accepted⟩ := exists_ok_of_any accepted
  obtain ⟨hero, made, _⟩ := exists_ok_of_any accepted
  exact ⟨_, object, hero, rfl, kept, made⟩

end Catalog

end Tabletop
