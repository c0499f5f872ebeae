/-
Tabletop.Proofs.Model.Computing — formulas, one after the other.

A formula sees the fields as they are in its turn, so it sees what earlier
ones gave, and what the data say of itself and of later ones. It is in its
proper place if it reads none of these, that is, if its value is the same in
all fields that agree away from them. Formulas that are in order in this
sense give, on the fields that they have completed, what they gave before:
computing twice is computing once.

  §1 What a formula reads
  §2 Places that are ready
  §3 What computing keeps
  §4 Computing on completed fields
-/
import Tabletop.Proofs.Model.Tree
import Tabletop.Proofs.Template.Scope
import Tabletop.Proofs.Value.Route
import Mathlib.Data.List.Pairwise

namespace Tabletop

open Tabletop.Path

variable {r : Resolver} {formulas rest : List Formula} {fields inner : Fields} {f : Formula}
  {p q : Path} {v : Value}

/-! ## §1 What a formula reads -/

/-- The template has the same value in all fields that agree at the visible places. -/
def Resolver.ReadsOnly (r : Resolver) (template : String) (visible : Path → Prop) : Prop :=
  ∀ a b : Fields, (∀ q, visible q → (Value.mapping a).at? q = (Value.mapping b).at? q) →
    r.resolve template (Fields.scope a) = r.resolve template (Fields.scope b)

/-- Each formula reads visible places only, and none that touches a place which it computes itself
or a later one does. -/
def InOrder (r : Resolver) (visible : Path → Prop) : List Formula → Prop
  | [] => True
  | f :: rest =>
      r.ReadsOnly f.template (fun q => visible q ∧ ∀ g ∈ f :: rest, q.Incomparable g.path)
        ∧ InOrder r visible rest

/-- The same for expressions, by the paths that are written in the formulas. -/
def ReadsInOrder : List Formula → Prop
  | [] => True
  | f :: rest =>
      (∀ q ∈ templateReads f.template, ∀ g ∈ f :: rest, q.Incomparable g.path) ∧ ReadsInOrder rest

instance (p q : Path) : Decidable (p.Incomparable q) := inferInstanceAs (Decidable (_ ∧ _))

instance ReadsInOrder.decidable : (formulas : List Formula) → Decidable (ReadsInOrder formulas)
  | [] => inferInstanceAs (Decidable True)
  | f :: rest =>
      have := decidable rest
      inferInstanceAs (Decidable
        ((∀ q ∈ templateReads f.template, ∀ g ∈ f :: rest, q.Incomparable g.path) ∧
          ReadsInOrder rest))

/-- A template of the expression language depends on the paths that are written in it. -/
theorem Resolver.readsOnly_expressions {template : String} {visible : Path → Prop}
    (h : ∀ q ∈ templateReads template, visible q) :
    Resolver.expressions.ReadsOnly template visible := by
  intro a b agree
  refine resolveTemplate_of_reads fun q hq => ?_
  have named := templateReads_ne_nil template q hq
  rw [Fields.scope_eq_at? named, Fields.scope_eq_at? named, agree q (h q hq)]

theorem inOrder_of_reads {visible : Path → Prop} (ordered : ReadsInOrder formulas)
    (seen : ∀ f ∈ formulas, ∀ q ∈ templateReads f.template, visible q) :
    InOrder .expressions visible formulas := by
  induction formulas with
  | nil => trivial
  | cons f rest ih =>
    rw [List.forall_mem_cons] at seen
    exact ⟨Resolver.readsOnly_expressions fun q hq => ⟨seen.1 q hq, ordered.1 q hq⟩,
      ih ordered.2 seen.2⟩

/-- Fields that agree at what a formula reads give it the same value. -/
theorem Formula.compute_of_agree {visible : Path → Prop} {other : Fields}
    (reads : r.ReadsOnly f.template visible)
    (agree : ∀ q, visible q → (Value.mapping fields).at? q = (Value.mapping other).at? q) :
    f.compute r fields = f.compute r other := by
  unfold compute
  rw [reads fields other agree]

theorem computeFormulas_ok (h : f.compute r fields = .ok v) :
    computeFormulas r (f :: rest) fields
      = computeFormulas r rest (insertAt fields f.path v) := by
  rw [computeFormulas, h]

theorem computeFormulas_error {e : InstantiationError} (h : f.compute r fields = .error e) :
    computeFormulas r (f :: rest) fields
      = ((computeFormulas r rest fields).1,
          .derived f.path e :: (computeFormulas r rest fields).2) := by
  rw [computeFormulas, h]

/-! ## §2 Places that are ready -/

/-- The formulas compute places that do not touch each other, with mappings on the way there. -/
structure Ready (fields : Fields) (formulas : List Formula) : Prop where
  apart : formulas.Pairwise fun f g => f.path.Incomparable g.path
  ways : ∀ f ∈ formulas, f.path ≠ [] ∧ (Value.mapping fields).Leads f.path

theorem Ready.tail (h : Ready fields (f :: rest)) : Ready fields rest :=
  ⟨(List.pairwise_cons.mp h.apart).2, fun g hg => h.ways g (List.mem_cons_of_mem _ hg)⟩

theorem Ready.written (h : Ready fields (f :: rest)) (v : Value) :
    Value.mapping (insertAt fields f.path v) = (Value.mapping fields).withAt f.path v :=
  mapping_insertAt fields (h.ways f List.mem_cons_self).1 v

theorem Ready.admits (h : Ready fields (f :: rest)) : (Value.mapping fields).Admits f.path :=
  (h.ways f List.mem_cons_self).2.admits

/-- A value in its place leaves the places of the later formulas ready. -/
theorem Ready.step (h : Ready fields (f :: rest)) (v : Value) :
    Ready (insertAt fields f.path v) rest := by
  refine ⟨h.tail.apart, fun g hg => ⟨(h.tail.ways g hg).1, ?_⟩⟩
  rw [h.written]
  exact ((h.tail.ways g hg).2.withAt_beside ((List.pairwise_cons.mp h.apart).1 g hg) v).1

/-! ## §3 What computing keeps -/

/-- Computing leaves the places that no formula touches. -/
theorem at?_computeFormulas (ready : Ready fields formulas)
    (apart : ∀ f ∈ formulas, q.Incomparable f.path) :
    (Value.mapping (computeFormulas r formulas fields).1).at? q
      = (Value.mapping fields).at? q := by
  induction formulas generalizing fields with
  | nil => rfl
  | cons f rest ih =>
    rw [List.forall_mem_cons] at apart
    cases computed : f.compute r fields with
    | ok v =>
      rw [computeFormulas_ok computed, ih (ready.step v) apart.2, ready.written,
        Value.at?_withAt_incomparable ready.admits apart.1.symm]
    | error e => rw [computeFormulas_error computed, ih ready.tail apart.2]

/-- Computing keeps mappings, except below the places of formulas. -/
theorem mapping_computeFormulas (ready : Ready fields formulas)
    (above : ∀ f ∈ formulas, ¬ f.path <+: q)
    (found : (Value.mapping fields).at? q = some (.mapping inner)) :
    ∃ after, (Value.mapping (computeFormulas r formulas fields).1).at? q
      = some (.mapping after) := by
  induction formulas generalizing fields inner with
  | nil => exact ⟨inner, found⟩
  | cons f rest ih =>
    rw [List.forall_mem_cons] at above
    cases computed : f.compute r fields with
    | error e =>
      rw [computeFormulas_error computed]
      exact ih ready.tail above.2 found
    | ok v =>
      rw [computeFormulas_ok computed]
      rcases prefix_or_incomparable f.path q with beyond | ⟨below, hp⟩ | aside
      · exact absurd beyond above.1
      · cases below with
        | nil =>
          rw [List.append_nil] at hp
          exact absurd (hp ▸ List.prefix_rfl) above.1
        | cons segment more =>
          obtain ⟨between, hb⟩ :=
            Value.at?_withAt_prefix (Value.mapping fields) q segment more v
          rw [hp, ← ready.written] at hb
          exact ih (ready.step v) above.2 hb
      · have still : (Value.mapping (insertAt fields f.path v)).at? q = some (.mapping inner) := by
          rw [ready.written, Value.at?_withAt_incomparable ready.admits aside, found]
        exact ih (ready.step v) above.2 still

/-- Computing keeps the way to a place that no formula's place leads to before its end. -/
theorem leads_computeFormulas (ready : Ready fields formulas)
    (h : (Value.mapping fields).Leads p) (first : ∀ f ∈ formulas, f.path <+: p → f.path = p) :
    (Value.mapping (computeFormulas r formulas fields).1).Leads p := by
  intro q on short
  obtain ⟨inner, found⟩ := h q on short
  refine mapping_computeFormulas ready (fun f hf beyond => ?_) found
  rw [first f hf (beyond.trans on)] at beyond
  exact short (on.eq_of_length_le beyond.length_le)

/-- The way to the place of a formula stays. -/
theorem Ready.leads (ready : Ready fields formulas) (hf : f ∈ formulas) :
    (Value.mapping (computeFormulas r formulas fields).1).Leads f.path := by
  have symmetric : Std.Symm fun f g : Formula => f.path.Incomparable g.path :=
    ⟨fun _ _ h => h.symm⟩
  refine leads_computeFormulas ready (ready.ways f hf).2 fun g hg leads => ?_
  by_contra other
  exact (ready.apart.forall hg hf fun same => other (same ▸ rfl)).1 leads

/-- If nothing is reported, the place of each formula holds a value that it has given. -/
theorem exists_computed (ready : Ready fields formulas)
    (sound : (computeFormulas r formulas fields).2 = []) (hf : f ∈ formulas) :
    ∃ seen v, f.compute r seen = .ok v ∧
      (Value.mapping (computeFormulas r formulas fields).1).at? f.path = some v := by
  induction formulas generalizing fields with
  | nil => exact absurd hf List.not_mem_nil
  | cons g rest ih =>
    cases computed : g.compute r fields with
    | error e =>
      rw [computeFormulas_error computed] at sound
      cases sound
    | ok v =>
      rw [computeFormulas_ok computed] at sound ⊢
      rcases List.mem_cons.mp hf with rfl | later
      · refine ⟨fields, v, computed, ?_⟩
        rw [at?_computeFormulas (ready.step v) (List.pairwise_cons.mp ready.apart).1,
          ready.written, Value.at?_withAt_self]
      · exact ih (ready.step v) sound later

/-! ## §4 Computing on completed fields -/

/-- Formulas that are in order give on the completed fields what they gave before. -/
theorem computeFormulas_again (ready : Ready fields formulas)
    (ordered : InOrder r (fun _ => True) formulas) :
    computeFormulas r formulas (computeFormulas r formulas fields).1
      = computeFormulas r formulas fields := by
  induction formulas generalizing fields with
  | nil => rfl
  | cons f rest ih =>
    have same : f.compute r (computeFormulas r (f :: rest) fields).1 = f.compute r fields :=
      Formula.compute_of_agree ordered.1 fun q unseen => at?_computeFormulas ready unseen.2
    cases computed : f.compute r fields with
    | ok v =>
      rw [computed] at same
      rw [computeFormulas_ok same, computeFormulas_ok computed]
      have held : (Value.mapping (computeFormulas r rest (insertAt fields f.path v)).1).at? f.path
          = some v := by
        rw [at?_computeFormulas (ready.step v) (List.pairwise_cons.mp ready.apart).1,
          ready.written, Value.at?_withAt_self]
      have way : (Value.mapping (computeFormulas r rest (insertAt fields f.path v)).1).Leads
          f.path := by
        have := ready.leads (r := r) List.mem_cons_self
        rwa [computeFormulas_ok computed] at this
      have unchanged : insertAt (computeFormulas r rest (insertAt fields f.path v)).1 f.path v
          = (computeFormulas r rest (insertAt fields f.path v)).1 := by
        refine Value.mapping.inj ?_
        rw [mapping_insertAt _ (ready.ways f List.mem_cons_self).1, Value.withAt_of_at? way held]
      rw [unchanged, ih (ready.step v) ordered.2]
    | error e =>
      rw [computed] at same
      have again := ih ready.tail ordered.2
      rw [computeFormulas_error computed] at same ⊢
      rw [computeFormulas_error same, again]

/-- Computing changes and reports nothing exactly if each formula gives what its place holds. -/
theorem computeFormulas_eq_self_iff (ready : Ready fields formulas) :
    computeFormulas r formulas fields = (fields, []) ↔
      ∀ f ∈ formulas, ∃ v, f.compute r fields = .ok v ∧
        (Value.mapping fields).at? f.path = some v := by
  induction formulas with
  | nil => simp [computeFormulas]
  | cons f rest ih =>
    have unchanged : ∀ {v}, (Value.mapping fields).at? f.path = some v →
        insertAt fields f.path v = fields := fun held => by
      refine Value.mapping.inj ?_
      rw [ready.written, Value.withAt_of_at? (ready.ways f List.mem_cons_self).2 held]
    rw [List.forall_mem_cons, ← ih ready.tail]
    constructor
    · intro still
      cases computed : f.compute r fields with
      | error e =>
        rw [computeFormulas_error computed] at still
        cases (Prod.mk.inj still).2
      | ok v =>
        rw [computeFormulas_ok computed] at still
        have held : (Value.mapping fields).at? f.path = some v := by
          have := at?_computeFormulas (r := r) (ready.step v) (List.pairwise_cons.mp ready.apart).1
          rw [still, ready.written, Value.at?_withAt_self] at this
          exact this
        rw [unchanged held] at still
        exact ⟨⟨v, rfl, held⟩, still⟩
    · rintro ⟨⟨v, computed, held⟩, still⟩
      rw [computeFormulas_ok computed, unchanged held, still]

end Tabletop
