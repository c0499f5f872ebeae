/-
Tabletop.Proofs.Model.Parents — the attributes of a model from those of its parents.

Where no model is above itself, what is under way on the walk up is never met
again, so below a parent the walk is the walk that collects the attributes of
that parent alone. Those were laid over the attributes collected before one
model at a time, but laying them over as a whole is the same, down to the
order of the names: a name that is written again keeps its place in both.
Main statement: the attributes of a model are those of its parents, each with
all that it inherits, laid over each other in order, with the model's own on
top (`attributes_from_parents`).

  §1 Models that are not above themselves
  §2 The walk above a parent
  §3 Attributes laid over each other
-/
import Tabletop.Proofs.Model.Ancestry

namespace Tabletop

open Relation

namespace Ancestry

variable {g : Ancestry} {visiting other parents ids more : List String} {id p x : String}

/-! ## §1 Models that are not above themselves -/

/-- No model is above itself. -/
def Acyclic (g : Ancestry) : Prop := ∀ id, ¬ g.Inherits id id

/-- If every parent ranks lower than its child, no model is above itself. -/
theorem acyclic_of_rank (rank : String → Nat)
    (lower : ∀ child parent, g.Extends child parent → rank parent < rank child) : g.Acyclic := by
  have below : ∀ {a b : String}, g.Inherits a b → rank b < rank a := by
    intro a b h
    induction h with
    | single step => exact lower _ _ step
    | tail _ step ih => exact Nat.lt_trans (lower _ _ step) ih
  exact fun id circle => Nat.lt_irrefl _ (below circle)

/-- What is above a parent is not the model. -/
theorem Acyclic.ne_of_reaches (acyclic : g.Acyclic) (child : g.Extends id p)
    (reached : g.Reaches p x) : x ≠ id := by
  rintro rfl
  exact acyclic x (.head' child reached)

/-! ## §2 The walk above a parent -/

/-- The walk goes one way only. -/
theorem Ascends.unique (h : g.Ascends visiting parents ids)
    (h' : g.Ascends visiting parents more) : ids = more := by
  induction h generalizing more with
  | done =>
    cases h'
    rfl
  | skip closed _ ih =>
    cases h' with
    | skip _ onward => exact ih onward
    | enter fresh known =>
      rcases closed with there | unknown
      · exact absurd there fresh
      · rw [unknown] at known
        cases known
  | enter fresh known _ _ ihUp ihOnward =>
    cases h' with
    | skip closed =>
      rcases closed with there | unknown
      · exact absurd there fresh
      · rw [unknown] at known
        cases known
    | enter _ known' up onward =>
      obtain rfl := Option.some.inj (known.symm.trans known')
      rw [ihUp up, ihOnward onward]

/-- Of the models under way only those count that can be reached from the parents. -/
theorem Ascends.change_visiting (h : g.Ascends visiting parents ids)
    (same : ∀ p ∈ parents, (g p).isSome → ∀ x, g.Reaches p x → (x ∈ visiting ↔ x ∈ other)) :
    g.Ascends other parents ids := by
  induction h generalizing other with
  | done => exact .done
  | @skip visiting rest ids p closed _ ih =>
    obtain ⟨here, later⟩ := List.forall_mem_cons.mp same
    refine .skip ?_ (ih later)
    cases known : g p with
    | none => exact Or.inr rfl
    | some own =>
      rw [known] at closed here
      exact Or.inl ((here rfl p .refl).mp (closed.resolve_right nofun))
  | @enter visiting rest parents above later p fresh known _ _ ihUp ihOnward =>
    obtain ⟨here, later⟩ := List.forall_mem_cons.mp same
    have here := here (known ▸ rfl)
    refine .enter (fun there => fresh ((here p .refl).mpr there)) known ?_ (ihOnward later)
    refine ihUp fun q parent isKnown x way => ?_
    rw [List.mem_cons, List.mem_cons, here x (.head ⟨parents, known, parent, isKnown⟩ way)]

/-- Above a parent the walk from the child is the walk from the parent. -/
theorem Ascends.of_child (acyclic : g.Acyclic) (child : g.Extends id p) (known : g p = some parents)
    (h : g.Ascends [p, id] parents ids) : g.Ascends [p] parents ids := by
  refine h.change_visiting fun q parent isKnown x way => ?_
  have up : g.Reaches p x := .head ⟨parents, known, parent, isKnown⟩ way
  simp [acyclic.ne_of_reaches child up]

end Ancestry

namespace Catalog

variable {c : Catalog} {id : String} {m : Model} {ids parents : List String} {mid : Attributes}

/-! ## §3 Attributes laid over each other -/

/-- A walk through the parents of a known model collects its attributes. -/
theorem attributes_of_ascends (known : c.model? id = some m)
    (walk : c.ancestry.Ascends [id] m.parents ids) :
    c.attributes? id = some (c.layered [] (ids ++ [id])) := by
  obtain ⟨others, taken, collected⟩ := attributes_layered known
  rw [collected, taken.unique walk]

theorem attributes_of_unknown (unknown : c.model? id = none) : c.attributes? id = none := by
  rw [attributes?, unknown]
  rfl

/-- What the models lay over the middle can be laid over the base as a whole. -/
theorem override_layered (h : Entries.NodupKeys mid) (base : Attributes) (ids : List String) :
    Entries.override base (c.layered mid ids) = c.layered (Entries.override base mid) ids := by
  induction ids generalizing mid with
  | nil => rfl
  | cons id ids ih => rw [layered_cons, layered_cons, ih (h.override _), h.override_override]

/-- A walk through some parents of a model lays the attributes of each over the others. -/
theorem layered_of_ascends (acyclic : c.ancestry.Acyclic) (known : c.model? id = some m)
    (among : ∀ p ∈ parents, p ∈ m.parents) (walk : c.ancestry.Ascends [id] parents ids)
    (merged : Attributes) : c.layered merged ids
      = (parents.filterMap c.attributes?).foldl Entries.override merged := by
  have child : ∀ p ∈ parents, (c.ancestry p).isSome → c.ancestry.Extends id p :=
    fun p there isKnown => ⟨m.parents, ancestry_of_known known, among p there, isKnown⟩
  induction parents generalizing ids merged with
  | nil =>
    cases walk
    rfl
  | cons p rest ih =>
    obtain ⟨_, among⟩ := List.forall_mem_cons.mp among
    obtain ⟨here, child⟩ := List.forall_mem_cons.mp child
    cases walk with
    | skip closed onward =>
      have unknown : c.model? p = none := by
        cases found : c.model? p with
        | none => rfl
        | some own =>
          have isKnown := ancestry_of_known found
          rcases closed with there | unknown
          · obtain rfl := List.mem_singleton.mp there
            exact absurd (.single (here (isKnown ▸ rfl))) (acyclic p)
          · rw [isKnown] at unknown
            cases unknown
      rw [List.filterMap_cons_none (attributes_of_unknown unknown), ih among onward _ child]
    | @enter _ _ grandparents above later _ fresh isKnown up onward =>
      obtain ⟨own, found, rfl⟩ := Option.map_eq_some_iff.mp isKnown
      have up := up.of_child acyclic (here (isKnown ▸ rfl)) isKnown
      have collected := attributes_of_ascends found up
      rw [List.filterMap_cons_some collected, List.foldl_cons,
        override_layered Entries.nodupKeys_nil, ← ih among onward _ child, ← layered_append,
        List.append_assoc, List.singleton_append]
      rfl

/-- Where no model is above itself, the attributes of a model are those of its known parents, laid
over each other in the order in which it names them, with its own on top. -/
theorem attributes_from_parents (acyclic : c.ancestry.Acyclic) (known : c.model? id = some m) :
    c.attributes? id = some
      (Entries.override ((m.parents.filterMap c.attributes?).foldl Entries.override [])
        m.attributes) := by
  obtain ⟨ids, walk, collected⟩ := attributes_layered known
  rw [collected, layered_append, layered_of_ascends acyclic known (fun _ there => there) walk,
    layered_cons, own_of_known known]
  rfl

/-- If in the list of models every known parent ranks lower, no model is above itself. -/
theorem acyclic_of_models (rank : String → Nat)
    (lower : ∀ e ∈ c.models, ∀ p ∈ e.2.parents, rank p < rank e.1) : c.ancestry.Acyclic := by
  refine Ancestry.acyclic_of_rank rank ?_
  rintro child parent ⟨parents, isKnown, named, _⟩
  obtain ⟨m, known, rfl⟩ := Option.map_eq_some_iff.mp isKnown
  exact lower _ (Entries.mem_of_get? known) parent named

/-- Birds and beasts are creatures, and a griffin is both. -/
def menagerie : Catalog where
  models := [
    ("griffin", {
      id := "griffin"
      parents := ["bird", "beast"]
      attributes := [("wings", .leaf { typeName := "int" })] }),
    ("bird", {
      id := "bird"
      parents := ["creature"]
      attributes := [("speed", .leaf { typeName := "float" }), ("wings", .group [])] }),
    ("beast", {
      id := "beast"
      parents := ["creature"]
      attributes := [("legs", .leaf { typeName := "int" })] }),
    ("creature", {
      id := "creature"
      attributes := [
        ("name", .leaf { typeName := "str" }), ("speed", .leaf { typeName := "int" })] })]

theorem menagerie_acyclic : menagerie.ancestry.Acyclic :=
  acyclic_of_models (fun id => if id = "griffin" then 2 else if id = "creature" then 0 else 1)
    (by decide +kernel)

/-- The names that birds and beasts share come first, and `wings` keeps its place. -/
theorem menagerie_griffin :
    ∃ m, menagerie.ancestry.Acyclic ∧ menagerie.model? "griffin" = some m ∧
      menagerie.attributes? "griffin" = some
        (Entries.override
          ((["bird", "beast"].filterMap menagerie.attributes?).foldl Entries.override [])
          m.attributes) ∧
      (menagerie.attributes? "griffin").map Entries.keys
        = some ["name", "speed", "wings", "legs"] := by
  have known : menagerie.model? "griffin" = some _ := rfl
  have collected := attributes_from_parents menagerie_acyclic known
  exact ⟨_, menagerie_acyclic, known, collected, by decide +kernel⟩

end Catalog

end Tabletop
