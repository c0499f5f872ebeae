/-
Tabletop.Proofs.Model.Tree — the places of an attribute tree.

A tree is a list of named nodes, and groups hold such lists in turn, so what
holds of all trees is shown by one induction over lists of nodes with a case
for an attribute and a case for a group in front (`Attributes.forest`). Every
node has a path. Where names are distinct in each group the place of an
attribute does not lead on to any other node, so the places that formulas
compute do not touch each other.

  §1 Induction on trees
  §2 Places
  §3 Distinct names
  §4 The places of formulas
-/
import Tabletop.Proofs.Model.Named
import Tabletop.Proofs.Value.Place

namespace Tabletop

open Tabletop.Path

/-! ## §1 Induction on trees -/

/-- What holds of no nodes, and is passed on to nodes with an attribute or a group in front of
others, holds of every tree. -/
@[elab_as_elim]
theorem Attributes.forest {motive : List (String × Attribute) → Prop} (nil : motive [])
    (leaf : ∀ name d rest, motive rest → motive ((name, .leaf d) :: rest))
    (group : ∀ name children rest, motive children → motive rest →
      motive ((name, .group children) :: rest)) :
    (attributes : List (String × Attribute)) → motive attributes
  | [] => nil
  | (name, .leaf d) :: rest => leaf name d rest (forest nil leaf group rest)
  | (name, .group children) :: rest =>
      group name children rest (forest nil leaf group children) (forest nil leaf group rest)

/-! ## §2 Places -/

mutual

/-- The nodes inside a node with their paths from there. -/
def Attribute.placesInside : Attribute → List (Path × Attribute)
  | .leaf _ => []
  | .group children => places children

/-- The nodes of a tree with their paths: each node, then what is inside it. -/
def places : List (String × Attribute) → List (Path × Attribute)
  | [] => []
  | (name, node) :: rest =>
      ([name], node) :: node.placesInside.map (fun e => (name :: e.1, e.2)) ++ places rest

end

variable {attributes rest : List (String × Attribute)} {name : String} {d : AttributeDefinition}
  {node other : Attribute} {p q parent : Path}

theorem not_mem_places_nil : (p, node) ∉ places [] := by
  rw [places]
  exact List.not_mem_nil

/-- A place of a tree is the one in front, is inside that, or is among the others. -/
theorem mem_places_cons : (p, other) ∈ places ((name, node) :: rest) ↔
    (p = [name] ∧ other = node) ∨ (∃ q, p = name :: q ∧ (q, other) ∈ node.placesInside) ∨
      (p, other) ∈ places rest := by
  rw [places, List.cons_append, List.mem_cons, List.mem_append, List.mem_map, Prod.mk.injEq]
  constructor
  · rintro (here | ⟨⟨q, found⟩, inside, same⟩ | later)
    · exact Or.inl here
    · cases same
      exact Or.inr (Or.inl ⟨q, rfl, inside⟩)
    · exact Or.inr (Or.inr later)
  · rintro (here | ⟨q, rfl, inside⟩ | later)
    · exact Or.inl here
    · exact Or.inr (Or.inl ⟨(q, other), inside, rfl⟩)
    · exact Or.inr (Or.inr later)

/-- A place behind an attribute in front is that attribute or among the others. -/
theorem mem_places_leaf : (p, other) ∈ places ((name, .leaf d) :: rest) ↔
    (p = [name] ∧ other = .leaf d) ∨ (p, other) ∈ places rest := by
  rw [mem_places_cons, Attribute.placesInside]
  simp

/-- A place behind a group in front is the group, is inside it, or is among the others. -/
theorem mem_places_group {children : List (String × Attribute)} :
    (p, other) ∈ places ((name, .group children) :: rest) ↔
      (p = [name] ∧ other = .group children) ∨ (∃ q, p = name :: q ∧ (q, other) ∈ places children) ∨
        (p, other) ∈ places rest := by
  rw [mem_places_cons, Attribute.placesInside]

/-- A place starts with the name of a node. -/
theorem exists_head (h : (p, node) ∈ places attributes) :
    ∃ name ∈ Entries.keys attributes, ∃ q, p = name :: q := by
  induction attributes with
  | nil => exact absurd h not_mem_places_nil
  | cons entry rest ih =>
    obtain ⟨name, first⟩ := entry
    rcases mem_places_cons.mp h with ⟨rfl, _⟩ | ⟨q, rfl, _⟩ | later
    · exact ⟨name, List.mem_cons_self, [], rfl⟩
    · exact ⟨name, List.mem_cons_self, q, rfl⟩
    · obtain ⟨other, there, q, rfl⟩ := ih later
      exact ⟨other, List.mem_cons_of_mem _ there, q, rfl⟩

theorem ne_nil_of_mem_places (h : (p, node) ∈ places attributes) : p ≠ [] := by
  obtain ⟨_, _, _, rfl⟩ := exists_head h
  exact List.cons_ne_nil _ _

/-- The places on the way to a node are groups. -/
theorem group_of_way (h : (p, node) ∈ places attributes) (on : q <+: p) (short : q ≠ p)
    (inside : q ≠ []) : ∃ children, (q, .group children) ∈ places attributes := by
  obtain ⟨name, below, rfl⟩ := List.exists_cons_of_ne_nil inside
  induction attributes using Attributes.forest generalizing p name below with
  | nil => exact absurd h not_mem_places_nil
  | leaf first d rest ih =>
    rcases mem_places_leaf.mp h with ⟨rfl, _⟩ | later
    · obtain ⟨rfl, nothing⟩ := List.cons_prefix_cons.mp on
      rw [List.prefix_nil.mp nothing] at short
      exact absurd rfl short
    · obtain ⟨children, group⟩ := ih later name below on short inside
      exact ⟨children, mem_places_leaf.mpr (Or.inr group)⟩
  | group first children rest ihc ih =>
    rcases mem_places_group.mp h with ⟨rfl, _⟩ | ⟨p, rfl, within⟩ | later
    · obtain ⟨rfl, nothing⟩ := List.cons_prefix_cons.mp on
      rw [List.prefix_nil.mp nothing] at short
      exact absurd rfl short
    · obtain ⟨rfl, onward⟩ := List.cons_prefix_cons.mp on
      cases below with
      | nil => exact ⟨children, mem_places_group.mpr (Or.inl ⟨rfl, rfl⟩)⟩
      | cons next more =>
        obtain ⟨own, group⟩ := ihc within next more onward (fun same => short (same ▸ rfl))
          (List.cons_ne_nil _ _)
        exact ⟨own, mem_places_group.mpr (Or.inr (Or.inl ⟨_, rfl, group⟩))⟩
    · obtain ⟨own, group⟩ := ih later name below on short inside
      exact ⟨own, mem_places_group.mpr (Or.inr (Or.inr group))⟩

/-! ## §3 Distinct names -/

mutual

/-- The names are distinct in every group of the node. -/
def Attribute.Distinct : Attribute → Prop
  | .leaf _ => True
  | .group children => DistinctNames children

/-- The names are distinct, and so they are in every group. -/
def DistinctNames : List (String × Attribute) → Prop
  | [] => True
  | (name, node) :: rest => name ∉ Entries.keys rest ∧ node.Distinct ∧ DistinctNames rest

end

theorem distinctNames_leaf : DistinctNames ((name, .leaf d) :: rest) ↔
    name ∉ Entries.keys rest ∧ DistinctNames rest := by
  rw [DistinctNames, Attribute.Distinct]
  simp

theorem distinctNames_group {children : List (String × Attribute)} :
    DistinctNames ((name, .group children) :: rest) ↔
      name ∉ Entries.keys rest ∧ DistinctNames children ∧ DistinctNames rest := by
  rw [DistinctNames, Attribute.Distinct]

/-- Writing a node keeps names distinct. -/
theorem DistinctNames.insert (h : DistinctNames attributes) (name : String)
    (hn : node.Distinct) : DistinctNames (Entries.insert attributes name node) := by
  induction attributes with
  | nil =>
    rw [Entries.insert, DistinctNames, DistinctNames]
    exact ⟨List.not_mem_nil, hn, trivial⟩
  | cons entry rest ih =>
    obtain ⟨first, top⟩ := entry
    rw [DistinctNames] at h
    obtain ⟨fresh, own, distinct⟩ := h
    unfold Entries.insert
    by_cases same : first = name
    · rw [if_pos same, DistinctNames]
      exact ⟨fresh, hn, distinct⟩
    · rw [if_neg same, DistinctNames]
      refine ⟨fun there => ?_, own, ih distinct⟩
      rcases Entries.mem_keys_insert.mp there with new | there
      · exact same new
      · exact fresh there

/-- Laying nodes over others keeps names distinct. -/
theorem DistinctNames.override {top base : List (String × Attribute)} (h : DistinctNames base)
    (ht : DistinctNames top) : DistinctNames (Entries.override base top) := by
  induction top generalizing base with
  | nil => exact h
  | cons entry rest ih =>
    rw [DistinctNames] at ht
    exact ih (h.insert entry.1 ht.2.1) ht.2.2

/-- A place among others starts with another name. -/
theorem head_ne (fresh : name ∉ Entries.keys rest) (h : (p, node) ∈ places rest) :
    ∃ first q, p = first :: q ∧ name ≠ first := by
  obtain ⟨first, there, q, rfl⟩ := exists_head h
  exact ⟨first, q, rfl, fun same => fresh (same ▸ there)⟩

/-- The place of an attribute leads to no other node. -/
theorem eq_of_leaf_leads (distinct : DistinctNames attributes)
    (hp : (p, .leaf d) ∈ places attributes) (hq : (q, node) ∈ places attributes) (h : p <+: q) :
    q = p ∧ node = .leaf d := by
  induction attributes using Attributes.forest generalizing p q with
  | nil => exact absurd hp not_mem_places_nil
  | leaf name own rest ih =>
    obtain ⟨fresh, distinct⟩ := distinctNames_leaf.mp distinct
    rcases mem_places_leaf.mp hp with ⟨rfl, same⟩ | hp <;>
      rcases mem_places_leaf.mp hq with ⟨rfl, rfl⟩ | hq
    · exact ⟨rfl, same.symm⟩
    · obtain ⟨first, _, rfl, other⟩ := head_ne fresh hq
      exact absurd (List.cons_prefix_cons.mp h).1 other
    · obtain ⟨first, _, rfl, other⟩ := head_ne fresh hp
      exact absurd (List.cons_prefix_cons.mp h).1.symm other
    · exact ih distinct hp hq h
  | group name children rest ihc ih =>
    obtain ⟨fresh, inner, distinct⟩ := distinctNames_group.mp distinct
    rcases mem_places_group.mp hp with ⟨_, same⟩ | ⟨below, rfl, inside⟩ | hp
    · cases same
    · rcases mem_places_group.mp hq with ⟨rfl, _⟩ | ⟨other, rfl, within⟩ | hq
      · have none_left := List.prefix_nil.mp (List.cons_prefix_cons.mp h).2
        exact absurd none_left (ne_nil_of_mem_places inside)
      · obtain ⟨rfl, same⟩ := ihc inner inside within (List.cons_prefix_cons.mp h).2
        exact ⟨rfl, same⟩
      · obtain ⟨first, _, rfl, other⟩ := head_ne fresh hq
        exact absurd (List.cons_prefix_cons.mp h).1 other
    · obtain ⟨first, _, rfl, other⟩ := head_ne fresh hp
      rcases mem_places_group.mp hq with ⟨rfl, _⟩ | ⟨_, rfl, _⟩ | hq
      · exact absurd (List.cons_prefix_cons.mp h).1.symm other
      · exact absurd (List.cons_prefix_cons.mp h).1.symm other
      · exact ih distinct hp hq h

/-! ## §4 The places of formulas -/

/-- The formulas of a tree are those of its attributes. -/
theorem mem_groupFormulas {f : Formula} : f ∈ groupFormulas parent attributes ↔
    ∃ p d template, (p, .leaf d) ∈ places attributes ∧ d.derived = some template ∧
      f = ⟨parent ++ p, template, d.typeName⟩ := by
  induction attributes using Attributes.forest generalizing parent with
  | nil =>
    rw [groupFormulas]
    simp [not_mem_places_nil]
  | leaf name d rest ih =>
    rw [groupFormulas, List.mem_append, ih, Attribute.formulas]
    constructor
    · rintro (here | ⟨p, own, template, there, computed, rfl⟩)
      · cases computed : d.derived with
        | none =>
          rw [computed] at here
          exact absurd here List.not_mem_nil
        | some template =>
          rw [computed] at here
          exact ⟨[name], d, template, mem_places_leaf.mpr (Or.inl ⟨rfl, rfl⟩), computed,
            List.mem_singleton.mp here⟩
      · exact ⟨p, own, template, mem_places_leaf.mpr (Or.inr there), computed, rfl⟩
    · rintro ⟨p, own, template, there, computed, rfl⟩
      rcases mem_places_leaf.mp there with ⟨rfl, same⟩ | later
      · cases same
        rw [computed]
        exact Or.inl (List.mem_singleton.mpr rfl)
      · exact Or.inr ⟨p, own, template, later, computed, rfl⟩
  | group name children rest ihc ih =>
    rw [groupFormulas, List.mem_append, ih, Attribute.formulas, ihc]
    constructor
    · rintro (⟨p, own, template, there, computed, rfl⟩ | ⟨p, own, template, there, computed, rfl⟩)
      · exact ⟨name :: p, own, template,
          mem_places_group.mpr (Or.inr (Or.inl ⟨p, rfl, there⟩)), computed, by
            rw [List.append_assoc, List.singleton_append]⟩
      · exact ⟨p, own, template, mem_places_group.mpr (Or.inr (Or.inr there)), computed, rfl⟩
    · rintro ⟨p, own, template, there, computed, rfl⟩
      rcases mem_places_group.mp there with ⟨_, same⟩ | ⟨p, rfl, inside⟩ | later
      · cases same
      · exact Or.inl ⟨p, own, template, inside, computed, by
          rw [List.append_assoc, List.singleton_append]⟩
      · exact Or.inr ⟨p, own, template, later, computed, rfl⟩

/-- The attribute that a formula of a whole tree computes. -/
theorem place_of_formula {f : Formula} (h : f ∈ groupFormulas [] attributes) :
    ∃ d, (f.path, .leaf d) ∈ places attributes ∧ d.derived = some f.template
      ∧ d.typeName = f.typeName := by
  obtain ⟨p, d, template, there, computed, rfl⟩ := mem_groupFormulas.mp h
  exact ⟨d, there, computed, rfl⟩

/-- The places of formulas do not touch each other. -/
theorem pairwise_groupFormulas (distinct : DistinctNames attributes) :
    (groupFormulas parent attributes).Pairwise fun f g => f.path.Incomparable g.path := by
  have apart : ∀ {name first : String} (p q : Path), name ≠ first →
      Incomparable (parent ++ name :: p) (parent ++ first :: q) := by
    intro name first p q other
    rw [incomparable_append_left, incomparable_cons]
    exact fun same => absurd same other
  induction attributes using Attributes.forest generalizing parent with
  | nil =>
    rw [groupFormulas]
    exact List.Pairwise.nil
  | leaf name d rest ih =>
    obtain ⟨fresh, distinct⟩ := distinctNames_leaf.mp distinct
    rw [groupFormulas, List.pairwise_append]
    refine ⟨?_, ih distinct apart, ?_⟩
    · rw [Attribute.formulas]
      split
      · exact List.pairwise_singleton _ _
      · exact List.Pairwise.nil
    · intro f hf g hg
      obtain ⟨p, hp⟩ := path_of_mem_formulas parent name _ f hf
      obtain ⟨first, there, q, hq⟩ := path_of_mem_groupFormulas parent rest g hg
      rw [hp, hq]
      exact apart p q fun same => fresh (same ▸ there)
  | group name children rest ihc ih =>
    obtain ⟨fresh, inner, distinct⟩ := distinctNames_group.mp distinct
    rw [groupFormulas, List.pairwise_append]
    refine ⟨?_, ih distinct apart, ?_⟩
    · rw [Attribute.formulas]
      refine ihc inner fun p q other => ?_
      rw [incomparable_append_left, incomparable_cons]
      exact fun same => absurd same other
    · intro f hf g hg
      obtain ⟨p, hp⟩ := path_of_mem_formulas parent name _ f hf
      obtain ⟨first, there, q, hq⟩ := path_of_mem_groupFormulas parent rest g hg
      rw [hp, hq]
      exact apart p q fun same => fresh (same ▸ there)

/-- A formula's place does not touch that of an attribute without a formula. -/
theorem incomparable_formula (distinct : DistinctNames attributes)
    (hp : (p, .leaf d) ∈ places attributes) (plain : d.derived = none) {f : Formula}
    (hf : f ∈ groupFormulas [] attributes) : Incomparable p f.path := by
  obtain ⟨own, there, computed, _⟩ := place_of_formula hf
  constructor
  · intro leads
    obtain ⟨_, same⟩ := eq_of_leaf_leads distinct hp there leads
    cases same
    rw [plain] at computed
    cases computed
  · intro leads
    obtain ⟨_, same⟩ := eq_of_leaf_leads distinct there hp leads
    cases same
    rw [plain] at computed
    cases computed

end Tabletop
