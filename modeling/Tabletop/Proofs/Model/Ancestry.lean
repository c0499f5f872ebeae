/-
Tabletop.Proofs.Model.Ancestry — the models above a model, in any catalog.

Models name their parents, and nothing keeps them from naming each other in
circles, a parent twice, or one that is not there. The attributes of a model
are collected by a walk that goes up from each parent in turn and passes over
what is under way and what is unknown. `Ancestry.Ascends` is that walk without
a bound on how deep it goes; a bound is never needed, since the models that
are under way differ from each other.

The walk keeps no list of the models it has been to: what it has left it may
enter again, and what is under way hides nothing. A way up that comes back to
where the walk stands can be cut short there, so every model that can be
reached at all is reached by a way that the walk takes (`Climbs.split`).
Main statement: the walk ends, and the attributes collected are exactly those
that the model and the models above it define (`attributes_of_reached`).

  §1 Parents
  §2 The walk
  §3 The models that the walk applies
  §4 The attributes collected
-/
import Tabletop.Model.Inheritance
import Tabletop.Proofs.Entries
import Mathlib.Logic.Relation

namespace Tabletop

open Relation

/-! ## §1 Parents -/

/-- The parents that each known model names. -/
abbrev Ancestry := String → Option (List String)

namespace Ancestry

variable {g : Ancestry} {visiting parents ids : List String} {p q x y : String}

/-- A known model names another known model among its parents. -/
def Extends (g : Ancestry) (child parent : String) : Prop :=
  ∃ parents, g child = some parents ∧ parent ∈ parents ∧ (g parent).isSome

/-- The second model is the first one or is above it. -/
def Reaches (g : Ancestry) : String → String → Prop := ReflTransGen g.Extends

/-- The second model is above the first one: a parent, or above a parent. -/
def Inherits (g : Ancestry) : String → String → Prop := TransGen g.Extends

/-! ## §2 The walk -/

/-- The walk through `parents`, with the models in `visiting` under way, applies the models `ids`
in this order. -/
inductive Ascends (g : Ancestry) : (visiting parents ids : List String) → Prop
  | done {visiting : List String} : Ascends g visiting [] []
  | skip {visiting rest ids : List String} {p : String} (closed : p ∈ visiting ∨ g p = none)
      (onward : Ascends g visiting rest ids) : Ascends g visiting (p :: rest) ids
  | enter {visiting rest parents above later : List String} {p : String} (fresh : p ∉ visiting)
      (known : g p = some parents) (up : Ascends g (p :: visiting) parents above)
      (onward : Ascends g visiting rest later) :
      Ascends g visiting (p :: rest) (above ++ p :: later)

/-! ## §3 The models that the walk applies -/

/-- The second model can be reached from the first one by a way that leads through none of the
models in `visiting`. -/
inductive Climbs (g : Ancestry) (visiting : List String) (p : String) : String → Prop
  | here (fresh : p ∉ visiting) (known : (g p).isSome) : Climbs g visiting p p
  | up {x y : String} (way : Climbs g visiting p x) (next : g.Extends x y) (fresh : y ∉ visiting) :
      Climbs g visiting p y

theorem Climbs.open_start (h : g.Climbs visiting p x) : p ∉ visiting ∧ (g p).isSome := by
  induction h with
  | here fresh known => exact ⟨fresh, known⟩
  | up _ _ _ ih => exact ih

/-- A way that also keeps away from its own child model goes on from there. -/
theorem Climbs.from_child (h : g.Climbs (p :: visiting) q x) (fresh : p ∉ visiting)
    (child : g.Extends p q) : g.Climbs visiting p x := by
  obtain ⟨parents, known, _⟩ := id child
  induction h with
  | here away =>
    exact .up (.here fresh (known ▸ rfl)) child fun there => away (List.mem_cons_of_mem _ there)
  | up _ next away ih => exact .up ih next fun there => away (List.mem_cons_of_mem _ there)

/-- A way up from `p` ends at `p`, or from where it leaves `p` for the last time it leads on through
a parent and never back. -/
theorem Climbs.split (h : g.Climbs visiting p x) (known : g p = some parents) :
    x = p ∨ ∃ q ∈ parents, g.Climbs (p :: visiting) q x := by
  induction h with
  | here => exact Or.inl rfl
  | @up x y _ next fresh ih =>
    by_cases back : y = p
    · exact Or.inl back
    have away : y ∉ p :: visiting := by
      rintro (_ | ⟨_, there⟩)
      · exact back rfl
      · exact fresh there
    rcases ih with rfl | ⟨q, parent, way⟩
    · obtain ⟨own, found, named, isKnown⟩ := next
      obtain rfl : own = parents := Option.some.inj (found.symm.trans known)
      exact Or.inr ⟨y, named, .here away isKnown⟩
    · exact Or.inr ⟨q, parent, .up way next away⟩

theorem climbs_iff (fresh : p ∉ visiting) (known : g p = some parents) :
    g.Climbs visiting p x ↔ x = p ∨ ∃ q ∈ parents, g.Climbs (p :: visiting) q x := by
  refine ⟨fun h => h.split known, ?_⟩
  rintro (rfl | ⟨q, parent, way⟩)
  · exact .here fresh (known ▸ rfl)
  · exact way.from_child fresh ⟨parents, known, parent, way.open_start.2⟩

/-- With nothing under way every way is open. -/
theorem climbs_nil_iff (known : (g p).isSome) : g.Climbs [] p x ↔ g.Reaches p x := by
  constructor
  · intro h
    induction h with
    | here => exact .refl
    | up _ next _ ih => exact ih.tail next
  · intro h
    induction h with
    | refl => exact .here List.not_mem_nil known
    | tail _ next ih => exact .up ih next List.not_mem_nil

/-- The walk applies the models to which a way leads from a parent, past those under way. -/
theorem Ascends.mem_iff (h : g.Ascends visiting parents ids) :
    x ∈ ids ↔ ∃ p ∈ parents, g.Climbs visiting p x := by
  induction h with
  | done => simp
  | @skip visiting rest ids p closed _ ih =>
    have shut : ¬ g.Climbs visiting p x := by
      intro way
      obtain ⟨fresh, known⟩ := way.open_start
      rcases closed with there | unknown
      · exact fresh there
      · rw [unknown] at known
        cases known
    simp [ih, shut]
  | enter fresh known _ _ up onward =>
    rw [List.mem_append, List.mem_cons, up, onward, List.exists_mem_cons_iff,
      climbs_iff fresh known, or_left_comm, or_assoc]

/-- From a known model the walk through its parents applies what can be reached from it. -/
theorem Ascends.mem_lineage_iff (known : g p = some parents) (h : g.Ascends [p] parents ids) :
    x ∈ ids ++ [p] ↔ g.Reaches p x := by
  rw [← climbs_nil_iff (known ▸ rfl), climbs_iff List.not_mem_nil known, List.mem_append,
    List.mem_singleton, h.mem_iff, or_comm]

end Ancestry

/-! ## §4 The attributes collected -/

namespace Catalog

variable {c : Catalog} {id name : String} {m : Model} {ids visiting parents : List String}
  {merged : Attributes} {levels : Nat} {enterable : Entries Model}

/-- The parents of the models of a catalog. -/
def ancestry (c : Catalog) : Ancestry := fun id => (c.model? id).map Model.parents

/-- The attributes that a model defines itself. -/
def own (c : Catalog) (id : String) : Attributes := ((c.model? id).map Model.attributes).getD []

/-- The attributes with those that the models define themselves laid over them, one model after the
other. -/
def layered (c : Catalog) (merged : Attributes) (ids : List String) : Attributes :=
  ids.foldl (fun merged id => Entries.override merged (c.own id)) merged

theorem own_of_known (known : c.model? id = some m) : c.own id = m.attributes := by
  rw [own, known]
  rfl

theorem ancestry_of_known (known : c.model? id = some m) : c.ancestry id = some m.parents := by
  rw [ancestry, known]
  rfl

theorem layered_append (merged : Attributes) (few more : List String) :
    c.layered merged (few ++ more) = c.layered (c.layered merged few) more :=
  List.foldl_append

theorem layered_cons (merged : Attributes) (id : String) (ids : List String) :
    c.layered merged (id :: ids) = c.layered (Entries.override merged (c.own id)) ids := rfl

theorem nodupKeys_layered (h : Entries.NodupKeys merged) (ids : List String) :
    Entries.NodupKeys (c.layered merged ids) := by
  induction ids generalizing merged with
  | nil => exact h
  | cons id ids ih => exact ih (h.override _)

theorem mem_keys_layered : name ∈ Entries.keys (c.layered merged ids) ↔
    name ∈ Entries.keys merged ∨ ∃ id ∈ ids, name ∈ Entries.keys (c.own id) := by
  induction ids generalizing merged with
  | nil => simp [layered]
  | cons id ids ih =>
    rw [layered_cons, ih, Entries.mem_keys_override, List.exists_mem_cons_iff, or_assoc]

/-- The first parent comes first, with what is above it. -/
theorem inherited_cons (enough : enterable.length ≤ levels) (p : String) (rest : List String)
    (merged : Attributes) :
    inherited levels enterable (p :: rest) merged
      = inherited levels enterable rest (match Entries.get? enterable p with
        | none => merged
        | some m => Entries.override
            (inherited levels (Entries.erase enterable p) m.parents merged) m.attributes) := by
  rw [← inherited_levels enough, ← inherited_levels enough]
  rfl

theorem inherited_nil (merged : Attributes) : inherited levels enterable [] merged = merged := by
  cases levels <;> rfl

/-- The walk ends, and the attributes that are collected on it are those of the models it applies.
The models that may still be entered are those that are not under way. -/
theorem exists_ascends (still : ∀ p, Entries.get? enterable p
      = if p ∈ visiting then none else c.model? p) (enough : enterable.length ≤ levels)
    (parents : List String) :
    ∃ ids, c.ancestry.Ascends visiting parents ids ∧
      ∀ merged, inherited levels enterable parents merged = c.layered merged ids := by
  -- the outer induction is on the models that may be entered, the inner one on the parents left
  induction count : enterable.length using Nat.strongRecOn
    generalizing enterable visiting parents with
  | _ n deeper =>
  induction parents with
  | nil => exact ⟨[], .done, inherited_nil⟩
  | cons p rest ih =>
    obtain ⟨later, onward, collected⟩ := ih
    have here := still p
    cases found : Entries.get? enterable p with
    | none =>
      have closed : p ∈ visiting ∨ c.ancestry p = none := by
        by_cases there : p ∈ visiting
        · exact Or.inl there
        · rw [found, if_neg there] at here
          exact Or.inr (by rw [ancestry, ← here]; rfl)
      refine ⟨later, .skip closed onward, fun merged => ?_⟩
      rw [inherited_cons enough, found, collected]
    | some m =>
      have fresh : p ∉ visiting := by
        intro there
        rw [found, if_pos there] at here
        cases here
      have known : c.model? p = some m := by rw [← found, here, if_neg fresh]
      have fewer := Entries.length_erase_lt found
      have apart : ∀ q, Entries.get? (Entries.erase enterable p) q
          = if q ∈ p :: visiting then none else c.model? q := by
        intro q
        rw [Entries.get?_erase, still]
        by_cases same : p = q
        · simp [same]
        · simp [same, Ne.symm same]
      obtain ⟨above, up, climbed⟩ :=
        deeper _ (count ▸ fewer) apart (Nat.le_of_lt (Nat.lt_of_lt_of_le fewer enough)) m.parents
          rfl
      refine ⟨_, .enter fresh (ancestry_of_known known) up onward, fun merged => ?_⟩
      rw [inherited_cons enough, found]
      dsimp only
      rw [collected, climbed, layered_append, layered_cons, own_of_known known]

/-- The attributes of a known model are those of the models above it, in the order of the walk, with
its own on top. -/
theorem attributes_layered (known : c.model? id = some m) :
    ∃ ids, c.ancestry.Ascends [id] m.parents ids ∧
      c.attributes? id = some (c.layered [] (ids ++ [id])) := by
  have still : ∀ p, Entries.get? (Entries.erase c.models id) p
      = if p ∈ [id] then none else c.model? p := by
    intro p
    rw [Entries.get?_erase]
    simp only [List.mem_singleton, eq_comm, model?]
  obtain ⟨ids, walk, collected⟩ := exists_ascends still (Nat.le_refl _) m.parents
  refine ⟨ids, walk, ?_⟩
  rw [attributes?, known, layered_append, layered_cons, own_of_known known, ← collected]
  rfl

/-- Every name is collected once. -/
theorem nodupKeys_of_collected {attributes : Attributes}
    (h : c.attributes? id = some attributes) : Entries.NodupKeys attributes := by
  obtain ⟨m, known, -⟩ := Option.map_eq_some_iff.mp h
  obtain ⟨ids, -, collected⟩ := attributes_layered known
  obtain rfl := Option.some.inj (h.symm.trans collected)
  exact nodupKeys_layered Entries.nodupKeys_nil _

/-- The names collected are those that some model defines that can be reached. -/
theorem mem_keys_collected (known : c.model? id = some m)
    (walk : c.ancestry.Ascends [id] m.parents ids) :
    name ∈ Entries.keys (c.layered [] (ids ++ [id])) ↔
      ∃ other, c.ancestry.Reaches id other ∧ name ∈ Entries.keys (c.own other) := by
  rw [mem_keys_layered]
  simp only [walk.mem_lineage_iff (ancestry_of_known known)]
  exact or_iff_right List.not_mem_nil

theorem mem_keys_own : name ∈ Entries.keys (c.own id) ↔
    ∃ m, c.model? id = some m ∧ name ∈ Entries.keys m.attributes := by
  cases known : c.model? id with
  | none => simp [own, known, Entries.keys]
  | some m => simp [own_of_known known]

/-- Whatever the models name as their parents, the walk up from a known model ends, and the names of
the attributes it has collected are, each once, those that the model or a model above it defines. -/
theorem attributes_of_reached (c : Catalog) {id : String} {m : Model}
    (known : c.model? id = some m) :
    ∃ ids attributes, c.ancestry.Ascends [id] m.parents ids ∧
      c.attributes? id = some attributes ∧ attributes = c.layered [] (ids ++ [id]) ∧
      Entries.NodupKeys attributes ∧
      ∀ name, name ∈ Entries.keys attributes ↔
        ∃ other own, c.ancestry.Reaches id other ∧ c.model? other = some own ∧
          name ∈ Entries.keys own.attributes := by
  obtain ⟨ids, walk, collected⟩ := attributes_layered known
  refine ⟨ids, _, walk, collected, rfl, nodupKeys_of_collected collected, fun name => ?_⟩
  rw [mem_keys_collected known walk]
  constructor
  · rintro ⟨other, reached, defined⟩
    obtain ⟨own, found, defined⟩ := mem_keys_own.mp defined
    exact ⟨other, own, reached, found, defined⟩
  · rintro ⟨other, own, reached, found, defined⟩
    exact ⟨other, reached, mem_keys_own.mpr ⟨own, found, defined⟩⟩

/-- A dragon names itself, a parent twice and one that is not there; birds and creatures name each
other. -/
def bestiary : Catalog where
  models := [
    ("dragon", {
      id := "dragon"
      parents := ["bird", "dragon", "ghost", "lizard", "bird"]
      attributes := [("breath", .leaf { typeName := "str" })] }),
    ("lizard", {
      id := "lizard"
      parents := ["creature"]
      attributes := [("scales", .leaf { typeName := "bool" })] }),
    ("bird", {
      id := "bird"
      parents := ["creature"]
      attributes := [("speed", .leaf { typeName := "int" })] }),
    ("creature", {
      id := "creature"
      parents := ["bird"]
      attributes := [("name", .leaf { typeName := "str" })] })]

/-- What a dragon has comes from the models that can be reached from it. -/
theorem bestiary_dragon :
    ∃ m attributes, bestiary.model? "dragon" = some m ∧
      bestiary.attributes? "dragon" = some attributes ∧
      Entries.keys attributes = ["name", "speed", "scales", "breath"] ∧
      ∀ name, name ∈ Entries.keys attributes ↔
        ∃ other own, bestiary.ancestry.Reaches "dragon" other ∧
          bestiary.model? other = some own ∧ name ∈ Entries.keys own.attributes := by
  have known : bestiary.model? "dragon" = some _ := rfl
  obtain ⟨_, attributes, _, collected, _, _, names⟩ := attributes_of_reached bestiary known
  have keys : (bestiary.attributes? "dragon").map Entries.keys
      = some ["name", "speed", "scales", "breath"] := by
    decide +kernel
  rw [collected] at keys
  exact ⟨_, attributes, known, collected, Option.some.inj keys, names⟩

end Catalog

end Tabletop
