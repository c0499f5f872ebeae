/-
Tabletop.Proofs.Model.Specific — which definition of an attribute a model gets.

An attribute that several models above a model define is defined for it by one
of them: by the model itself, or else by whoever defines it for the last
parent that has it (`Catalog.Origin`). This is the model whose text decides,
whatever is written there (`supplies_iff`).

The last parent that has an attribute may have it from a model that another
parent refines. So a definition can win over a more specific one
(`griffin_is_slow`): the attributes of `y` come to a model along one line, at
each step through the last parent that is `y` or below it, and what models
beside this line make of them is lost. Main statement: no matter what the
models define, the most specific definition wins exactly if there are no
models beside the lines (`most_specific_wins_iff`).

  §1 Lines
  §2 Definitions
  §3 Origins
  §4 Redefinitions
  §5 The most specific definition
-/
import Tabletop.Proofs.Model.Parents

namespace Tabletop

open Relation

/-! ## §1 Lines -/

/-- Of the items with a property one is the last. -/
theorem exists_last {α : Type} {P : α → Prop} {items : List α} (h : ∃ a ∈ items, P a) :
    ∃ before a after, items = before ++ a :: after ∧ P a ∧ ∀ b ∈ after, ¬ P b := by
  induction items with
  | nil => simp at h
  | cons first rest ih =>
    by_cases later : ∃ a ∈ rest, P a
    · obtain ⟨before, a, after, rfl, has, last⟩ := ih later
      exact ⟨first :: before, a, after, rfl, has, last⟩
    · obtain ⟨a, there, has⟩ := h
      rcases List.mem_cons.mp there with rfl | there
      · exact ⟨[], a, rest, rfl, has, fun b there has => later ⟨b, there, has⟩⟩
      · exact absurd ⟨a, there, has⟩ later

/-- Two places in a list are the same, or one comes after the other. -/
theorem eq_or_mem_of_split {α : Type} {before after before' after' : List α} {a b : α}
    (same : before ++ a :: after = before' ++ b :: after') : a = b ∨ b ∈ after ∨ a ∈ after' := by
  rcases List.append_eq_append_iff.mp same with ⟨gap, -, rest⟩ | ⟨gap, -, rest⟩
  all_goals
    rw [List.cons_eq_append_iff] at rest
    rcases rest with ⟨-, rest⟩ | ⟨_, -, rest⟩
  · exact Or.inl (List.cons.inj rest).1.symm
  · exact Or.inr (Or.inl (rest ▸ List.mem_append_right _ List.mem_cons_self))
  · exact Or.inl (List.cons.inj rest).1
  · exact Or.inr (Or.inr (rest ▸ List.mem_append_right _ List.mem_cons_self))

namespace Ancestry

variable {g : Ancestry} {visiting parents ids : List String} {id p q x y : String}

/-- The last parent of the model that is `y` or below it. -/
def LastTo (g : Ancestry) (y id q : String) : Prop :=
  ∃ before after, g id = some (before ++ q :: after) ∧ (g q).isSome ∧ g.Reaches q y ∧
    ∀ p ∈ after, (g p).isSome → ¬ g.Reaches p y

/-- The model `x` is on the line along which the attributes of `y` come to a model: at each step it
leads to the last parent that is `y` or below it. -/
inductive OnLine (g : Ancestry) (y : String) : (id x : String) → Prop
  | start {id : String} (reached : g.Reaches id y) : OnLine g y id id
  | next {id q x : String} (last : g.LastTo y id q) (onward : OnLine g y q x) : OnLine g y id x

/-- Whatever is between the model and a model above it is on the line between them. -/
def Straight (g : Ancestry) (id : String) : Prop :=
  ∀ x y, g.Reaches id x → g.Inherits x y → g.OnLine y id x

theorem LastTo.step (h : g.LastTo y id q) : g.Extends id q := by
  obtain ⟨before, after, named, known, _, _⟩ := h
  exact ⟨_, named, List.mem_append_right _ List.mem_cons_self, known⟩

theorem Inherits.isSome_child (h : g.Inherits x y) : (g x).isSome := by
  obtain ⟨_, ⟨_, named, _, _⟩, _⟩ := TransGen.head'_iff.mp h
  exact named ▸ rfl

theorem Inherits.isSome_parent (h : g.Inherits x y) : (g y).isSome := by
  obtain ⟨_, _, _, _, _, known⟩ := TransGen.tail'_iff.mp h
  exact known

/-- Below a model that can be reached there is a last parent on the way. -/
theorem exists_lastTo (h : g.Reaches id y) (other : id ≠ y) : ∃ q, g.LastTo y id q := by
  rcases ReflTransGen.cases_head h with same | ⟨p, ⟨parents, named, parent, known⟩, way⟩
  · exact absurd same other
  obtain ⟨before, q, after, rfl, ⟨isKnown, leads⟩, last⟩ :=
    exists_last (P := fun p => (g p).isSome ∧ g.Reaches p y) ⟨p, parent, known, way⟩
  exact ⟨q, before, after, named, isKnown, leads, fun b there isKnown way =>
    last b there ⟨isKnown, way⟩⟩

/-- Where models have one parent at most, there is nothing beside the lines. -/
theorem straight_of_single (single : ∀ id parents, g id = some parents → parents.length ≤ 1)
    (id : String) : g.Straight id := by
  intro x y reached below
  induction reached using ReflTransGen.head_induction_on with
  | refl => exact .start below.to_reflTransGen
  | @head id q step way ih =>
    obtain ⟨parents, named, parent, known⟩ := step
    obtain rfl : parents = [q] := by
      cases parents with
      | nil => exact absurd parent List.not_mem_nil
      | cons first rest =>
        have none_left : rest = [] := by simpa using single id _ named
        subst none_left
        rw [List.mem_singleton.mp parent]
    exact .next ⟨[], [], named, known, way.trans below.to_reflTransGen, nofun⟩ ih

/-- Where no model is above itself, every way up from the parents ends. -/
theorem Ascends.acc (acyclic : g.Acyclic) (h : g.Ascends visiting parents ids)
    (under : ∀ v ∈ visiting, ∀ p ∈ parents, (g p).isSome → g.Inherits v p) :
    ∀ p ∈ parents, (g p).isSome → Acc (fun parent child => g.Extends child parent) p := by
  induction h with
  | done => exact fun p there => absurd there List.not_mem_nil
  | @skip visiting rest ids p closed _ ih =>
    refine List.forall_mem_cons.mpr ⟨fun known => ?_, ih fun v hv q there =>
      under v hv q (List.mem_cons_of_mem _ there)⟩
    rcases closed with there | unknown
    · exact absurd (under p there p List.mem_cons_self known) (acyclic p)
    · rw [unknown] at known
      cases known
  | @enter visiting rest parents above later p fresh isKnown _ _ ihUp ihOnward =>
    refine List.forall_mem_cons.mpr ⟨fun known => ?_, ihOnward fun v hv q there =>
      under v hv q (List.mem_cons_of_mem _ there)⟩
    refine .intro p fun q ⟨own, named, parent, qKnown⟩ => ?_
    obtain rfl := Option.some.inj (named.symm.trans isKnown)
    refine ihUp (fun v hv r there rKnown => ?_) q parent qKnown
    have step : g.Extends p r := ⟨own, isKnown, there, rKnown⟩
    rcases List.mem_cons.mp hv with rfl | hv
    · exact .single step
    · exact .tail (under v hv p List.mem_cons_self known) step

end Ancestry

/-! ## §2 Definitions -/

namespace Catalog

variable {c other : Catalog} {id name p q x y z : String} {m : Model} {d node : Attribute}
  {before after ids : List String} {merged : Attributes}

/-- What the model itself defines under the name. -/
def definition? (c : Catalog) (id name : String) : Option Attribute :=
  Entries.get? (c.own id) name

/-- What the model has under the name, by its own definition or by one that it inherits. -/
def merged? (c : Catalog) (id name : String) : Option Attribute :=
  (c.attributes? id).bind (Entries.get? · name)

/-- No model defines a name twice. -/
def DefinesOnce (c : Catalog) : Prop := ∀ id, Entries.NodupKeys (c.own id)

theorem exists_model (h : (c.ancestry id).isSome) : ∃ m, c.model? id = some m := by
  rw [ancestry, Option.isSome_map] at h
  exact Option.isSome_iff_exists.mp h

theorem isSome_definition?_iff :
    (c.definition? id name).isSome ↔ name ∈ Entries.keys (c.own id) :=
  Entries.isSome_get?_iff

theorem known_of_definition (h : (c.definition? id name).isSome) : ∃ m, c.model? id = some m := by
  obtain ⟨m, known, _⟩ := mem_keys_own.mp (isSome_definition?_iff.mp h)
  exact ⟨m, known⟩

/-- A model has what it or a model above it defines. -/
theorem isSome_merged?_iff (known : c.model? id = some m) : (c.merged? id name).isSome ↔
    ∃ x, c.ancestry.Reaches id x ∧ (c.definition? x name).isSome := by
  obtain ⟨ids, walk, collected⟩ := attributes_layered known
  simp only [isSome_definition?_iff]
  rw [← mem_keys_collected known walk, merged?, collected]
  exact Entries.isSome_get?_iff

/-- The own definition of a model counts first. -/
theorem merged?_of_definition (once : c.DefinesOnce) (h : c.definition? id name = some d) :
    c.merged? id name = some d := by
  obtain ⟨m, known⟩ := known_of_definition (Option.isSome_of_eq_some h)
  obtain ⟨ids, -, collected⟩ := attributes_layered known
  rw [merged?, collected, layered_append, Option.bind_some]
  change Entries.get? (Entries.override _ (c.own id)) name = some d
  rw [(once id).get?_override, ← definition?, h]
  rfl

/-- Parents without the attribute do not change what is there under its name. -/
theorem get?_of_parents_without (h : ∀ p ∈ after, c.merged? p name = none) :
    Entries.get? ((after.filterMap c.attributes?).foldl Entries.override merged) name
      = Entries.get? merged name := by
  induction after generalizing merged with
  | nil => rfl
  | cons p rest ih =>
    obtain ⟨here, later⟩ := List.forall_mem_cons.mp h
    cases collected : c.attributes? p with
    | none => rw [List.filterMap_cons_none collected, ih later]
    | some attributes =>
      rw [merged?, collected, Option.bind_some] at here
      rw [List.filterMap_cons_some collected, List.foldl_cons, ih later,
        (nodupKeys_of_collected collected).get?_override, here, Option.none_or]

/-- A model without a definition of its own has that of the last parent that has one. -/
theorem merged?_of_last (acyclic : c.ancestry.Acyclic) (once : c.DefinesOnce)
    (bare : c.definition? id name = none) (named : c.ancestry id = some (before ++ q :: after))
    (has : c.merged? q name = some d) (last : ∀ p ∈ after, c.merged? p name = none) :
    c.merged? id name = some d := by
  obtain ⟨m, known, parents⟩ := Option.map_eq_some_iff.mp named
  obtain ⟨attributes, inherits, found⟩ := Option.bind_eq_some_iff.mp has
  obtain ⟨ids, walk, collected⟩ := attributes_layered known
  rw [merged?, collected, layered_append, layered_of_ascends acyclic known (fun _ h => h) walk,
    Option.bind_some]
  change Entries.get? (Entries.override _ (c.own id)) name = some d
  rw [(once id).get?_override, ← definition?, bare, Option.none_or, parents, List.filterMap_append,
    List.foldl_append, List.filterMap_cons_some inherits, List.foldl_cons,
    get?_of_parents_without last, (nodupKeys_of_collected inherits).get?_override, found]
  rfl

/-! ## §3 Origins -/

/-- The model `y` defines the attribute for a model: it is the model itself, or it is the origin for
the last parent that has the attribute. -/
inductive Origin (c : Catalog) (name y : String) : String → Prop
  | own (defined : (c.definition? y name).isSome) : Origin c name y y
  | inherited {id q : String} {before after : List String} (bare : c.definition? id name = none)
      (named : c.ancestry id = some (before ++ q :: after)) (origin : Origin c name y q)
      (last : ∀ p ∈ after, (c.ancestry p).isSome → ∀ x, c.ancestry.Reaches p x →
        c.definition? x name = none) : Origin c name y id

theorem Origin.defined (h : c.Origin name y id) : (c.definition? y name).isSome := by
  induction h with
  | own defined => exact defined
  | inherited _ _ _ _ ih => exact ih

theorem Origin.isSome_ancestry (h : c.Origin name y id) : (c.ancestry id).isSome := by
  cases h with
  | own defined =>
    obtain ⟨m, known⟩ := known_of_definition defined
    exact ancestry_of_known known ▸ rfl
  | inherited _ named => exact named ▸ rfl

theorem Origin.reaches (h : c.Origin name y id) : c.ancestry.Reaches id y := by
  induction h with
  | own => exact .refl
  | inherited _ named origin _ ih =>
    exact .head ⟨_, named, List.mem_append_right _ List.mem_cons_self, origin.isSome_ancestry⟩ ih

theorem merged?_eq_none (bare : (c.ancestry p).isSome → ∀ x, c.ancestry.Reaches p x →
    c.definition? x name = none) : c.merged? p name = none := by
  cases known : c.model? p with
  | none => rw [merged?, attributes_of_unknown known, Option.bind_none]
  | some m =>
    rw [← Option.not_isSome_iff_eq_none, isSome_merged?_iff known]
    rintro ⟨x, reached, defined⟩
    rw [bare (ancestry_of_known known ▸ rfl) x reached] at defined
    cases defined

/-- A model has the definition of the origin. -/
theorem Origin.merged?_eq (h : c.Origin name y id) (acyclic : c.ancestry.Acyclic)
    (once : c.DefinesOnce) : c.merged? id name = c.definition? y name := by
  obtain ⟨d, defined⟩ := Option.isSome_iff_exists.mp h.defined
  rw [defined]
  induction h with
  | own => exact merged?_of_definition once defined
  | inherited bare named _ last ih =>
    exact merged?_of_last acyclic once bare named ih fun p there => merged?_eq_none (last p there)

theorem wellFounded_extends (acyclic : c.ancestry.Acyclic) :
    WellFounded fun parent child => c.ancestry.Extends child parent := by
  refine ⟨fun id => .intro id ?_⟩
  rintro p ⟨parents, named, parent, known⟩
  obtain ⟨m, found, rfl⟩ := Option.map_eq_some_iff.mp named
  obtain ⟨ids, walk, -⟩ := attributes_layered found
  refine walk.acc acyclic (fun v there q among isKnown => ?_) p parent known
  obtain rfl := List.mem_singleton.mp there
  exact .single ⟨_, named, among, isKnown⟩

/-- What can be reached decides: an attribute that is defined there has an origin. -/
theorem exists_origin (acyclic : c.ancestry.Acyclic) (reached : c.ancestry.Reaches id x)
    (defined : (c.definition? x name).isSome) : ∃ y, c.Origin name y id := by
  induction id using (wellFounded_extends acyclic).induction generalizing x with
  | _ id ih =>
  by_cases own : (c.definition? id name).isSome
  · exact ⟨id, .own own⟩
  have bare := Option.not_isSome_iff_eq_none.mp own
  rcases ReflTransGen.cases_head reached with same | ⟨p, ⟨parents, named, parent, known⟩, way⟩
  · exact absurd (same ▸ defined) own
  obtain ⟨before, q, after, rfl, ⟨isKnown, z, leads, has⟩, last⟩ :=
    exists_last (P := fun p => (c.ancestry p).isSome ∧ ∃ z, c.ancestry.Reaches p z ∧
      (c.definition? z name).isSome) ⟨p, parent, known, x, way, defined⟩
  obtain ⟨y, origin⟩ :=
    ih q ⟨_, named, List.mem_append_right _ List.mem_cons_self, isKnown⟩ leads has
  refine ⟨y, .inherited bare named origin fun b there bKnown z leads => ?_⟩
  exact Option.not_isSome_iff_eq_none.mp fun has => last b there ⟨bKnown, z, leads, has⟩

/-! ## §4 Redefinitions -/

/-- The catalog in which the model defines the attribute by `node`. -/
def redefine (c : Catalog) (id name : String) (node : Attribute) : Catalog :=
  match c.model? id with
  | none => c
  | some m =>
      let own := Entries.insert m.attributes name node
      { c with models := Entries.insert c.models id { m with attributes := own } }

theorem ancestry_redefine (c : Catalog) (id name : String) (node : Attribute) :
    (c.redefine id name node).ancestry = c.ancestry := by
  unfold redefine
  split
  · rfl
  · rename_i m known
    funext other
    rw [ancestry, ancestry, model?, Entries.get?_insert]
    by_cases same : id = other
    · rw [if_pos same, ← same, known]
      rfl
    · rw [if_neg same]
      rfl

theorem acyclic_redefine (acyclic : c.ancestry.Acyclic) :
    (c.redefine id name node).ancestry.Acyclic := by
  rwa [ancestry_redefine]

theorem own_redefine (known : c.model? id = some m) (other : String) :
    (c.redefine id name node).own other
      = if id = other then Entries.insert m.attributes name node else c.own other := by
  rw [redefine, known]
  dsimp only
  rw [own, model?, Entries.get?_insert]
  split
  · rfl
  · rfl

theorem definition?_redefine (known : c.model? id = some m) (other key : String) :
    (c.redefine id name node).definition? other key
      = if id = other ∧ name = key then some node else c.definition? other key := by
  rw [definition?, own_redefine known]
  by_cases same : id = other
  · subst same
    rw [if_pos rfl, Entries.get?_insert, definition?, own_of_known known]
    simp
  · simp [same, definition?]

theorem DefinesOnce.redefine (once : c.DefinesOnce) (known : c.model? id = some m) :
    (c.redefine id name node).DefinesOnce := by
  intro other
  rw [own_redefine known]
  split
  · have own := once id
    rw [own_of_known known] at own
    exact own.insert name node
  · exact once other

/-- The origin is the same wherever the same models define the attribute. -/
theorem Origin.congr (h : c.Origin name y id) (parents : other.ancestry = c.ancestry)
    (same : ∀ x, (other.definition? x name).isSome = (c.definition? x name).isSome) :
    other.Origin name y id := by
  have bare : ∀ x, c.definition? x name = none → other.definition? x name = none := by
    intro x none_there
    rw [← Option.not_isSome_iff_eq_none, same x, none_there]
    exact Bool.false_ne_true
  induction h with
  | own defined => exact .own ((same _).trans defined)
  | inherited none_there named _ last ih =>
    refine .inherited (bare _ none_there) (parents ▸ named) ih fun p there known x reached => ?_
    rw [parents] at known reached
    exact bare x (last p there known x reached)

theorem isSome_definition?_redefine (defined : (c.definition? y name).isSome) (x : String) :
    ((c.redefine y name node).definition? x name).isSome = (c.definition? x name).isSome := by
  obtain ⟨m, known⟩ := known_of_definition defined
  rw [definition?_redefine known]
  by_cases same : y = x
  · subst same
    simp [defined]
  · simp [same]

/-- What the model has under the name is what `y` defines: if `y` defines it by anything else, the
model has that. -/
def Supplies (c : Catalog) (id name y : String) : Prop :=
  (c.definition? y name).isSome ∧
    ∀ node, (c.redefine y name node).merged? id name = some node

theorem Origin.supplies (h : c.Origin name y id) (acyclic : c.ancestry.Acyclic)
    (once : c.DefinesOnce) : c.Supplies id name y := by
  refine ⟨h.defined, fun node => ?_⟩
  obtain ⟨m, known⟩ := known_of_definition h.defined
  have origin := h.congr (ancestry_redefine c y name node) (isSome_definition?_redefine h.defined)
  rw [origin.merged?_eq (acyclic_redefine acyclic) (once.redefine known),
    definition?_redefine known, if_pos ⟨rfl, rfl⟩]

/-- What is written in a model that is not the origin does not show. -/
theorem Supplies.eq_origin (h : c.Supplies id name y) (origin : c.Origin name z id)
    (acyclic : c.ancestry.Acyclic) (once : c.DefinesOnce) : y = z := by
  obtain ⟨defined, follows⟩ := h
  obtain ⟨m, known⟩ := known_of_definition defined
  by_contra different
  -- whatever `y` is made to define, the model would still have what `z` defines
  have fixed : ∀ node, c.definition? z name = some node := by
    intro node
    have origin := origin.congr (ancestry_redefine c y name node)
      (isSome_definition?_redefine defined)
    rw [← follows node, origin.merged?_eq (acyclic_redefine acyclic) (once.redefine known),
      definition?_redefine known, if_neg fun both => different both.1]
  cases (fixed (.group [])).symm.trans (fixed (.leaf {}))

/-- The model that supplies an attribute is the origin. -/
theorem supplies_iff (acyclic : c.ancestry.Acyclic) (once : c.DefinesOnce)
    (known : c.model? id = some m) : c.Supplies id name y ↔ c.Origin name y id := by
  refine ⟨fun h => ?_, fun h => h.supplies acyclic once⟩
  -- the attribute is there if `y` is redefined, so some model that can be reached defines it
  have stays : (c.redefine y name (.group [])).ancestry = c.ancestry := ancestry_redefine ..
  obtain ⟨n, found⟩ := exists_model (stays ▸ ancestry_of_known known ▸ rfl :
    ((c.redefine y name (.group [])).ancestry id).isSome)
  obtain ⟨x, reached, there⟩ :=
    (isSome_merged?_iff found).mp (Option.isSome_of_eq_some (h.2 (.group [])))
  rw [stays] at reached
  rw [isSome_definition?_redefine h.1] at there
  obtain ⟨z, origin⟩ := exists_origin acyclic reached there
  exact h.eq_origin origin acyclic once ▸ origin

/-! ## §5 The most specific definition -/

/-- No model between the model and the one that supplies an attribute defines it otherwise. -/
def SpecificWins (c : Catalog) (id : String) : Prop :=
  ∀ name y, c.Supplies id name y → ∀ x node, c.ancestry.Reaches id x → c.ancestry.Inherits x y →
    c.definition? x name = some node → c.definition? y name = some node

/-- Nobody before the origin on the line to it defines the attribute. -/
theorem Origin.bare_of_onLine (h : c.Origin name y id) (acyclic : c.ancestry.Acyclic)
    (line : c.ancestry.OnLine y id x) (before : x ≠ y) : c.definition? x name = none := by
  induction line with
  | start =>
    cases h with
    | own => exact absurd rfl before
    | inherited bare => exact bare
  | @next id q x last _ ih =>
    have up := last.step
    obtain ⟨few, more, named, _, leads, beyond⟩ := last
    cases h with
    | own => exact absurd (.head' up leads) (acyclic y)
    | @inherited _ r front back bare parents origin lacking =>
      rw [named] at parents
      refine ih ?_ before
      -- the line goes on through the last parent below `y`, the origin through the last one that
      -- has the attribute: neither can come after the other
      rcases eq_or_mem_of_split (Option.some.inj parents) with rfl | later | later
      · exact origin
      · exact absurd origin.reaches (beyond r later origin.isSome_ancestry)
      · have defined := origin.defined
        rw [lacking q later up.choose_spec.2.2 y leads] at defined
        cases defined

/-- On straight lines nothing is lost. -/
theorem specificWins_of_straight (acyclic : c.ancestry.Acyclic) (once : c.DefinesOnce)
    (known : c.model? id = some m) (straight : c.ancestry.Straight id) : c.SpecificWins id := by
  intro name y supplied x node reached below defined
  have origin := (supplies_iff acyclic once known).mp supplied
  have before : x ≠ y := by
    rintro rfl
    exact acyclic x below
  rw [origin.bare_of_onLine acyclic (straight x y reached below) before] at defined
  cases defined

/-- Under single inheritance the most specific definition wins. -/
theorem specificWins_of_single (acyclic : c.ancestry.Acyclic) (once : c.DefinesOnce)
    (single : ∀ id parents, c.ancestry id = some parents → parents.length ≤ 1)
    (known : c.model? id = some m) : c.SpecificWins id :=
  specificWins_of_straight acyclic once known (Ancestry.straight_of_single single id)

/-- If only `y` and a model beside the line define the attribute, it comes from `y`. -/
theorem origin_of_beside (acyclic : c.ancestry.Acyclic)
    (only : ∀ z, (c.definition? z name).isSome ↔ z = x ∨ z = y)
    (below : c.ancestry.Inherits x y) (reached : c.ancestry.Reaches id y)
    (beside : ¬ c.ancestry.OnLine y id x) : c.Origin name y id := by
  induction id using (wellFounded_extends acyclic).induction with
  | _ id ih =>
  by_cases here : id = y
  · subst here
    exact .own ((only id).mpr (Or.inr rfl))
  have other : id ≠ x := fun same => beside (same ▸ .start reached)
  have bare : c.definition? id name = none := by
    rw [← Option.not_isSome_iff_eq_none, only]
    exact not_or.mpr ⟨other, here⟩
  obtain ⟨q, last⟩ := Ancestry.exists_lastTo reached here
  have up := last.step
  have line : ¬ c.ancestry.OnLine y q x := fun onward => beside (.next last onward)
  obtain ⟨few, more, named, _, leads, beyond⟩ := last
  -- a later parent with the attribute would have it from `x` or `y`, and be below `y` either way
  refine .inherited bare named (ih q up leads line) fun p there isKnown z way => ?_
  rw [← Option.not_isSome_iff_eq_none, only]
  rintro (rfl | rfl)
  · exact beyond p there isKnown (way.trans below.to_reflTransGen)
  · exact beyond p there isKnown way

/-- The catalog with the same parents in which no model defines anything. -/
def bare (c : Catalog) : Catalog :=
  { c with models := c.models.map fun e => (e.1, { e.2 with attributes := [] }) }

theorem model?_bare :
    c.bare.model? id = (c.model? id).map fun m => { m with attributes := [] } := by
  have step := Entries.get?_map (fun m : Model => ({ m with attributes := [] } : Model)) c.models id
  exact step

theorem ancestry_bare : c.bare.ancestry = c.ancestry := by
  funext id
  rw [ancestry, ancestry, model?_bare, Option.map_map]
  rfl

theorem own_bare : c.bare.own id = [] := by
  rw [own, model?_bare]
  cases c.model? id <;> rfl

theorem definition?_bare : c.bare.definition? id name = none := by
  rw [definition?, own_bare]
  rfl

/-- Two models can be made the only ones that define an attribute, each in its own way. -/
theorem exists_two_definitions (hx : (c.ancestry x).isSome) (hy : (c.ancestry y).isSome)
    (different : x ≠ y) (name : String) :
    ∃ other : Catalog, other.ancestry = c.ancestry ∧ other.DefinesOnce ∧
      (∀ z, (other.definition? z name).isSome ↔ z = x ∨ z = y) ∧
      ∃ node, other.definition? x name = some node ∧ other.definition? y name ≠ some node := by
  obtain ⟨m, first⟩ := exists_model (ancestry_bare (c := c) ▸ hx)
  have stays : (c.bare.redefine x name (.group [])).ancestry = c.ancestry :=
    (ancestry_redefine ..).trans ancestry_bare
  obtain ⟨n, second⟩ := exists_model (stays ▸ hy)
  have once : c.bare.DefinesOnce := fun z => own_bare (c := c) ▸ Entries.nodupKeys_nil
  refine ⟨(c.bare.redefine x name (.group [])).redefine y name (.leaf {}),
    (ancestry_redefine ..).trans stays, (once.redefine first).redefine second, fun z => ?_,
    .group [], ?_, ?_⟩
  all_goals rw [definition?_redefine second]
  · rw [definition?_redefine first, definition?_bare]
    by_cases hy : y = z
    · simp [hy]
    · by_cases hx : x = z
      · simp [hx, if_neg hy]
      · simp [hx, hy, Ne.symm hx, Ne.symm hy]
  · rw [definition?_redefine first, if_neg fun both => different both.1.symm, if_pos ⟨rfl, rfl⟩]
  · rw [if_pos ⟨rfl, rfl⟩]
    nofun

/-- Where no model is above itself, whatever a model has is supplied by exactly one model, which is
the model itself or above it. Whatever the models define, the most specific definition wins exactly
if there are no models beside the lines. -/
theorem most_specific_wins_iff (acyclic : c.ancestry.Acyclic) (once : c.DefinesOnce)
    (known : c.model? id = some m) :
    (∀ name node, c.merged? id name = some node → ∃! y, c.Supplies id name y ∧
      c.ancestry.Reaches id y ∧ c.definition? y name = some node) ∧
    ((∀ other : Catalog, other.ancestry = c.ancestry → other.DefinesOnce →
      other.SpecificWins id) ↔ c.ancestry.Straight id) := by
  refine ⟨fun name node has => ?_, fun wins x y reached below => ?_,
    fun straight other same tidy => ?_⟩
  · obtain ⟨x, reached, defined⟩ := (isSome_merged?_iff known).mp (Option.isSome_of_eq_some has)
    obtain ⟨y, origin⟩ := exists_origin acyclic reached defined
    refine ⟨y, ⟨origin.supplies acyclic once, origin.reaches, ?_⟩, fun z ⟨supplied, _⟩ => ?_⟩
    · rw [← origin.merged?_eq acyclic once, has]
    · exact supplied.eq_origin origin acyclic once
  · -- beside the line a definition gets lost that is there to be lost
    by_contra beside
    have different : x ≠ y := by
      rintro rfl
      exact acyclic x below
    obtain ⟨other, same, tidy, only, node, first, second⟩ := exists_two_definitions
      (below.isSome_child) (below.isSome_parent) different "name"
    have origin := origin_of_beside (c := other) (same ▸ acyclic) only (same ▸ below)
      (same ▸ reached.trans below.to_reflTransGen) (same ▸ beside)
    have supplied := origin.supplies (same ▸ acyclic) tidy
    exact second
      (wins other same tidy "name" y supplied x node (same ▸ reached) (same ▸ below) first)
  · obtain ⟨n, found⟩ := exists_model (same ▸ ancestry_of_known known ▸ rfl :
      (other.ancestry id).isSome)
    exact specificWins_of_straight (same ▸ acyclic) tidy found (same ▸ straight)

/-- No name is defined twice if the list of models has no such model. -/
theorem definesOnce_of_models (h : ∀ e ∈ c.models, Entries.NodupKeys e.2.attributes) :
    c.DefinesOnce := by
  intro id
  cases known : c.model? id with
  | none =>
    rw [own, known]
    exact Entries.nodupKeys_nil
  | some m =>
    rw [own_of_known known]
    exact h _ (Entries.mem_of_get? known)

/-- A winged horse is a creature first, and a horse then. -/
def stable : Catalog where
  models := [
    ("pegasus", { id := "pegasus", parents := ["creature", "horse", "wings"] }),
    ("horse", {
      id := "horse"
      parents := ["creature"]
      attributes := [("speed", .leaf { typeName := "float" })] }),
    ("wings", { id := "wings", attributes := [("span", .leaf { typeName := "int" })] }),
    ("creature", { id := "creature", attributes := [("speed", .leaf { typeName := "int" })] })]

theorem stable_acyclic : stable.ancestry.Acyclic :=
  acyclic_of_models (fun id => if id = "pegasus" then 2 else if id = "horse" then 1 else 0)
    (by decide +kernel)

theorem stable_extends (h : stable.ancestry.Extends x y) :
    x = "pegasus" ∨ x = "horse" ∧ y = "creature" := by
  obtain ⟨parents, named, parent, -⟩ := h
  obtain ⟨m, known, rfl⟩ := Option.map_eq_some_iff.mp named
  have listed := Entries.mem_of_get? known
  simp only [stable, List.mem_cons, Prod.mk.injEq, List.not_mem_nil, or_false] at listed
  rcases listed with ⟨rfl, rfl⟩ | ⟨rfl, rfl⟩ | ⟨rfl, rfl⟩ | ⟨rfl, rfl⟩
  · exact Or.inl rfl
  · exact Or.inr ⟨rfl, List.mem_singleton.mp parent⟩
  · exact absurd parent List.not_mem_nil
  · exact absurd parent List.not_mem_nil

/-- Between a winged horse and a creature there is the horse, and it comes after the creature. -/
theorem stable_straight : stable.ancestry.Straight "pegasus" := by
  intro x y reached below
  obtain ⟨z, step, way⟩ := TransGen.head'_iff.mp below
  rcases stable_extends step with rfl | ⟨rfl, rfl⟩
  · exact .start below.to_reflTransGen
  have final : ∀ {a b : String}, a ≠ "pegasus" → a ≠ "horse" → stable.ancestry.Reaches a b →
      b = a := by
    intro a b first second way
    rcases ReflTransGen.cases_head way with same | ⟨_, up, _⟩
    · exact same.symm
    · rcases stable_extends up with rfl | ⟨rfl, _⟩
      · exact absurd rfl first
      · exact absurd rfl second
  obtain rfl := final (by decide) (by decide) way
  refine .next ⟨["creature"], ["wings"], rfl, rfl, .single step, fun p there _ way => ?_⟩
    (.start (.single step))
  obtain rfl := List.mem_singleton.mp there
  exact absurd (final (by decide) (by decide) way) (by decide)

/-- Whatever winged horses, horses and creatures are, the horse's definitions win over the
creature's. -/
theorem stable_pegasus :
    stable.ancestry.Acyclic ∧ stable.DefinesOnce ∧ (∃ m, stable.model? "pegasus" = some m) ∧
      stable.ancestry.Straight "pegasus" ∧ stable.SpecificWins "pegasus" := by
  have once : stable.DefinesOnce := definesOnce_of_models (by decide +kernel)
  have known : stable.model? "pegasus" = some _ := rfl
  have wins := (most_specific_wins_iff stable_acyclic once known).2.mpr stable_straight
  exact ⟨stable_acyclic, once, ⟨_, known⟩, stable_straight, wins stable rfl once⟩

/-- A griffin is as slow as any creature: its beast's side brings back what its bird's side has
refined. -/
theorem griffin_is_slow :
    menagerie.ancestry.Acyclic ∧ menagerie.DefinesOnce ∧
      menagerie.merged? "griffin" "speed" = some (.leaf { typeName := "int" }) ∧
      menagerie.Supplies "griffin" "speed" "creature" ∧
      menagerie.ancestry.Reaches "griffin" "bird" ∧
      menagerie.ancestry.Inherits "bird" "creature" ∧
      menagerie.definition? "bird" "speed" = some (.leaf { typeName := "float" }) ∧
      ¬ menagerie.SpecificWins "griffin" := by
  have once : menagerie.DefinesOnce := definesOnce_of_models (by decide +kernel)
  have first : menagerie.ancestry "griffin" = some (["bird"] ++ "beast" :: []) := rfl
  have second : menagerie.ancestry "beast" = some ([] ++ "creature" :: []) := rfl
  have origin : menagerie.Origin "speed" "creature" "griffin" :=
    .inherited rfl first (.inherited rfl second (.own rfl) nofun) nofun
  have supplied := origin.supplies menagerie_acyclic once
  have bird : menagerie.ancestry.Extends "griffin" "bird" := ⟨_, rfl, List.mem_cons_self, rfl⟩
  have creature : menagerie.ancestry.Extends "bird" "creature" := ⟨_, rfl, List.mem_cons_self, rfl⟩
  refine ⟨menagerie_acyclic, once, origin.merged?_eq menagerie_acyclic once, supplied, .single bird,
    .single creature, rfl, fun wins => ?_⟩
  have claimed := wins "speed" "creature" supplied "bird" _ (.single bird) (.single creature) rfl
  have slow : menagerie.definition? "creature" "speed" = some (.leaf { typeName := "int" }) := rfl
  rw [slow] at claimed
  injection claimed with claimed
  injection claimed with claimed
  injection claimed with claimed
  exact absurd claimed (by decide)

end Catalog

end Tabletop
