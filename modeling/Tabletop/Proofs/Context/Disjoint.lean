/-
Tabletop.Proofs.Context.Disjoint — contexts edited apart from each other are
merged without loss.

Several contexts come from one, each by writes and tags of its own. If no
two writes among their changes touch the same place, all the changes can be
replayed on the context that they come from. Every write is then stored,
everything else is stored as it was, and the order of the contexts makes no
difference to what is stored.

  §1 The changes of several contexts
  §2 Merging
-/
import Tabletop.Proofs.Context.Difference

namespace Tabletop

namespace Context

open Tabletop.Path Tabletop.Value

/-! ## §1 The changes of several contexts -/

/-- The changes since `base` of contexts, one context after the other. -/
def changesOf (base : Context) (nexts : List Context) : List Change :=
  nexts.flatMap fun next => next.changesSince base

/-- The contexts come from `base`, and all of them are well-formed. -/
structure Branches (base : Context) (nexts : List Context) : Prop where
  root : base.WellFormed
  edits : ∀ next ∈ nexts, base.Edits next
  each : ∀ next ∈ nexts, next.WellFormed

theorem Branches.perm {base : Context} {nexts others : List Context}
    (h : Branches base nexts) (perm : others.Perm nexts) : Branches base others where
  root := h.root
  edits := fun next hn => h.edits next (perm.mem_iff.mp hn)
  each := fun next hn => h.each next (perm.mem_iff.mp hn)

/-- Changes of branches that do not touch each other can be replayed on the base. -/
theorem Branches.replay {base : Context} {nexts : List Context} (h : Branches base nexts)
    (apart : (changesOf base nexts).Pairwise Change.Apart) :
    ∃ merged, base.applyChanges (changesOf base nexts) = .ok merged
      ∧ Replayed base (changesOf base nexts) merged ∧ merged.WellFormed := by
  have source : ∀ p v, .write p v ∈ changesOf base nexts → base.Admits p ∧ v.WellFormed := by
    intro p v hw
    obtain ⟨next, hn, hw⟩ := List.mem_flatMap.mp hw
    exact ⟨admits_changesSince (h.each next hn) (h.edits next hn) hw,
      wellFormed_changesSince (h.each next hn) hw⟩
  obtain ⟨merged, ok, replayed⟩ := applyChanges_of_admits apart fun p v hw => (source p v hw).1
  exact ⟨merged, ok, replayed, replayed.wellFormed h.root fun p v hw => (source p v hw).2⟩

/-- Replaying the same changes in two orders stores the same values. -/
theorem Replayed.sameAs {base c d : Context} {changes others : List Change}
    (hc : Replayed base changes c) (hd : Replayed base others d)
    (wc : c.WellFormed) (wd : d.WellFormed) (same : ∀ change, change ∈ others ↔ change ∈ changes)
    (p : Path) : SameAs (c.stored? p) (d.stored? p) := by
  refine sameAs_of_resembles wc wd ?_ p
  intro p
  by_cases clear : ∀ q v, .write q v ∈ changes → Clear q p
  · have hcp := hc.keeps p clear
    have hdp := hd.keeps p fun q v hw => clear q v ((same _).mp hw)
    exact resembles_of_eq wc (by rw [hcp, hdp])
  · push Not at clear
    obtain ⟨q, v, hw, touches⟩ := clear
    have holds : d.Holds changes :=
      ⟨fun p v hw => hd.reads p v ((same _).mpr hw),
        fun s e a k b v hw => hd.opens s e a k b v ((same _).mpr hw)⟩
    exact hc.toHolds.resembles holds wc hw touches

/-! ## §2 Merging -/

/-- Branches whose writes do not touch each other are merged without loss: the replay succeeds, what
is written is stored, the rest is stored as in the base, in whatever order the branches come. -/
theorem merge_disjoint {base : Context} {nexts : List Context} (h : Branches base nexts)
    (apart : (changesOf base nexts).Pairwise Change.Apart) :
    ∃ merged, base.applyChanges (changesOf base nexts) = .ok merged
      ∧ (∀ p v, .write p v ∈ changesOf base nexts → merged.stored? p = some v)
      ∧ (∀ p, (∀ q v, .write q v ∈ changesOf base nexts → q.Incomparable p) →
          merged.stored? p = base.stored? p)
      ∧ ∀ others : List Context, others.Perm nexts →
          ∃ again, base.applyChanges (changesOf base others) = .ok again
            ∧ ∀ p, SameAs (merged.stored? p) (again.stored? p) := by
  obtain ⟨merged, ok, replayed, wf⟩ := h.replay apart
  refine ⟨merged, ok, replayed.reads, ?_, ?_⟩
  · intro p untouched
    exact replayed.keeps p fun q v hw => Or.inl (untouched q v hw)
  · intro others perm
    have changes : (changesOf base others).Perm (changesOf base nexts) := perm.flatMap_right _
    have apart' : (changesOf base others).Pairwise Change.Apart :=
      (changes.pairwise_iff fun h => h.symm).mpr apart
    obtain ⟨again, ok', replayed', wf'⟩ := (h.perm perm).replay apart'
    refine ⟨again, ok', ?_⟩
    exact replayed.sameAs replayed' wf wf' fun change => changes.mem_iff

/-- Two branches of a context: one writes below a null, the other next to it and an alias. -/
theorem merge_disjoint_two_branches :
    let base := Context.empty.putSlot "variables" "hero" ⟨.null, .plain⟩
    let left := base.putSlot "variables" "hero" ⟨.mapping [("hp", .int 3)], .plain⟩
    let right := (base.putSlot "variables" "hero" ⟨.mapping [("mp", .int 5)], .plain⟩).putAlias
      "result" (.int 1)
    Branches base [left, right] ∧ (changesOf base [left, right]).Pairwise Change.Apart ∧
      ∃ merged, base.applyChanges (changesOf base [left, right]) = .ok merged
        ∧ merged.stored? ["variables", "hero", "hp"] = some (.int 3)
        ∧ merged.stored? ["variables", "hero", "mp"] = some (.int 5)
        ∧ merged.stored? ["variables", "hero", "xp"] = none := by
  intro base left right
  have root : base.WellFormed := wellFormed_empty.putSlot _ _ .null
  have number : ∀ (key : String) (n : Int), (Value.mapping [(key, .int n)]).WellFormed :=
    fun key n => wellFormed_mapping_nil.insert key (.int n)
  have branches : Branches base [left, right] := by
    refine ⟨root, ?_, ?_⟩
    · intro next hn
      rcases List.mem_pair.mp hn with rfl | rfl
      · exact .write .refl (write_slot base .plain _ "variables" "hero")
      · exact .write (.write .refl (write_slot base .plain _ "variables" "hero"))
          (write_alias rfl .plain (.int 1))
    · intro next hn
      rcases List.mem_pair.mp hn with rfl | rfl
      · exact root.putSlot _ _ (number "hp" 3)
      · exact (root.putSlot _ _ (number "mp" 5)).putAlias (.int 1) _
  have changes : changesOf base [left, right]
      = [.write ["variables", "hero", "hp"] (.int 3), .write ["variables", "hero", "mp"] (.int 5),
          .write ["result"] (.int 1)] := rfl
  have apart : (changesOf base [left, right]).Pairwise Change.Apart := by
    rw [changes]
    simp [Change.Apart, incomparable_cons]
  obtain ⟨merged, ok, reads, keeps, _⟩ := merge_disjoint branches apart
  refine ⟨branches, apart, merged, ok, reads _ _ ?_, reads _ _ ?_, ?_⟩
  · simp [changes]
  · simp [changes]
  · rw [keeps]
    · rfl
    · intro q v hq
      simp only [changes, List.mem_cons, Change.write.injEq, List.not_mem_nil, or_false] at hq
      rcases hq with ⟨rfl, _⟩ | ⟨rfl, _⟩ | ⟨rfl, _⟩ <;> simp [incomparable_cons]

end Context

end Tabletop
