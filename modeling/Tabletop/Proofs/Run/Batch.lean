/-
Tabletop.Proofs.Run.Batch — a batch of one action and the action alone.

A batch replays changes, an action alone gives its context at once. For one
action both end in contexts that agree exactly if the entries are replayable:
taking a key out of a mapping, and tags that a write would take back, are
what a batch misses.
-/
import Tabletop.Proofs.Context.Replay
import Tabletop.Proofs.Run.Effect

namespace Tabletop

open Context

/-- A batch of one action replays what the action does. -/
theorem Frame.outcome_runBatch_one {f : Frame} {a : Action} {base next : Context}
    {notices : List Notice} (h : (f.runAction a base).outcome = .ok (next, notices))
    {merged : Context} (replay : base.applyChanges (next.changesSince base) = .ok merged) :
    (f.runBatch [a] base).outcome = .ok merged := by
  refine Frame.outcome_runBatch_eq_ok.mpr ⟨[next], .cons ⟨notices, h⟩ .nil, ?_⟩
  rw [changesOf, List.flatMap_singleton]
  exact replay

/-- What comes from a base by writes and tags is given back by a replay of its changes, and what an
action does is given back by a batch of that action, exactly if the entries are replayable. Both
always succeed. -/
theorem replay_and_batch_of_one_agree_iff {base next : Context} (hb : base.WellFormed)
    (hn : next.WellFormed)
    (unhidden : ∀ name ∈ Entries.keys next.aliases, name ∉ Entries.keys next.spaces) :
    (base.Edits next →
      ∃ merged, base.applyChanges (next.changesSince base) = .ok merged
        ∧ (merged.Agrees next ↔ Replayable base next)) ∧
    ∀ (f : Frame) (a : Action) (notices : List Notice),
      (f.runAction a base).outcome = .ok (next, notices) →
        ∃ merged, (f.runBatch [a] base).outcome = .ok merged
          ∧ (merged.Agrees next ↔ Replayable base next) := by
  refine ⟨fun edits => replay_agrees_iff hb hn edits unhidden, ?_⟩
  intro f a notices h
  have edits := (Frame.effect_of_runAction h).edits
  obtain ⟨merged, replay, agrees⟩ := replay_agrees_iff hb hn edits unhidden
  exact ⟨merged, Frame.outcome_runBatch_one h replay, agrees⟩

/-- A write inside an entry is given back. -/
theorem replay_agrees_after_nested_write :
    let base := Context.empty.putSlot "variables" "hero" ⟨.mapping [("hp", .int 1)], .plain⟩
    let next := base.putSlot "variables" "hero" ⟨.mapping [("hp", .int 2)], .plain⟩
    base.WellFormed ∧ next.WellFormed
      ∧ (∀ name ∈ Entries.keys next.aliases, name ∉ Entries.keys next.spaces)
      ∧ base.set "variables.hero.hp" (.int 2) = .ok next
      ∧ ∃ merged, base.applyChanges (next.changesSince base) = .ok merged
          ∧ merged.Agrees next := by
  intro base next
  have number : ∀ n : Int, (Value.mapping [("hp", .int n)]).WellFormed :=
    fun n => Value.wellFormed_mapping_nil.insert "hp" (.int n)
  have hb : base.WellFormed := wellFormed_empty.putSlot _ _ (number 1)
  have hn : next.WellFormed := hb.putSlot _ _ (number 2)
  have unhidden : ∀ name ∈ Entries.keys next.aliases, name ∉ Entries.keys next.spaces :=
    fun name h => absurd h List.not_mem_nil
  have step : base.set "variables.hero.hp" (.int 2) = .ok next := by rfl
  obtain ⟨merged, replay, agrees⟩ :=
    (replay_and_batch_of_one_agree_iff hb hn unhidden).1 (.set .refl step)
  refine ⟨hb, hn, unhidden, step, merged, replay, agrees.mpr ?_⟩
  intro space entry old new ho hnew
  rw [slot?_putSlot] at ho hnew
  by_cases here : "variables" = space ∧ "hero" = entry
  · rw [if_pos here] at ho hnew
    cases ho
    cases hnew
    refine ⟨?_, fun _ => Or.inl rfl⟩
    intro lost
    cases lost with
    | here had gone => exact gone had
    | deeper had has inside =>
      have had := Entries.mem_of_get? had
      simp only [List.mem_singleton, Prod.mk.injEq] at had
      rw [had.2] at inside
      cases inside
  · rw [if_neg here, slot?_empty] at ho
    cases ho

/-- A field that a write takes out is there again after the replay. -/
theorem replay_restores_removed_field :
    let full : Value := .mapping [("hp", .int 1), ("mp", .int 2)]
    let base := Context.empty.putSlot "variables" "hero" ⟨full, .plain⟩
    let next := base.putSlot "variables" "hero" ⟨.mapping [("hp", .int 1)], .plain⟩
    base.WellFormed ∧ next.WellFormed
      ∧ (∀ name ∈ Entries.keys next.aliases, name ∉ Entries.keys next.spaces)
      ∧ Context.empty.set "variables.hero" full = .ok base
      ∧ base.set "variables.hero" (.mapping [("hp", .int 1)]) = .ok next
      ∧ ∃ merged, base.applyChanges (next.changesSince base) = .ok merged
          ∧ merged.get "variables.hero" = some full
          ∧ next.get "variables.hero" = some (.mapping [("hp", .int 1)])
          ∧ ¬ merged.Agrees next := by
  intro full base next
  have small : (Value.mapping [("hp", .int 1)]).WellFormed :=
    Value.wellFormed_mapping_nil.insert "hp" (.int 1)
  have hb : base.WellFormed := wellFormed_empty.putSlot _ _ (small.insert "mp" (.int 2))
  have hn : next.WellFormed := hb.putSlot _ _ small
  refine ⟨hb, hn, fun name h => absurd h List.not_mem_nil, rfl, rfl, base, rfl, rfl, rfl, ?_⟩
  intro agrees
  have there : base.lookup ["variables", "hero"] = some full := rfl
  obtain ⟨v, hv, same⟩ := Value.exists_of_rel (agrees.lookup ["variables", "hero"]) there
  cases hv
  simp [full, Value.same] at same

end Tabletop
