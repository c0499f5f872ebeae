/-
Tabletop.Proofs.Run.Contest — when the last of several actions on a path
prevails in a batch.

Of the actions of a batch that set one path, the last declared should win.
A batch knows the actions by what each of them changes on the base only. An
action that stores what the base holds changes nothing, and loses to every
other; an action that stores a mapping over a mapping changes fields of it,
and the fields that an earlier action added stay. Under an action that
changes the path as a whole the last one does win (`batch_contested`).

  §1 Actions that set values
  §2 Batches with several actions on a path
-/
import Tabletop.Proofs.Context.Contest
import Tabletop.Proofs.Run.Effect

namespace Tabletop

open Context Traced Value

/-! ## §1 Actions that set values -/

/-- A path without templates and blanks around it is resolved to itself. -/
theorem Context.resolvePath_of_plain {c : Context} {path : String}
    (engine : c.resolver = .expressions) (plain : hasMarkers path = false)
    (trimmed : trim path = path) : (c.resolvePath path).outcome = .ok path := by
  refine outcome_bind_eq_ok.mpr ⟨.text path, ?_, congrArg Except.ok trimmed⟩
  unfold resolveTemplate
  rw [engine]
  simp only [Resolver.expressions, Tabletop.resolveTemplate, plain]
  rfl

namespace Frame

variable {f : Frame} {a last : Action} {base merged : Context} {path : String}

/-- An action that sets a value stores it converted. -/
theorem outcome_runAction_of_stores {written : String} {v u w : Value} {state : SlotState}
    {next : Context} (read : Command.ofAction a = .ok (some (.setValue written v)))
    (resolved : (base.resolvePath written).outcome = .ok path)
    (value : base.resolveValue v = .ok u)
    (coerced : f.flow.coerceFor f.engine.catalog f.engine.make path u = .ok (w, state))
    (step : base.setTagged path w state = .ok next) :
    (f.runAction a base).outcome = .ok (next, [⟨a.kind, a.payload⟩]) := by
  have stored : (f.store base path u).outcome = .ok next :=
    outcome_store_eq_ok.mpr ⟨w, state, coerced, step⟩
  have set : (f.setValue base written v).outcome = .ok next := by
    refine outcome_bind_eq_ok.mpr ⟨path, resolved, outcome_bind_eq_ok.mpr ⟨u, ?_, stored⟩⟩
    rw [value]
    rfl
  have carried : (f.carryOut a base (.setValue written v)).outcome
      = .ok (next, ⟨a.kind, a.payload⟩) := outcome_bind_eq_ok.mpr ⟨next, set, rfl⟩
  refine outcome_bind_eq_ok.mpr ⟨some (.setValue written v), read, ?_⟩
  exact outcome_bind_eq_ok.mpr ⟨_, outcome_during_eq_ok.mpr carried, rfl⟩

/-- What an action that sets a value makes of a context is one write. -/
theorem writtenAt_of_sets {next : Context} {notices : List Notice} (sets : a.Sets base path)
    (h : (f.runAction a base).outcome = .ok (next, notices)) :
    base.WrittenAt (Path.split path) next := by
  obtain ⟨_, w, state, _, step⟩ := stored_of_sets sets h
  exact ⟨state, w, step⟩

/-! ## §2 Batches with several actions on a path -/

/-- What a batch is made of comes from its first actions and from the rest of them. -/
theorem Branched.split {few more : List Action} {nexts : List Context}
    (h : f.Branched base (few ++ more) nexts) :
    ∃ earlier later, nexts = earlier ++ later ∧ f.Branched base few earlier
      ∧ f.Branched base more later := by
  induction few generalizing nexts with
  | nil => exact ⟨[], nexts, rfl, .nil, h⟩
  | cons a few ih =>
    cases h with
    | cons one others =>
      obtain ⟨earlier, later, rfl, first, rest⟩ := ih others
      exact ⟨_ :: earlier, later, rfl, .cons one first, rest⟩

/-- If actions of a batch set a path, and no action of it sets a path above or below, the batch
stores there what the last of these actions stores by itself, exactly if what that action changes
on the base prevails over the batch of the actions before it. The base has room for the path. -/
theorem batch_contested {few more : List Action} (hb : base.WellFormed)
    (wf : ∀ a ∈ few ++ last :: more, ∀ next notices,
      (f.runAction a base).outcome = .ok (next, notices) → next.WellFormed)
    (hosts : base.Hosts (Path.split path))
    (before : ∀ a ∈ few, ∃ other, a.Sets base other
      ∧ (Path.split other = Path.split path ∨ (Path.split other).Incomparable (Path.split path)))
    (target : last.Sets base path)
    (after : ∀ a ∈ more, ∃ other, a.Sets base other
      ∧ (Path.split other).Incomparable (Path.split path))
    (ok : (f.runBatch (few ++ last :: more) base).outcome = .ok merged) :
    ∃ early next notices, (f.runBatch few base).outcome = .ok early
      ∧ (f.runAction last base).outcome = .ok (next, notices)
      ∧ (SameAs (merged.stored? (Path.split path)) (next.stored? (Path.split path))
          ↔ Prevails base early next (Path.split path)) := by
  obtain ⟨nexts, branched, replayed⟩ := outcome_runBatch_eq_ok.mp ok
  have each : ∀ next ∈ nexts, next.WellFormed := by
    intro next hn
    obtain ⟨a, ha, notices, ran⟩ := branched.of_mem hn
    exact wf a ha next notices ran
  obtain ⟨earlier, _, rfl, first, rest⟩ := branched.split
  cases rest with
  | cons one others =>
    rename_i next later
    obtain ⟨notices, ran⟩ := one
    have others : f.Branched base more later := others
    have sooner : ∀ other ∈ earlier, ∃ q, base.WrittenAt q other
        ∧ (q = Path.split path ∨ q.Incomparable (Path.split path)) := by
      intro other hm
      obtain ⟨a, ha, _, ran⟩ := first.of_mem hm
      obtain ⟨path, sets, place⟩ := before a ha
      exact ⟨_, writtenAt_of_sets sets ran, place⟩
    have aside : ∀ other ∈ later, ∃ q, base.WrittenAt q other
        ∧ q.Incomparable (Path.split path) := by
      intro other hm
      obtain ⟨a, ha, _, ran⟩ := others.of_mem hm
      obtain ⟨path, sets, place⟩ := after a ha
      exact ⟨_, writtenAt_of_sets sets ran, place⟩
    obtain ⟨early, merged_first, wins⟩ :=
      merge_contested hb each hosts sooner (writtenAt_of_sets target ran) aside replayed
    exact ⟨early, next, notices, outcome_runBatch_eq_ok.mpr ⟨earlier, first, merged_first⟩, ran,
      wins⟩

/-- A flow that returns a score. -/
def contest : Frame where
  engine := { catalog := {} }
  flow := { id := "contest", outputs := [{ id := "score", typeName := "int" }] }
  depth := 0

/-- The action that sets the score. -/
def scoreAction (n : Int) : Action :=
  ⟨"set_value", .mapping [("path", .text "outputs.score"), ("value", .int n)]⟩

/-- The context with a score. -/
def scored (n : Int) : Context := Context.empty.putSlot "outputs" "score" ⟨.int n, .plain⟩

theorem scoreAction_sets (m n : Int) : (scoreAction n).Sets (scored m) "outputs.score" :=
  ⟨"outputs.score", .int n, by rfl, resolvePath_of_plain rfl (by rfl) (by rfl)⟩

theorem scoreAction_stores (m : Int) {n : Int}
    (coerced : contest.flow.coerceFor contest.engine.catalog contest.engine.make "outputs.score"
      (.int n) = .ok (.int n, .plain)) :
    (contest.runAction (scoreAction n) (scored m)).outcome
      = .ok (scored n, [⟨"set_value", (scoreAction n).payload⟩]) :=
  outcome_runAction_of_stores (by rfl) (resolvePath_of_plain rfl (by rfl) (by rfl)) (by rfl)
    coerced (by rfl)

theorem wellFormed_scored (n : Int) : (scored n).WellFormed :=
  wellFormed_empty.putSlot "outputs" "score" (.int n)

/-- The last of two actions that set another score than there was prevails. -/
theorem contest_keeps_last_score :
    ∃ merged, (contest.runBatch [scoreAction 7, scoreAction 9] (scored 5)).outcome = .ok merged
      ∧ SameAs (merged.stored? (Path.split "outputs.score")) (some (.int 9)) := by
  have first := scoreAction_stores 5 (n := 7) (by rfl)
  have second := scoreAction_stores 5 (n := 9) (by rfl)
  have sets := scoreAction_sets 5 9
  have path : Path.split "outputs.score" = ["outputs", "score"] := by rfl
  have hosts : (scored 5).Hosts (Path.split "outputs.score") :=
    hosts_of_short (by rw [path]; decide)
  have wf : ∀ a ∈ [scoreAction 7] ++ scoreAction 9 :: [], ∀ next notices,
      (contest.runAction a (scored 5)).outcome = .ok (next, notices) → next.WellFormed := by
    intro a ha next notices ran
    rcases List.mem_pair.mp ha with rfl | rfl
    · rw [first] at ran
      cases ran
      exact wellFormed_scored 7
    · rw [second] at ran
      cases ran
      exact wellFormed_scored 9
  have before : ∀ a ∈ [scoreAction 7], ∃ other, a.Sets (scored 5) other
      ∧ (Path.split other = Path.split "outputs.score"
        ∨ (Path.split other).Incomparable (Path.split "outputs.score")) := by
    intro a ha
    rw [List.mem_singleton.mp ha]
    exact ⟨"outputs.score", scoreAction_sets 5 7, Or.inl rfl⟩
  have ran : (contest.runBatch ([scoreAction 7] ++ scoreAction 9 :: []) (scored 5)).outcome
      = .ok (scored 9) :=
    outcome_runBatch_eq_ok.mpr ⟨_, .cons ⟨_, first⟩ (.cons ⟨_, second⟩ .nil), by rfl⟩
  obtain ⟨early, next, notices, _, alone, wins⟩ :=
    batch_contested (wellFormed_scored 5) wf hosts before sets (by simp) ran
  rw [second] at alone
  cases alone
  have written := writtenAt_of_sets sets second
  have whole : .write (Path.split "outputs.score") (.int 9) ∈ (scored 9).changesSince (scored 5) :=
    List.mem_singleton.mpr (by rw [path])
  have room : early.Admits (Path.split "outputs.score") := by
    rw [path]
    exact (early.opened "outputs" "score").value.admits_nil
  refine ⟨scored 9, ran, wins.mpr (prevails_of_write ?_ ?_ whole room)⟩
  · exact fun q v hw => written.reaches (wellFormed_scored 9) hosts hw
  · exact written.apart (wellFormed_scored 5) (wellFormed_scored 9)

/-- An action that sets the score that there was loses to the one before it. -/
theorem contest_keeps_first_score :
    (∀ n, (scoreAction n).Sets (scored 5) "outputs.score") ∧
      ∃ merged next notices,
        (contest.runBatch [scoreAction 7, scoreAction 5] (scored 5)).outcome = .ok merged
        ∧ (contest.runAction (scoreAction 5) (scored 5)).outcome = .ok (next, notices)
        ∧ merged.get "outputs.score" = some (.int 7)
        ∧ next.get "outputs.score" = some (.int 5) := by
  have first := scoreAction_stores 5 (n := 7) (by rfl)
  have second := scoreAction_stores 5 (n := 5) (by rfl)
  refine ⟨scoreAction_sets 5, scored 7, _, _, ?_, second, by rfl, by rfl⟩
  exact outcome_runBatch_eq_ok.mpr ⟨_, .cons ⟨_, first⟩ (.cons ⟨_, second⟩ .nil), by rfl⟩

end Frame

end Tabletop
