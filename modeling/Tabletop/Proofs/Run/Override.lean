/-
Tabletop.Proofs.Run.Override — what a step leaves as its override.

The body of a step notes an override if the player chooses an option that
names a step to go on with. But the override is kept in the context, where
actions and the outputs of flows can be written too. If none of these
deeds meets the override, the body leaves there what the player has chosen,
or what was there before.

  §1 Contexts with the same override
  §2 Actions in rounds
  §3 What bodies leave
-/
import Tabletop.Proofs.Run.Data
import Tabletop.Proofs.Run.Deed
import Tabletop.Proofs.Run.Origin

namespace Tabletop

open Traced

namespace Frame

variable {f : Frame} {caller : Caller} {step : Step} {c d e : Context} {s t : Session}

/-! ## §1 Contexts with the same override -/

/-- The override of the step reads the same in both contexts. -/
def SameOverride (step : Step) (c d : Context) : Prop :=
  d.lookup step.overridePath = c.lookup step.overridePath

theorem SameOverride.trans (h : SameOverride step c d) (k : SameOverride step d e) :
    SameOverride step c e := Eq.trans k h

/-- Writes that do not meet the override leave it. -/
theorem SameOverride.of_editsAt {P : Path → Prop} (h : c.EditsAt P d)
    (apart : ∀ p, P p → p.Diverges step.overridePath) : SameOverride step c d := by
  obtain ⟨entry, rest, path⟩ := step.overridePath_eq
  unfold SameOverride
  rw [path] at apart ⊢
  exact h.lookup apart

theorem SameOverride.of_deed {deed : Deed} (h : c.EditsAt (deed.WritesAt f c) d)
    (aside : ¬ deed.Meets f c step.overridePath) : SameOverride step c d := by
  refine .of_editsAt h fun p here => ?_
  by_contra meets
  exact aside ⟨p, here, meets⟩

theorem SameOverride.of_put {path : String} {v : Value} (h : (c.put path v).outcome = .ok d)
    (apart : (Path.split path).Diverges step.overridePath) : SameOverride step c d :=
  Context.lookup_write_of_diverges (Context.outcome_writeTraced_eq_ok.mp h) apart

/-- What begins with another name than that of the namespace of steps does not meet an override. -/
theorem diverges_overridePath_of_root {root : String} {rest : Path} (other : root ≠ "steps") :
    Path.Diverges (root :: rest) step.overridePath := by
  obtain ⟨entry, more, path⟩ := step.overridePath_eq
  have no_position : Path.index? "steps" = none := by decide
  rw [path]
  exact .here ⟨other, fun same => same.trans no_position⟩

theorem sameOverride_putOwn (suffix : String) (own : suffix ∈ resultNames) {v : Value}
    (h : (c.put (step.place ++ suffix) v).outcome = .ok d) : SameOverride step c d :=
  .of_put h (step.diverges_overridePath own)

theorem sameOverride_putResult {v : Value}
    (h : (c.put s!"{step.place}.result" v).outcome = .ok d) : SameOverride step c d :=
  sameOverride_putOwn ".result" (by decide) h

theorem sameOverride_putAlias {path name : String} {v : Value} (named : Path.split path = [name])
    (other : name ≠ "steps") (h : (c.put path v).outcome = .ok d) : SameOverride step c d := by
  refine .of_put h ?_
  rw [named]
  exact diverges_overridePath_of_root other

theorem sameOverride_exposeResult {name : String} (named : Path.split name = [name])
    (other : name ≠ "steps") (h : (exposeResult step name c).outcome = .ok d) :
    SameOverride step c d := by
  unfold exposeResult at h
  split at h
  · exact sameOverride_putAlias named other h
  · cases h
    rfl

/-! ## §2 Actions in rounds -/

/-- Actions of which none meets the override leave it. -/
theorem sameOverride_runActions {actions : List Action}
    (h : (f.runActions actions c).outcome = .ok d)
    (aside : ∀ e a, f.ActsOn actions c e a → ¬ (Deed.act a).Meets f e step.overridePath) :
    SameOverride step c d := by
  induction actions generalizing c with
  | nil =>
    cases h
    rfl
  | cons a rest ih =>
    obtain ⟨m, notices, ran, h⟩ := outcome_runActions_cons h
    have first : SameOverride step c m := .of_deed (editsAt_runAction ran) (aside c a .here)
    exact first.trans (ih h fun e b acts => aside e b (.later ran acts))

theorem sameOverride_rounds {α : Type} {prepare : α → Context → Run Context}
    {actions : α → List Action} {xs : List α}
    (quiet : ∀ x c d, (prepare x c).Gives d → SameOverride step c d)
    (h : f.rounds prepare actions xs c s = (.ok d, t))
    (aside : ∀ e a, f.RoundActs prepare actions xs c s e a →
      ¬ (Deed.act a).Meets f e step.overridePath) : SameOverride step c d := by
  induction xs generalizing c s with
  | nil =>
    cases h
    rfl
  | cons x rest ih =>
    obtain ⟨m, u, prepared, h⟩ := Run.bind_apply_eq_ok h
    obtain ⟨n, v, ran, h⟩ := Run.bind_apply_eq_ok h
    have ready : SameOverride step c m := quiet x c m ⟨s, u, prepared⟩
    have acted : SameOverride step m n :=
      sameOverride_runActions (Run.gives_traced ⟨u, v, ran⟩)
        fun e a acts => aside e a (.here prepared acts)
    exact (ready.trans acted).trans
      (ih h fun e a acts => aside e a (.later prepared ran acts))

theorem sameOverride_rollForItem {expression item : Value}
    (h : (rollForItem step expression item c).Gives d) : SameOverride step c d := by
  obtain ⟨c₁, h₁, h⟩ := Run.gives_bind h
  obtain ⟨c₂, h₂, h⟩ := Run.gives_bind h
  obtain ⟨rolled, _, h⟩ := Run.gives_bind h
  obtain ⟨c₃, h₃, h⟩ := Run.gives_bind h
  have item_kept : SameOverride step c c₁ :=
    sameOverride_putOwn ".item" (by decide) (Run.gives_lift h₁)
  have item_named : SameOverride step c₁ c₂ :=
    sameOverride_putAlias (by rfl) (by decide) (Run.gives_lift h₂)
  have result_kept : SameOverride step c₂ c₃ := sameOverride_putResult (Run.gives_lift h₃)
  exact ((item_kept.trans item_named).trans result_kept).trans
    (sameOverride_putAlias (by rfl) (by decide) (Run.gives_lift h))

theorem sameOverride_pickFrom {target : TableTarget} (h : (f.pickFrom step target c).Gives d) :
    SameOverride step c d := by
  unfold pickFrom at h
  split at h
  · exact absurd h Run.not_gives_fail
  · obtain ⟨t, _, h⟩ := Run.gives_bind h
    split at h
    · exact absurd h Run.not_gives_fail
    · obtain ⟨rolled, _, h⟩ := Run.gives_bind h
      obtain ⟨entry, _, h⟩ := Run.gives_bind h
      obtain ⟨m, kept, h⟩ := Run.gives_bind h
      exact (sameOverride_putResult (Run.gives_lift kept)).trans
        (sameOverride_putAlias (by rfl) (by decide) (Run.gives_lift h))

theorem sameOverride_storeOutputs {outputs : Fields} {paths : Entries String}
    (h : (f.storeOutputs outputs paths c).outcome = .ok d)
    (aside : ∀ e path, f.StoresOn outputs paths c e path →
      ¬ (Deed.keep path).Meets f e step.overridePath) : SameOverride step c d := by
  induction paths generalizing c with
  | nil =>
    cases h
    rfl
  | cons entry rest ih =>
    obtain ⟨output, path⟩ := entry
    unfold storeOutputs at h
    cases hv : Entries.get? outputs output with
    | none =>
      simp only [hv] at h
      exact ih h fun e other stores => aside e other (.absent hv stores)
    | some v =>
      simp only [hv] at h
      obtain ⟨m, stored, others⟩ := outcome_bind_eq_ok.mp h
      obtain ⟨w, state, _, written⟩ := outcome_store_eq_ok.mp stored
      have kept : c.EditsAt ((Deed.keep path).WritesAt f c) m := .write .refl rfl written
      have first : SameOverride step c m := .of_deed kept (aside c path (.here hv))
      exact first.trans (ih others fun e other stores => aside e other (.later hv stored stores))

/-! ## §3 What bodies leave -/

/-- Nothing that the body does meets the override. -/
def DoesAside (f : Frame) (caller : Caller) (step : Step) (c : Context) (s : Session)
    (kind : StepKind) : Prop :=
  ∀ e deed, f.Does caller step c s kind e deed → ¬ deed.Meets f e step.overridePath

/-- What the player has chosen is the override; if nothing has been, the override is what it was. -/
def Leaves (f : Frame) (step : Step) (c : Context) (s : Session) (kind : StepKind)
    (d : Context) : Prop :=
  (∃ id, f.Directs c s kind id ∧ d.lookup step.overridePath = some (.text id)) ∨
    (∀ id, ¬ f.Directs c s kind id) ∧ SameOverride step c d

theorem Leaves.trans {kind : StepKind} (h : f.Leaves step c s kind d)
    (k : SameOverride step d e) : f.Leaves step c s kind e := by
  rcases h with ⟨id, directs, noted⟩ | ⟨free, same⟩
  · exact Or.inl ⟨id, directs, Eq.trans k noted⟩
  · exact Or.inr ⟨free, same.trans k⟩

theorem sameOverride_diceRoll {roll : Option Value} (h : (diceRoll step roll c).Gives d) :
    SameOverride step c d := by
  unfold diceRoll at h
  split at h
  · exact absurd h Run.not_gives_fail
  · obtain ⟨rolled, _, h⟩ := Run.gives_bind h
    exact sameOverride_putResult (Run.gives_lift h)

theorem sameOverride_playerInput (h : (playerInput step c).Gives d) : SameOverride step c d := by
  obtain ⟨_, _, h⟩ := Run.gives_bind h
  obtain ⟨_, _, h⟩ := Run.gives_bind h
  exact sameOverride_putResult (Run.gives_lift h)

theorem sameOverride_nameGeneration {settings : NameSettings}
    (h : (f.nameGeneration step settings c).Gives d) : SameOverride step c d := by
  obtain ⟨_, _, h⟩ := Run.gives_bind h
  obtain ⟨_, _, h⟩ := Run.gives_bind h
  obtain ⟨_, _, h⟩ := Run.gives_bind h
  obtain ⟨_, _, h⟩ := Run.gives_bind h
  obtain ⟨_, _, h⟩ := Run.gives_bind h
  exact sameOverride_putResult (Run.gives_lift h)

theorem sameOverride_llmGeneration {request : LlmRequest}
    (h : (f.llmGeneration step request c).Gives d) : SameOverride step c d := by
  unfold llmGeneration at h
  split at h
  · exact absurd h Run.not_gives_fail
  · obtain ⟨_, _, h⟩ := Run.gives_bind h
    obtain ⟨_, _, h⟩ := Run.gives_bind h
    obtain ⟨_, _, h⟩ := Run.gives_bind h
    exact sameOverride_putResult (Run.gives_lift h)

theorem sameOverride_diceSequence {sequence : Option DiceSequence}
    (h : f.diceSequence step sequence c s = (.ok d, t))
    (aside : f.DoesAside caller step c s (.diceSequence sequence)) : SameOverride step c d := by
  cases sequence with
  | none => exact absurd ⟨_, _, h⟩ Run.not_gives_fail
  | some sequence =>
    unfold diceSequence at h
    obtain ⟨items, u, listed, h⟩ := Run.bind_apply_eq_ok h
    cases items with
    | list items =>
      cases items with
      | nil => exact absurd ⟨_, _, h⟩ Run.not_gives_fail
      | cons first rest =>
        cases rolls : presentSetting? sequence.roll with
        | none =>
          simp only [rolls] at h
          exact absurd ⟨_, _, h⟩ Run.not_gives_fail
        | some expression =>
          simp only [rolls, rollForItems_eq] at h
          exact sameOverride_rounds (fun _ _ _ => sameOverride_rollForItem) h
            fun e a acts => aside e (.act a) (.item listed rolls acts)
    | _ => exact absurd ⟨_, _, h⟩ Run.not_gives_fail

theorem sameOverride_tableRoll {targets : List TableTarget}
    (h : f.tableRoll step targets c s = (.ok d, t))
    (aside : f.DoesAside caller step c s (.tableRoll targets)) : SameOverride step c d := by
  unfold tableRoll at h
  split at h
  · exact absurd ⟨_, _, h⟩ Run.not_gives_fail
  · rw [rollOnTables_eq] at h
    exact sameOverride_rounds (fun _ _ _ => sameOverride_pickFrom) h
      fun e a acts => aside e (.act a) (.picked acts)

theorem sameOverride_flowCall {call : FlowCall}
    (h : f.flowCall caller step call c s = (.ok d, t))
    (aside : f.DoesAside caller step c s (.flowCall call)) : SameOverride step c d := by
  rw [flowCall_eq] at h
  obtain ⟨sub, u, entered, h⟩ := Run.bind_apply_eq_ok h
  obtain ⟨outputs, v, ran, h⟩ := Run.bind_apply_eq_ok h
  obtain ⟨m, recorded, h⟩ := Run.gives_bind ⟨_, _, h⟩
  obtain ⟨n, kept, h⟩ := Run.gives_bind h
  have elsewhere : Path.Diverges ["sub_flows"] step.overridePath :=
    diverges_overridePath_of_root (by decide)
  have began : SameOverride step c sub.context := lookup_enter ⟨_, _, entered⟩ elsewhere
  have noted : SameOverride step sub.context m :=
    lookup_put_root (Run.gives_lift recorded) (split_place_of_enter ⟨_, _, entered⟩ ".outputs")
      elsewhere
  have result : SameOverride step m n := sameOverride_putResult (Run.gives_lift kept)
  refine ((began.trans noted).trans result).trans ?_
  exact sameOverride_storeOutputs (Run.gives_lift h) fun e path stores => aside e (.keep path)
    (.returned entered (Run.inSubFlow_eq_ok ran) (Run.gives_lift recorded) (Run.gives_lift kept)
      stores)

theorem sameOverride_conditionalBranch {branch : Branch}
    (h : (f.conditionalBranch step branch c).outcome = .ok d)
    (aside : f.DoesAside caller step c s (.conditionalBranch branch)) : SameOverride step c d := by
  obtain ⟨m, branched, h⟩ := outcome_bind_eq_ok.mp h
  obtain ⟨actions, taken, ran⟩ := outcome_takeBranch branched
  have inside : SameOverride step c m :=
    sameOverride_runActions ran fun e a acts => aside e (.act a) (.arm taken acts)
  exact inside.trans
    (sameOverride_runActions h fun e a acts => aside e (.act a) (.after branched acts))

theorem sameOverride_selectSeveral {source : Option ChoiceSource} {count : Nat}
    {selection : Value} (h : (f.selectSeveral step source count selection c).outcome = .ok d) :
    SameOverride step c d := by
  obtain ⟨_, _, h⟩ := outcome_bind_eq_ok.mp h
  obtain ⟨_, _, h⟩ := outcome_bind_eq_ok.mp h
  obtain ⟨m, kept, h⟩ := outcome_bind_eq_ok.mp h
  obtain ⟨n, named, h⟩ := outcome_bind_eq_ok.mp h
  have results : SameOverride step c m := sameOverride_putOwn ".results" (by decide) kept
  exact (results.trans (sameOverride_putAlias (by rfl) (by decide) named)).trans
    (sameOverride_putResult h)

/-- The override that is noted is read. -/
theorem lookup_putOverride {id : String} (shown : c.Unhidden)
    (h : (c.put s!"{step.place}.next_step_override" (.text id)).outcome = .ok d) :
    d.lookup step.overridePath = some (.text id) := by
  obtain ⟨entry, rest, path⟩ := step.overridePath_eq
  have written := Context.outcome_writeTraced_eq_ok.mp h
  change c.write .plain (.text id) step.overridePath = .ok d at written
  rw [path] at written ⊢
  have read := Context.lookup_write_self written (shown "steps" (by decide)) []
  rwa [List.append_nil] at read

theorem leaves_selectOne {choices shown : List Value} {source : Option ChoiceSource}
    {selection : Value} (unhidden : c.Unhidden)
    (offered : (f.offered choices source c).outcome = .ok shown)
    (answers : s.host.answers.map Script.next = some (.ok selection))
    (single : ∀ x, source = some x → x.count ≤ 1)
    (h : (f.selectOne step source shown selection c).outcome = .ok d)
    (aside : f.DoesAside caller step c s (.playerChoice choices source)) :
    f.Leaves step c s (.playerChoice choices source) d := by
  unfold selectOne at h
  obtain ⟨v, stands, h⟩ := outcome_bind_eq_ok.mp h
  obtain ⟨m, kept, h⟩ := outcome_bind_eq_ok.mp h
  obtain ⟨n, named, h⟩ := outcome_bind_eq_ok.mp h
  obtain ⟨found, read, h⟩ := outcome_bind_eq_ok.mp h
  have before : SameOverride step c n :=
    (sameOverride_putResult kept).trans (sameOverride_putAlias (by rfl) (by decide) named)
  cases found with
  | none =>
    cases h
    refine Or.inr ⟨?_, before⟩
    rintro id ⟨chooses, _, _⟩
    obtain ⟨shown', offered', found⟩ := chooses.found
    cases answers.symm.trans chooses.answered
    rw [offered] at offered'
    cases offered'
    cases read.symm.trans found
  | some o =>
    obtain ⟨k, acted, h⟩ := outcome_bind_eq_ok.mp h
    have chooses : f.Chooses c s choices source selection o :=
      ⟨single, answers, shown, offered, read⟩
    have during : SameOverride step n k := sameOverride_runActions acted fun e a acts =>
      aside e (.act a) (.chosen chooses stands kept named acts)
    cases next : o.nextStep.filter fun id => !isBlankText id with
    | none =>
      simp only [next] at h
      cases h
      refine Or.inr ⟨?_, before.trans during⟩
      rintro id ⟨chooses', named', written⟩
      obtain ⟨rfl, rfl⟩ := chooses.unique chooses'
      simp [named', written] at next
    | some id =>
      simp only [next] at h
      obtain ⟨goes, written⟩ := Option.filter_eq_some_iff.mp next
      have placed : c.Edits n := .set (.set .refl (Context.outcome_writeTraced_eq_ok.mp kept))
        (Context.outcome_writeTraced_eq_ok.mp named)
      have goes_on := goes_runActions acted
      exact Or.inl ⟨id, .option chooses goes (by simpa using written),
        lookup_putOverride (goes_on.unhidden (placed.unhidden unhidden)) h⟩

/-- What the type of the step does leaves what the player has chosen. -/
theorem leaves_perform {kind : StepKind} (unhidden : c.Unhidden)
    (h : f.perform caller step c kind s = (.ok d, t)) (aside : f.DoesAside caller step c s kind) :
    f.Leaves step c s kind d := by
  have undirected : (∀ choices source, kind ≠ .playerChoice choices source) →
      SameOverride step c d → f.Leaves step c s kind d := by
    intro other same
    refine Or.inr ⟨?_, same⟩
    rintro id ⟨_, _, _⟩
    exact other _ _ rfl
  cases kind with
  | completion => exact undirected nofun (sameOverride_putResult (Run.gives_lift ⟨_, _, h⟩))
  | diceRoll roll => exact undirected nofun (sameOverride_diceRoll ⟨_, _, h⟩)
  | diceSequence sequence => exact undirected nofun (sameOverride_diceSequence h aside)
  | tableRoll targets => exact undirected nofun (sameOverride_tableRoll h aside)
  | playerInput => exact undirected nofun (sameOverride_playerInput ⟨_, _, h⟩)
  | nameGeneration settings => exact undirected nofun (sameOverride_nameGeneration ⟨_, _, h⟩)
  | llmGeneration request => exact undirected nofun (sameOverride_llmGeneration ⟨_, _, h⟩)
  | flowCall call => exact undirected nofun (sameOverride_flowCall h aside)
  | conditionalBranch branch =>
    exact undirected nofun (sameOverride_conditionalBranch (Run.gives_lift ⟨_, _, h⟩) aside)
  | unknown =>
    obtain ⟨_, _, h⟩ := Run.gives_bind ⟨_, _, h⟩
    refine undirected nofun ?_
    rw [Run.gives_pure h]
    rfl
  | playerChoice choices source =>
    obtain ⟨shown, selection, offered, answers, ⟨x, rfl, several, h⟩ | ⟨single, h⟩⟩ :=
      selects_of_playerChoice h
    · refine Or.inr ⟨?_, sameOverride_selectSeveral h⟩
      rintro id ⟨chooses, _, _⟩
      exact absurd (chooses.single x rfl) (Nat.not_le_of_lt several)
    · exact leaves_selectOne unhidden offered answers single h aside

/-- The body of a step leaves what the player has chosen as the override, or it leaves the override
as it was, unless something that it does meets it. -/
theorem leaves_stepBody {kind : StepKind} (unhidden : c.Unhidden)
    (h : f.stepBody caller step kind c s = (.ok d, t)) (aside : f.DoesAside caller step c s kind) :
    f.Leaves step c s kind d := by
  obtain ⟨c₁, s₁, performed, h⟩ := Run.bind_apply_eq_ok h
  obtain ⟨c₂, result, h⟩ := Run.gives_bind ⟨_, _, h⟩
  obtain ⟨c₃, item, h⟩ := Run.gives_bind h
  have result := Run.gives_lift result
  have item := Run.gives_lift item
  have exposed : SameOverride step c₁ c₃ :=
    (sameOverride_exposeResult (by rfl) (by decide) result).trans
      (sameOverride_exposeResult (by rfl) (by decide) item)
  refine ((leaves_perform unhidden performed aside).trans exposed).trans ?_
  split at h
  · rw [Run.gives_pure h]
    rfl
  · rename_i whole
    have whole : ∀ branch, kind ≠ .conditionalBranch branch := fun branch same =>
      whole branch same
    have h := Run.gives_lift h
    unfold stepActions at h
    split at h
    · cases h
      rfl
    · split at h
      · rename_i parallel
        exact .of_deed (editsAt_runBatch h)
          (aside c₃ (.batch step.actions) (.together whole performed result item parallel))
      · rename_i inOrder
        exact sameOverride_runActions h fun e a acts => aside e (.act a)
          (.own whole performed result item (Bool.not_eq_true _ ▸ inOrder) acts)

end Frame

end Tabletop
