/-
Tabletop.Proofs.Run.Asked — what is asked of the host.

Requests to the host are reported when they are made, so the log tells what
the host has been asked, and in what order. Contexts and actions ask nothing
of it: they report warnings, messages, and what actions announce. Between
two requests a session is silent.

  §1 Requests in the log
  §2 Contexts
  §3 Actions
-/
import Tabletop.Proofs.Run.Attempts

namespace Tabletop

/-! ## §1 Requests in the log -/

/-- Something is asked of the host. -/
def Event.asks : Event → Bool
  | .asked .. | .rolled _ | .openedCorpus .. | .generatedName .. | .prompted .. => true
  | _ => false

/-- The expression that the dice are asked for. -/
def Event.rolled? : Event → Option String
  | .rolled expression => some expression
  | _ => none

/-- The expressions that the dice have been asked for, in order. -/
def Session.rolls (s : Session) : List String := s.log.reverse.filterMap Event.rolled?

/-- From the first session to the second nothing is asked of the host. -/
def Session.Silent (s t : Session) : Prop :=
  ∃ events : List Event, (∀ e ∈ events, e.asks = false) ∧ t = s.reported events

/-- The computation asks nothing of the host. -/
def Traced.AsksNothing {α : Type} (t : Traced α) : Prop := ∀ e ∈ t.events, e.asks = false

namespace Session

variable {s t u : Session}

theorem reported_append (s : Session) (events more : List Event) :
    s.reported (events ++ more) = (s.reported events).reported more := by
  simp [reported]

theorem Silent.trans (first : s.Silent t) (later : t.Silent u) : s.Silent u := by
  obtain ⟨events, quiet, rfl⟩ := first
  obtain ⟨more, quiet', rfl⟩ := later
  refine ⟨events ++ more, fun e he => ?_, (reported_append s events more).symm⟩
  exact (List.mem_append.mp he).elim (quiet e) (quiet' e)

theorem Silent.host (h : s.Silent t) : t.host = s.host := by
  obtain ⟨events, _, rfl⟩ := h
  rfl

theorem Silent.rolls (h : s.Silent t) : t.rolls = s.rolls := by
  obtain ⟨events, quiet, rfl⟩ := h
  have none_rolled : events.filterMap Event.rolled? = [] := by
    refine List.filterMap_eq_nil_iff.mpr fun e he => ?_
    have unasked := quiet e he
    cases e <;> first | rfl | cases unasked
  simp [Session.rolls, reported, none_rolled]

end Session

namespace Traced

variable {α β : Type} {t : Traced α}

theorem asksNothing_ofExcept (outcome : Except Failure α) : (ofExcept outcome).AsksNothing :=
  fun _ none => absurd none List.not_mem_nil

theorem asksNothing_report {e : Event} (h : e.asks = false) : (report e).AsksNothing := by
  intro e' he
  rwa [List.mem_singleton.mp he]

theorem AsksNothing.bind {next : α → Traced β} (first : t.AsksNothing)
    (later : ∀ a, (next a).AsksNothing) : (t >>= next).AsksNothing := by
  cases outcome : t.outcome with
  | error failure =>
    rw [bind_of_error outcome]
    exact first
  | ok a =>
    rw [bind_of_ok outcome]
    exact fun e he => (List.mem_append.mp he).elim (first e) (later a e)

/-- A traced computation in a run. -/
theorem AsksNothing.silent_traced (h : t.AsksNothing) (s : Session) :
    s.Silent (Run.traced t s).2 := by
  rw [Run.traced_apply]
  exact ⟨t.events, h, rfl⟩

theorem AsksNothing.silent_of_ran (h : t.AsksNothing) {s u : Session} {outcome : Except Stop α}
    (ran : Run.traced t s = (outcome, u)) : s.Silent u := by
  have silent := h.silent_traced s
  rwa [ran] at silent

end Traced

/-! ## §2 Contexts -/

namespace Context

open Traced

theorem asksNothing_writeTraced (c : Context) (state : SlotState) (v : Value) (p : Path) :
    (c.writeTraced state v p).AsksNothing := by
  refine (asksNothing_ofExcept _).bind fun d => AsksNothing.bind ?_ fun _ => asksNothing_ofExcept _
  unfold warnShadowing
  split
  · exact asksNothing_report rfl
  · exact asksNothing_ofExcept _

theorem asksNothing_put (c : Context) (path : String) (v : Value) : (c.put path v).AsksNothing :=
  asksNothing_writeTraced c .plain v _

theorem asksNothing_resolvePath (c : Context) (path : String) :
    (c.resolvePath path).AsksNothing :=
  (asksNothing_ofExcept _).bind fun _ => asksNothing_ofExcept _

theorem asksNothing_resolveText (c : Context) (v : Value) : (c.resolveText v).AsksNothing :=
  (asksNothing_ofExcept _).bind fun _ => asksNothing_ofExcept _

theorem asksNothing_swap (c : Context) (first second : String) :
    (c.swap first second).AsksNothing := by
  refine (asksNothing_resolvePath c first).bind fun _ => ?_
  refine (asksNothing_resolvePath c second).bind fun _ => ?_
  exact (asksNothing_put c _ _).bind fun d => asksNothing_put d _ _

theorem asksNothing_describe (c : Context) (path : String) : (c.describe path).AsksNothing := by
  refine (asksNothing_resolvePath c path).bind fun _ => ?_
  split
  · exact asksNothing_ofExcept _
  · exact (asksNothing_report rfl).bind fun _ => asksNothing_ofExcept _

theorem asksNothing_replay (c : Context) (changes : List Change) :
    (c.replay changes).AsksNothing := by
  induction changes generalizing c with
  | nil => exact asksNothing_ofExcept _
  | cons change rest ih =>
    cases change with
    | write path v => exact (asksNothing_writeTraced c _ _ _).bind fun d => ih d
    | retag space entry state => exact ih _

end Context

/-! ## §3 Actions -/

namespace Frame

open Traced Context

variable (f : Frame) (step : Step)

theorem asksNothing_announce (notices : List Notice) : (announce notices).AsksNothing := by
  intro e he
  obtain ⟨notice, _, rfl⟩ := List.mem_map.mp he
  rfl

theorem asksNothing_carryOut (a : Action) (c : Context) (command : Command) :
    (f.carryOut a c command).AsksNothing := by
  cases command with
  | setValue path v =>
    refine AsksNothing.bind ?_ fun _ => asksNothing_ofExcept _
    refine (asksNothing_resolvePath c path).bind fun _ => ?_
    refine (asksNothing_ofExcept _).bind fun _ => ?_
    exact (asksNothing_ofExcept _).bind fun _ => asksNothing_writeTraced c _ _ _
  | swapValues first second =>
    exact (asksNothing_swap c first second).bind fun _ => asksNothing_ofExcept _
  | logMessage message =>
    refine (asksNothing_resolveText c message).bind fun _ => ?_
    exact (asksNothing_report rfl).bind fun _ => asksNothing_ofExcept _
  | displayMessage message =>
    exact (asksNothing_resolveText c message).bind fun _ => asksNothing_ofExcept _
  | logEvent typeName data =>
    refine (asksNothing_resolveText c typeName).bind fun _ => ?_
    refine (asksNothing_ofExcept _).bind fun _ => ?_
    exact (asksNothing_report rfl).bind fun _ => asksNothing_ofExcept _
  | displayValue path =>
    exact (asksNothing_describe c path).bind fun _ => asksNothing_ofExcept _
  | validateValue path =>
    refine AsksNothing.bind ?_ fun _ => asksNothing_ofExcept _
    refine (asksNothing_resolvePath c path).bind fun _ => ?_
    split
    · exact asksNothing_ofExcept _
    · split
      · exact asksNothing_ofExcept _
      · exact (asksNothing_ofExcept _).bind fun _ => asksNothing_ofExcept _

theorem asksNothing_runAction (a : Action) (c : Context) : (f.runAction a c).AsksNothing := by
  refine (asksNothing_ofExcept _).bind fun command => ?_
  cases command with
  | none => exact (asksNothing_report rfl).bind fun _ => asksNothing_ofExcept _
  | some command =>
    have carried : ((f.carryOut a c command).during (.action a.kind)).AsksNothing :=
      f.asksNothing_carryOut a c command
    exact carried.bind fun _ => asksNothing_ofExcept _

theorem asksNothing_runActions (actions : List Action) (c : Context) :
    (f.runActions actions c).AsksNothing := by
  induction actions generalizing c with
  | nil => exact asksNothing_ofExcept _
  | cons a rest ih =>
    refine (f.asksNothing_runAction a c).bind fun _ => ?_
    exact (asksNothing_announce _).bind fun _ => ih _

theorem asksNothing_batchChanges (base : Context) (actions : List Action) :
    (f.batchChanges base actions).AsksNothing := by
  induction actions with
  | nil => exact asksNothing_ofExcept _
  | cons a rest ih =>
    exact (f.asksNothing_runAction a base).bind fun _ => ih.bind fun _ => asksNothing_ofExcept _

theorem asksNothing_stepActions (c : Context) : (f.stepActions step c).AsksNothing := by
  unfold stepActions
  split
  · exact asksNothing_ofExcept _
  · split
    · refine (f.asksNothing_batchChanges c step.actions).bind fun _ => ?_
      refine (asksNothing_replay c _).bind fun _ => ?_
      exact (asksNothing_announce _).bind fun _ => asksNothing_ofExcept _
    · exact f.asksNothing_runActions step.actions c

theorem asksNothing_exposeResult (name : String) (c : Context) :
    (exposeResult step name c).AsksNothing := by
  unfold exposeResult
  split
  · exact asksNothing_put c _ _
  · exact asksNothing_ofExcept _

end Frame

end Tabletop
