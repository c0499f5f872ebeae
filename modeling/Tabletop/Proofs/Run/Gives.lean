/-
Tabletop.Proofs.Run.Gives — what a run can give.

A run gives a value if it ends with the value in some session. What a
composed run gives was given by its parts, one after the other: sequencing,
traced computations, further attempts, and failures that are renamed on
their way out.

  §1 Sequencing
  §2 Traced computations
  §3 Failures that are renamed, and further attempts
-/
import Tabletop.Run.Dice
import Tabletop.Run.FlowCall
import Tabletop.Run.Retry

namespace Tabletop

namespace Run

variable {α β : Type}

/-! ## §1 Sequencing -/

/-- The run can end with the value. -/
def Gives (x : Run α) (a : α) : Prop := ∃ s t : Session, x s = (.ok a, t)

theorem bind_apply (x : Run α) (next : α → Run β) (s : Session) :
    (x >>= next) s = match x s with
      | (.ok a, t) => next a t
      | (.error e, t) => (.error e, t) := by
  change ExceptT.bind x next s = _
  unfold ExceptT.bind ExceptT.mk
  change (StateT.bind x (ExceptT.bindCont next)) s = _
  unfold StateT.bind
  cases h : x s with
  | mk outcome t =>
    simp only [bind]
    cases outcome <;> rfl

theorem bind_of_ok {x : Run α} {next : α → Run β} {s t : Session} {a : α}
    (h : x s = (.ok a, t)) : (x >>= next) s = next a t := by
  rw [bind_apply, h]

theorem bind_of_error {x : Run α} {next : α → Run β} {s t : Session} {stop : Stop}
    (h : x s = (.error stop, t)) : (x >>= next) s = (.error stop, t) := by
  rw [bind_apply, h]

/-- A run that stops is not gone on with. -/
theorem bind_fst_of_error {x : Run α} {next : α → Run β} {s : Session} {stop : Stop}
    (h : (x s).1 = .error stop) : ((x >>= next) s).1 = .error stop := by
  have ran : x s = (.error stop, (x s).2) := Prod.ext h rfl
  rw [bind_of_error ran]

/-- A run after another one succeeds if both do, one after the other. -/
theorem bind_apply_eq_ok {x : Run α} {next : α → Run β} {s t : Session} {b : β}
    (h : (x >>= next) s = (.ok b, t)) :
    ∃ a m, x s = (.ok a, m) ∧ next a m = (.ok b, t) := by
  rw [bind_apply] at h
  cases hx : x s with
  | mk outcome m =>
    rw [hx] at h
    cases outcome with
    | ok a => exact ⟨a, m, rfl, h⟩
    | error e => cases h

/-- A run after another one stops if one of them does. -/
theorem bind_apply_eq_error {x : Run α} {next : α → Run β} {s t : Session} {stop : Stop}
    (h : (x >>= next) s = (.error stop, t)) :
    x s = (.error stop, t) ∨ ∃ a m, x s = (.ok a, m) ∧ next a m = (.error stop, t) := by
  rw [bind_apply] at h
  cases hx : x s with
  | mk outcome m =>
    rw [hx] at h
    cases outcome with
    | ok a => exact Or.inr ⟨a, m, rfl, h⟩
    | error e =>
      cases h
      exact Or.inl rfl

/-- A run after another one gives what it can give after what the other gives. -/
theorem gives_bind {x : Run α} {next : α → Run β} {b : β} (h : (x >>= next).Gives b) :
    ∃ a, x.Gives a ∧ (next a).Gives b := by
  obtain ⟨s, t, h⟩ := h
  obtain ⟨a, m, first, after⟩ := bind_apply_eq_ok h
  exact ⟨a, ⟨s, m, first⟩, m, t, after⟩

theorem gives_pure {a b : α} (h : (pure a : Run α).Gives b) : b = a := by
  obtain ⟨s, t, h⟩ := h
  cases h
  rfl

theorem not_gives_throw {e : Stop} {a : α} : ¬ (throw e : Run α).Gives a := by
  rintro ⟨s, t, h⟩
  cases h

theorem not_gives_fail {f : Failure} {a : α} : ¬ (fail f : Run α).Gives a := not_gives_throw

/-- A run whose outcome passes a test succeeds with a value that does. -/
theorem exists_of_test {x : Run α} {s : Session} {test : α → Bool}
    (h : (x s).1.toOption.any test = true) : ∃ a t, x s = (.ok a, t) ∧ test a = true := by
  cases hx : x s with
  | mk outcome t =>
    rw [hx] at h
    cases outcome with
    | ok a => exact ⟨a, t, rfl, h⟩
    | error e => cases h

/-! ## §2 Traced computations -/

/-- A traced computation puts its events in front of those before it, and changes nothing else. -/
theorem traced_apply (x : Traced α) (s : Session) :
    traced x s = (x.outcome.mapError fun failure => .failed ⟨failure, none⟩,
      { s with log := x.events.reverse ++ s.log }) := by
  rw [← List.reverseAux_eq]
  obtain ⟨events, outcome⟩ := x
  cases outcome <;> rfl

theorem traced_pure (a : α) : traced (pure a) = pure a := by
  funext s
  rw [traced_apply]
  rfl

theorem traced_fail (failure : Failure) :
    traced (Traced.fail failure : Traced α) = fail failure := by
  funext s
  rw [traced_apply]
  rfl

/-- Traced computations one after the other run as one. -/
theorem traced_bind (t : Traced α) (next : α → Traced β) :
    traced (t >>= next) = traced t >>= fun a => traced (next a) := by
  funext s
  rw [bind_apply, traced_apply, traced_apply]
  obtain ⟨events, outcome⟩ := t
  cases outcome with
  | error failure => rfl
  | ok a =>
    change (_, { s with log := (events ++ (next a).events).reverse ++ s.log }) = traced (next a) _
    rw [traced_apply, List.reverse_append, List.append_assoc]
    rfl

theorem traced_fst_of_error {x : Traced α} {failure : Failure} (h : x.outcome = .error failure)
    (s : Session) : (traced x s).1 = .error (.failed ⟨failure, none⟩) := by
  rw [traced_apply, h]
  rfl

/-- A traced computation stops only if it fails. -/
theorem traced_eq_error {x : Traced α} {s t : Session} {stop : Stop}
    (h : traced x s = (.error stop, t)) :
    ∃ failure, x.outcome = .error failure ∧ stop = .failed ⟨failure, none⟩ := by
  rw [traced_apply] at h
  cases hx : x.outcome with
  | ok a =>
    rw [hx] at h
    cases h
  | error failure =>
    rw [hx] at h
    cases h
    exact ⟨failure, rfl, rfl⟩

/-- A traced computation gives its outcome. -/
theorem gives_traced {x : Traced α} {a : α} (h : (traced x).Gives a) : x.outcome = .ok a := by
  unfold traced at h
  obtain ⟨_, _, h⟩ := gives_bind h
  cases ho : x.outcome with
  | ok b =>
    simp only [ho] at h
    rw [gives_pure h]
  | error f =>
    simp only [ho] at h
    exact absurd h not_gives_fail

/-- A traced computation in a run gives its outcome. -/
theorem gives_lift {x : Traced α} {a : α} (h : (liftM x : Run α).Gives a) : x.outcome = .ok a :=
  gives_traced h

/-! ## §3 Failures that are renamed, and further attempts -/

theorem tryCatch_apply (x : Run α) (handle : Stop → Run α) (s : Session) :
    (tryCatch x handle) s = match x s with
      | (.ok a, t) => (.ok a, t)
      | (.error e, t) => handle e t := by
  change ExceptT.tryCatch x handle s = _
  unfold ExceptT.tryCatch ExceptT.mk
  change (StateT.bind x _) s = _
  unfold StateT.bind
  cases h : x s with
  | mk outcome t =>
    simp only [bind]
    cases outcome <;> rfl

/-- A handler that only fails again does not change what a run gives. -/
theorem gives_tryCatch {x : Run α} {handle : Stop → Run α} {a : α}
    (fails : ∀ e, ¬ (handle e).Gives a) (h : (tryCatch x handle).Gives a) : x.Gives a := by
  obtain ⟨s, t, h⟩ := h
  rw [tryCatch_apply] at h
  cases hx : x s with
  | mk outcome m =>
    rw [hx] at h
    cases outcome with
    | ok b =>
      cases h
      exact ⟨s, t, hx⟩
    | error e => exact absurd ⟨m, t, h⟩ (fails e)

theorem gives_atStep {id : String} {x : Run α} {a : α} (h : (atStep id x).Gives a) :
    x.Gives a := by
  refine gives_tryCatch ?_ h
  intro e
  cases e <;> exact not_gives_throw

theorem map_apply (g : α → β) (x : Run α) (s : Session) :
    (g <$> x) s = ((x s).1.map g, (x s).2) := by
  rw [map_eq_pure_bind, bind_apply]
  obtain ⟨outcome, t⟩ := x s
  cases outcome <;> rfl

/-- What is made of the value does not matter to the attribution of failures. -/
theorem map_atStep (g : α → β) (id : String) (x : Run α) :
    g <$> atStep id x = atStep id (g <$> x) := by
  funext s
  unfold atStep
  rw [map_apply, tryCatch_apply, tryCatch_apply, map_apply]
  obtain ⟨outcome, t⟩ := x s
  cases outcome with
  | ok a => rfl
  | error stop => cases stop <;> rfl

/-- What comes of several attempts comes of one of them. -/
theorem gives_attempts {x : Run α} {again : Stop → Bool}
    {note : (attempt : Nat) → Stop → Session → Session} {a : α} {t : Session} {more done : Nat}
    {s : Session} (h : attempts again note (fun s => x s) more done s = (.ok a, t)) :
    x.Gives a := by
  induction more generalizing done s with
  | zero => exact ⟨s, t, h⟩
  | succ more ih =>
    unfold attempts at h
    cases hx : x s with
    | mk outcome m =>
      simp only [hx] at h
      cases outcome with
      | ok b =>
        cases h
        exact ⟨s, t, hx⟩
      | error e =>
        simp only at h
        split at h
        · exact ih h
        · cases h

/-- What is made of the value does not matter to further attempts. -/
theorem map_attempts (g : α → β) (x : Run α) (again : Stop → Bool)
    (note : (attempt : Nat) → Stop → Session → Session) (more done : Nat) (s : Session) :
    attempts again note (fun s => (g <$> x) s) more done s
      = ((attempts again note (fun s => x s) more done s).1.map g,
          (attempts again note (fun s => x s) more done s).2) := by
  induction more generalizing done s with
  | zero => exact map_apply g x s
  | succ more ih =>
    unfold attempts
    rw [map_apply]
    obtain ⟨outcome, t⟩ := x s
    cases outcome with
    | ok a => rfl
    | error stop =>
      by_cases further : again stop = true
      · simp only [Except.map, further, if_true]
        exact ih (done + 1) _
      · simp only [Except.map, further]
        rfl

theorem map_retrying (g : α → β) (asked : Nat) (task : StepTask) (x : Run α) :
    g <$> retrying asked task x = retrying asked task (g <$> x) := by
  funext s
  rw [map_apply]
  exact (map_attempts g x _ _ _ _ s).symm

theorem gives_retrying {asked : Nat} {task : StepTask} {x : Run α} {a : α}
    (h : (retrying asked task x).Gives a) : x.Gives a := by
  obtain ⟨s, t, h⟩ := h
  exact gives_attempts h

end Run

end Tabletop
