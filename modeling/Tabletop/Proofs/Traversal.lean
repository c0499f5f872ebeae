/-
Tabletop.Proofs.Traversal — computations that may fail, one after the other.

A computation that goes on with the result of another succeeds if both do.
A traversal of a list succeeds with what it gives at the elements, one after
the other, and it fails where it fails at one of them. So whatever holds of
each element and what is made of it holds of the whole.

  §1 Two computations
  §2 Traversals
-/
import Mathlib.Data.List.Forall2

namespace Tabletop

variable {α β ε : Type}

/-! ## §1 Two computations -/

theorem bind_eq_ok_iff {x : Except ε α} {next : α → Except ε β} {b : β} :
    (x >>= next) = .ok b ↔ ∃ a, x = .ok a ∧ next a = .ok b := by
  cases x with
  | error e => simp [bind, Except.bind]
  | ok a => simp [bind, Except.bind]

theorem bind_eq_error_iff {x : Except ε α} {next : α → Except ε β} {e : ε} :
    (x >>= next) = .error e ↔ x = .error e ∨ ∃ a, x = .ok a ∧ next a = .error e := by
  cases x with
  | error other => simp [bind, Except.bind]
  | ok a => simp [bind, Except.bind]

theorem map_eq_ok_iff {x : Except ε α} {f : α → β} {b : β} :
    x.map f = .ok b ↔ ∃ a, x = .ok a ∧ f a = b := by
  cases x with
  | error e => simp [Except.map]
  | ok a => simp [Except.map]

theorem map_eq_error_iff {x : Except ε α} {f : α → β} {e : ε} :
    x.map f = .error e ↔ x = .error e := by
  cases x with
  | error other => simp [Except.map]
  | ok a => simp [Except.map]

/-- A result that passes a test is there. -/
theorem exists_ok_of_any {x : Except ε α} {test : α → Bool} (h : x.toOption.any test = true) :
    ∃ a, x = .ok a ∧ test a = true := by
  cases x with
  | error e => cases h
  | ok a => exact ⟨a, rfl, h⟩

theorem eq_ok_of_toOption {x : Except ε α} {a : α} (h : x.toOption = some a) : x = .ok a := by
  cases x with
  | error e => cases h
  | ok b => rw [Option.some.inj h]

/-! ## §2 Traversals -/

variable {g : α → Except ε β} {xs : List α} {ys : List β}

/-- A traversal succeeds if it does at every element, with what it gives there. -/
theorem mapM_eq_ok_iff : xs.mapM g = .ok ys ↔ List.Forall₂ (fun x y => g x = .ok y) xs ys := by
  induction xs generalizing ys with
  | nil =>
    rw [List.forall₂_nil_left_iff]
    exact ⟨fun h => (Except.ok.inj h).symm, fun h => h ▸ rfl⟩
  | cons x xs ih =>
    rw [List.mapM_cons, bind_eq_ok_iff]
    constructor
    · rintro ⟨y, first, h⟩
      obtain ⟨rest, others, h⟩ := bind_eq_ok_iff.mp h
      cases h
      exact .cons first (ih.mp others)
    · intro h
      cases h with
      | cons first others =>
        exact ⟨_, first, bind_eq_ok_iff.mpr ⟨_, ih.mpr others, rfl⟩⟩

/-- A traversal that succeeds gives what it gives at the elements. -/
theorem mem_of_mapM (h : xs.mapM g = .ok ys) (y : β) : y ∈ ys ↔ ∃ x ∈ xs, g x = .ok y := by
  have each := mapM_eq_ok_iff.mp h
  induction each with
  | nil => simp
  | cons first others ih => simp [ih (mapM_eq_ok_iff.mpr others), first, eq_comm]

/-- A traversal that succeeds does so at each of the elements. -/
theorem exists_of_mapM_ok (h : xs.mapM g = .ok ys) {x : α} (hx : x ∈ xs) :
    ∃ y ∈ ys, g x = .ok y := by
  have each := mapM_eq_ok_iff.mp h
  induction each with
  | nil => exact absurd hx List.not_mem_nil
  | cons first others ih =>
    rcases List.mem_cons.mp hx with rfl | later
    · exact ⟨_, List.mem_cons_self, first⟩
    · obtain ⟨y, hy, given⟩ := ih (mapM_eq_ok_iff.mpr others) later
      exact ⟨y, List.mem_cons_of_mem _ hy, given⟩

/-- A traversal that fails does so at one of the elements. -/
theorem exists_of_mapM_error {e : ε} (h : xs.mapM g = .error e) : ∃ x ∈ xs, g x = .error e := by
  induction xs with
  | nil => cases h
  | cons x xs ih =>
    rw [List.mapM_cons] at h
    rcases bind_eq_error_iff.mp h with fails | ⟨y, _, h⟩
    · exact ⟨x, List.mem_cons_self, fails⟩
    · rcases bind_eq_error_iff.mp h with later | ⟨rest, _, h⟩
      · obtain ⟨z, hz, fails⟩ := ih later
        exact ⟨z, List.mem_cons_of_mem _ hz, fails⟩
      · cases h

/-- A traversal is the same with everything that does the same at the elements. -/
theorem mapM_congr {other : α → Except ε β} (agree : ∀ x ∈ xs, g x = other x) :
    xs.mapM g = xs.mapM other := by
  induction xs with
  | nil => rfl
  | cons x xs ih =>
    rw [List.forall_mem_cons] at agree
    rw [List.mapM_cons, List.mapM_cons, agree.1, ih agree.2]

/-- A traversal goes over what it gives once more, and gives it again, if it does so at each. -/
theorem mapM_again {g : α → Except ε α} {xs ys : List α}
    (again : ∀ x ∈ xs, ∀ y, g x = .ok y → g y = .ok y) (h : xs.mapM g = .ok ys) :
    ys.mapM g = .ok ys := by
  rw [mapM_eq_ok_iff, List.forall₂_same]
  intro y hy
  obtain ⟨x, hx, given⟩ := (mem_of_mapM h y).mp hy
  exact again x hx y given

/-- A traversal that succeeds gives the same with everything that succeeds where it does. -/
theorem mapM_of_agree {other : α → Except ε β} (agree : ∀ x y, g x = .ok y → other x = .ok y)
    (h : xs.mapM g = .ok ys) : xs.mapM other = .ok ys :=
  mapM_eq_ok_iff.mpr ((mapM_eq_ok_iff.mp h).imp agree)

end Tabletop
