/-
Tabletop.Proofs.Run.Data — the data that a step keeps.

A step keeps its data at paths that are its place with a name behind it.
However the id is split, and even if it leaves a bracket open, the name ends
the last segment of such a path, and all segments before are the same for
all names. So the data of a step do not get in each other's way. What is
written to them is read back: no alias hides the namespaces of runs.

  §1 Names at the end of a path
  §2 The override of a step
  §3 Namespaces that no alias hides
-/
import Tabletop.Proofs.Context.ReadBack
import Tabletop.Proofs.Run.Boundary

namespace Tabletop

/-! ## §1 Names at the end of a path -/

/-- What no character of `p` is in stops the trimming. -/
theorem trimWhile_append_of_none {p : Char → Bool} {name : List Char} (hne : name ≠ [])
    (none_in : ∀ c ∈ name, p c = false) (cs : List Char) :
    trimWhile p (cs ++ name) = cs.dropWhile p ++ name := by
  have keep : ∀ xs : List Char, xs ≠ [] → (∀ c ∈ xs, p c = false) → ∀ rest,
      (xs ++ rest).dropWhile p = xs ++ rest := by
    intro xs hx none_of rest
    obtain ⟨x, xs, rfl⟩ := List.exists_cons_of_ne_nil hx
    rw [List.cons_append, List.dropWhile_cons_of_neg (by simp [none_of x List.mem_cons_self])]
  have front : (cs ++ name).dropWhile p = cs.dropWhile p ++ name := by
    rw [List.dropWhile_append]
    split
    · rename_i gone
      rw [List.isEmpty_iff.mp gone, List.nil_append]
      simpa using keep name hne none_in []
    · rfl
  unfold trimWhile
  rw [front, List.reverse_append,
    keep name.reverse (by simpa using hne) fun c hc => none_in c (List.mem_reverse.mp hc)]
  simp

/-- Characters with one that is neither a digit nor a sign are no position in a list. -/
theorem readWord_eq_none {cs : List Char} {c : Char} (hc : c ∈ cs) (digit : c.isDigit = false)
    (sign : c ≠ '+') : readWord cs = none := by
  have undigit : ∀ xs : List Char, c ∈ xs → readDigits xs = none := by
    intro xs hx
    have some_other : xs.all Char.isDigit = false :=
      List.all_eq_false.mpr ⟨c, hx, by simp [digit]⟩
    rw [readDigits, some_other, Bool.and_false, if_neg Bool.false_ne_true]
  unfold readWord
  split
  · rename_i rest
    exact undigit rest ((List.mem_cons.mp hc).resolve_left sign)
  · exact undigit cs hc

namespace Path

/-- The characters stand for themselves in every segment, and they do not denote a position. -/
structure IsName (name : List Char) : Prop where
  plain : ∀ c ∈ name, isPlain c = true ∧ isQuote c = false ∧ c ≠ ']'
  letter : ∃ c ∈ name, c.isDigit = false ∧ c ≠ '+'

instance (name : List Char) : Decidable (IsName name) :=
  decidable_of_iff ((name.all fun c => isPlain c && !isQuote c && c != ']') = true
    ∧ (name.any fun c => !c.isDigit && c != '+') = true)
    ⟨fun h => ⟨by simpa [and_assoc] using h.1, by simpa using h.2⟩,
      fun h => ⟨by simpa [and_assoc] using h.plain, by simpa using h.letter⟩⟩

variable {name : List Char}

theorem IsName.ne_nil (h : IsName name) : name ≠ [] := by
  obtain ⟨c, hc, _⟩ := h.letter
  exact List.ne_nil_of_mem hc

theorem IsName.unblank (h : IsName name) : ∀ c ∈ name, isBlank c = false := by
  intro c hc
  have plain := (h.plain c hc).1
  simp only [isPlain, Bool.and_eq_true, Bool.not_eq_true'] at plain
  exact plain.1.1

theorem IsName.whole (h : IsName name) : ∀ c ∈ name, c ≠ '.' ∧ c ≠ '[' := by
  intro c hc
  have plain := (h.plain c hc).1
  simp only [isPlain, Bool.and_eq_true, bne_iff_ne] at plain
  exact ⟨plain.1.2, plain.2⟩

/-- The characters before a name at the end leave the splitting in a state of their own. -/
theorem splitFrom_append (inside : Bool) (pending cs : List Char) :
    ∃ before inside' pending', ∀ rest,
      splitFrom inside pending (cs ++ rest) = before ++ splitFrom inside' pending' rest := by
  induction cs generalizing inside pending with
  | nil => exact ⟨[], inside, pending, fun _ => rfl⟩
  | cons c cs ih =>
    have begun : ∃ first inside' pending', ∀ rest,
        splitFrom inside pending (c :: rest) = first ++ splitFrom inside' pending' rest := by
      cases inside with
      | false =>
        by_cases dot : c = '.'
        · exact ⟨_, false, [], fun rest => by rw [splitFrom, if_pos dot]⟩
        · by_cases bracket : c = '['
          · exact ⟨_, true, [], fun rest => by rw [splitFrom, if_neg dot, if_pos bracket]⟩
          · refine ⟨[], false, c :: pending, fun rest => ?_⟩
            rw [splitFrom, if_neg dot, if_neg bracket, List.nil_append]
      | true =>
        by_cases bracket : c = ']'
        · exact ⟨_, false, [], fun rest => by rw [splitFrom, if_pos bracket]⟩
        · refine ⟨[], true, c :: pending, fun rest => ?_⟩
          rw [splitFrom, if_neg bracket, List.nil_append]
    obtain ⟨first, inside₁, pending₁, begun⟩ := begun
    obtain ⟨before, inside₂, pending₂, further⟩ := ih inside₁ pending₁
    refine ⟨first ++ before, inside₂, pending₂, fun rest => ?_⟩
    rw [List.cons_append, begun, further, List.append_assoc]

/-- Inside brackets, what does not close them is one segment. -/
theorem splitFrom_inside {pending cs : List Char} (unclosed : ∀ c ∈ cs, c ≠ ']') :
    splitFrom true pending cs = bracketSegment (pending.reverse ++ cs) := by
  induction cs generalizing pending with
  | nil => simp [splitFrom]
  | cons c cs ih =>
    rw [List.forall_mem_cons] at unclosed
    rw [splitFrom, if_neg unclosed.1, ih unclosed.2]
    simp

/-- A name at the end is the end of one segment, inside or outside brackets. -/
theorem splitFrom_name (inside : Bool) (pending : List Char) :
    ∃ lead, ∀ name, IsName name →
      splitFrom inside pending name = [String.ofList (lead ++ name)] := by
  cases inside with
  | false =>
    refine ⟨pending.reverse.dropWhile isBlank, fun name h => ?_⟩
    rw [splitFrom_of_whole h.whole, dottedSegment, trimChars,
      trimWhile_append_of_none h.ne_nil h.unblank]
    simp [h.ne_nil]
  | true =>
    refine ⟨(pending.reverse.dropWhile isBlank).dropWhile isQuote, fun name h => ?_⟩
    rw [splitFrom_inside fun c hc => (h.plain c hc).2.2, bracketSegment, trimChars,
      trimWhile_append_of_none h.ne_nil h.unblank,
      trimWhile_append_of_none h.ne_nil fun c hc => (h.plain c hc).2.1]
    simp [h.ne_nil]

/-- Paths that differ in the name at their end only differ in their last segment only. -/
theorem split_append_name (first : Char) (unblank : isBlank first = false) (cs : List Char) :
    ∃ before lead, ∀ name, IsName name →
      split (String.ofList (first :: cs ++ name)) = before ++ [String.ofList (lead ++ name)] := by
  obtain ⟨before, inside, pending, begun⟩ := splitFrom_append false [] (first :: cs)
  obtain ⟨lead, named⟩ := splitFrom_name inside pending
  refine ⟨before, lead, fun name h => ?_⟩
  rw [split, String.toList_ofList, trimChars, trimWhile_append_of_none h.ne_nil h.unblank,
    List.dropWhile_cons_of_neg (by simp [unblank]), begun, named name h]

/-- Segments that end differently part if one of them ends in a name. -/
theorem parts_of_names {lead a b : List Char} (ha : IsName a) (other : a ≠ b) :
    Parts (String.ofList (lead ++ a)) (String.ofList (lead ++ b)) := by
  refine ⟨fun same => other ?_, fun _ => ?_⟩
  · have chars := congrArg String.toList same
    rw [String.toList_ofList, String.toList_ofList] at chars
    exact List.append_cancel_left chars
  · obtain ⟨c, hc, digit, sign⟩ := ha.letter
    rw [index?, String.toList_ofList]
    exact readWord_eq_none (List.mem_append_right _ hc) digit sign

end Path

/-! ## §2 The override of a step -/

/-- Where a step notes the step to go on with. -/
def Step.overridePath (step : Step) : Path := Path.split s!"{step.place}.next_step_override"

theorem isName_override : Path.IsName "next_step_override".toList := by decide

/-- What a step keeps is kept next to each other, whatever its id. -/
theorem Step.split_field (step : Step) : ∃ before lead, ∀ (suffix : String) (name : List Char),
    suffix.toList = '.' :: name → Path.IsName name →
      Path.split (step.place ++ suffix) = before ++ [String.ofList (lead ++ name)] := by
  obtain ⟨before, lead, ends⟩ := Path.split_append_name 's' (by decide)
    ("teps.".toList ++ step.id.toList ++ ['.'])
  refine ⟨before, lead, fun suffix name spelled is_name => ?_⟩
  have path : step.place ++ suffix
      = String.ofList ('s' :: ("teps.".toList ++ step.id.toList ++ ['.']) ++ name) := by
    refine String.toList_inj.mp ?_
    rw [String.toList_append, spelled, String.toList_ofList]
    simp [Step.place, toString]
  rw [path, ends name is_name]

/-- The names of what a step has done. -/
def resultNames : List String := [".result", ".item", ".results"]

/-- What a step keeps of what it has done does not touch its override. -/
theorem Step.diverges_overridePath (step : Step) {suffix : String} (own : suffix ∈ resultNames) :
    (Path.split (step.place ++ suffix)).Diverges step.overridePath := by
  have each : ∀ suffix ∈ resultNames, suffix.toList = '.' :: suffix.toList.tail
      ∧ Path.IsName suffix.toList.tail ∧ suffix.toList.tail ≠ "next_step_override".toList := by
    decide
  obtain ⟨spelled, is_name, other⟩ := each suffix own
  obtain ⟨before, lead, ends⟩ := step.split_field
  have path : step.overridePath = before ++ [String.ofList (lead ++ _)] :=
    ends ".next_step_override" _ (by decide) isName_override
  rw [ends suffix _ spelled is_name, path, Path.diverges_append]
  exact Or.inr ⟨_, rfl, .here (Path.parts_of_names is_name other)⟩

/-- Whatever the id, the override is kept in an entry of the namespace of steps. -/
theorem Step.overridePath_eq (step : Step) :
    ∃ entry rest, step.overridePath = "steps" :: entry :: rest := by
  obtain ⟨before, lead, ends⟩ := step.split_field
  have path : step.overridePath = before ++ [String.ofList (lead ++ _)] :=
    ends ".next_step_override" _ (by decide) isName_override
  have spelled : (s!"{step.place}.next_step_override").toList
      = "steps".toList ++ '.' :: (step.id.toList ++ ".next_step_override".toList) := by
    simp [Step.place, toString]
  have root : step.overridePath = "steps" :: _ :=
    Path.split_root (by decide) (by decide) spelled
  cases before with
  | cons first before =>
    rw [root, List.cons_append] at path
    obtain ⟨rfl, more⟩ := List.cons.inj path
    obtain ⟨entry, rest, last⟩ := List.exists_cons_of_ne_nil
      (List.append_ne_nil_of_right_ne_nil before
        (List.cons_ne_nil (String.ofList (lead ++ "next_step_override".toList)) []))
    exact ⟨entry, rest, by rw [root, more, last]⟩
  | nil =>
    -- The name alone is longer than the first segment.
    rw [root, List.nil_append] at path
    have short := congrArg (fun segment => segment.toList.length) (List.cons.inj path).1
    simp only [String.toList_ofList, List.length_append] at short
    have long : "steps".toList.length < "next_step_override".toList.length := by decide
    omega

/-- The reset of the step reaches its override: the id leaves no bracket open. -/
def Step.Closes (step : Step) : Prop :=
  step.overridePath = Path.split step.place ++ ["next_step_override"]

instance (step : Step) : Decidable step.Closes := by
  unfold Step.Closes
  infer_instance

/-! ## §3 Namespaces that no alias hides -/

namespace Context

variable {c d : Context}

/-- No alias has the name of a namespace of runs. -/
def Unhidden (c : Context) : Prop := ∀ name ∈ reservedNames, Entries.get? c.aliases name = none

theorem Edits.unhidden (h : c.Edits d) (shown : c.Unhidden) : d.Unhidden := by
  intro name reserved
  cases hv : Entries.get? d.aliases name with
  | none => rfl
  | some v =>
    rcases h.new_alias hv with old | free
    · rw [shown name reserved] at old
      cases old
    · exact absurd reserved (isReserved_eq_false_iff.mp free).1

end Context

namespace Frame

variable {f : Frame} {c d : Context}

theorem Makes.unhidden {m : Move} (step : f.Makes c m d) (shown : c.Unhidden) : d.Unhidden := by
  rcases step.edits_or_clear with edits | rfl
  · exact edits.unhidden shown
  · exact fun _ _ => rfl

theorem Goes.unhidden {moves : Trail} (h : f.Goes c moves d)
    (shown : c.Unhidden) : d.Unhidden :=
  h.preserves (Q := fun _ _ => True) (fun _ _ => trivial) shown
    fun _ _ _ _ here step => step.unhidden here

/-- The contexts of runs show their namespaces. -/
theorem AtBoundary.unhidden {caller : Caller} {inputs : Fields} {s t : Session} {index : Nat}
    (h : f.AtBoundary caller inputs s t index c) : c.Unhidden := by
  obtain ⟨trail, own⟩ := atBoundary_iff_hasTrail.mp h
  exact own.goes.1.unhidden fun _ _ => rfl

end Frame

end Tabletop
