/-
Tabletop.Proofs.Value.Spelling — every segment that a path can name.

A segment is written behind a dot, or in brackets and quotes. Behind a dot
its own blanks, dots and opening brackets would be lost, in brackets its
closing brackets and the quotes around it; so each way of writing has its
own condition, and under it the segment is read as it is, whatever stands
before and behind it. No other segments can come out of a path
(`split_spelled`).

  §1 Trimming
  §2 Segments in quotes
  §3 Segments one after the other
  §4 Blanks around a path
  §5 What a path can name
-/
import Tabletop.Proofs.Value.Split

namespace Tabletop

/-! ## §1 Trimming -/

/-- Trimming keeps what has no trimmed character at its ends, and only that. -/
theorem trimWhile_eq_self_iff {p : Char → Bool} {cs : List Char} :
    trimWhile p cs = cs ↔ (∀ c ∈ cs.head?, p c = false) ∧ ∀ c ∈ cs.getLast?, p c = false := by
  rcases cs.eq_nil_or_concat with rfl | ⟨front, last, rfl⟩
  · simp [trimWhile]
  constructor
  · intro kept
    have start := Path.dropWhile_eq_self_of_trimWhile kept
    have stop := rdropWhile_eq_self_of_trimWhile kept
    rw [List.rdropWhile_eq_self_iff] at stop
    refine ⟨fun c hc => ?_, fun c hc => ?_⟩
    · obtain ⟨rest, same⟩ := List.head?_eq_some_iff.mp hc
      rw [same, List.dropWhile_eq_self_iff] at start
      simpa using start (Nat.zero_lt_succ _)
    · have same : last = c := by simpa using hc
      simpa [same] using stop (by simp)
  · rintro ⟨start, stop⟩
    have kept := @trimWhile_between p [] (front.concat last) [] (by simp) (by simp) (by simp)
      start stop
    simpa using kept

/-- Trimming again changes nothing. -/
theorem trimWhile_idem (p : Char → Bool) (cs : List Char) :
    trimWhile p (trimWhile p cs) = trimWhile p cs := by
  change trimWhile p ((cs.dropWhile p).rdropWhile p) = (cs.dropWhile p).rdropWhile p
  refine trimWhile_eq_self_iff.mpr ⟨fun c hc => ?_, fun c hc => ?_⟩
  · obtain ⟨back, whole⟩ := List.rdropWhile_prefix p (cs.dropWhile p)
    obtain ⟨rest, same⟩ := List.head?_eq_some_iff.mp hc
    have front : cs.dropWhile p = c :: (rest ++ back) := by rw [← whole, same, List.cons_append]
    have first := List.head_dropWhile_not p (front ▸ List.cons_ne_nil c _)
    simpa only [front, List.head_cons] using first
  · obtain ⟨filled, rfl⟩ := List.mem_getLast?_eq_getLast hc
    simpa using List.rdropWhile_last_not p _ filled

/-- What is last in two lists is last in one of them. -/
theorem forall_mem_getLast?_append {q : Char → Prop} {front back : List Char}
    (hf : ∀ c ∈ front.getLast?, q c) (hb : ∀ c ∈ back.getLast?, q c) :
    ∀ c ∈ (front ++ back).getLast?, q c := by
  intro c hc
  rw [List.getLast?_append] at hc
  cases later : back.getLast? with
  | none =>
    rw [later, Option.none_or] at hc
    exact hf c hc
  | some d =>
    rw [later, Option.some_or] at hc
    exact hb c (later ▸ hc)

namespace Path

/-! ## §2 Segments in quotes -/

/-- In brackets and quotes the segment is read as it is written. -/
structure IsQuotable (segment : String) : Prop where
  nonempty : segment.toList ≠ []
  unclosed : ∀ c ∈ segment.toList, c ≠ ']'
  starts : ∀ c ∈ segment.toList.head?, isQuote c = false
  ends : ∀ c ∈ segment.toList.getLast?, isQuote c = false

instance (segment : String) : Decidable (IsQuotable segment) :=
  decidable_of_iff (segment.toList ≠ [] ∧ (segment.toList.all fun c => c != ']') = true
      ∧ (segment.toList.head?.all fun c => !isQuote c) = true
      ∧ (segment.toList.getLast?.all fun c => !isQuote c) = true)
    ⟨fun h => ⟨h.1, by simpa using h.2.1, by simpa [Option.all_eq_true] using h.2.2.1,
        by simpa [Option.all_eq_true] using h.2.2.2⟩,
      fun h => ⟨h.nonempty, by simpa using h.unclosed, by simpa [Option.all_eq_true] using h.starts,
        by simpa [Option.all_eq_true] using h.ends⟩⟩

/-- The quotes around a segment are taken off, and nothing of the segment itself. -/
theorem bracketSegment_quoted {s : String} (h : IsQuotable s) :
    bracketSegment ('"' :: s.toList ++ ['"']) = [s] := by
  have quote : isBlank '"' = false := by decide
  have unblank : trimChars ('"' :: s.toList ++ ['"']) = '"' :: s.toList ++ ['"'] := by
    refine trimWhile_eq_self_iff.mpr ⟨fun c hc => ?_, fun c hc => ?_⟩
    · cases hc
      exact quote
    · rw [List.getLast?_concat] at hc
      cases hc
      exact quote
  have around : ∀ c ∈ ['"'], isQuote c = true := List.forall_mem_singleton.mpr (by decide)
  have unquoted : trimWhile isQuote (['"'] ++ s.toList ++ ['"']) = s.toList :=
    trimWhile_between around around h.nonempty h.starts h.ends
  rw [bracketSegment, unblank]
  change (if (trimWhile isQuote (['"'] ++ s.toList ++ ['"'])).isEmpty then [] else
    [String.ofList (trimWhile isQuote (['"'] ++ s.toList ++ ['"']))]) = _
  rw [unquoted]
  simp [h.nonempty]

/-! ## §3 Segments one after the other -/

/-- The two ways to write a segment. -/
inductive Spelling where
  | dotted
  | bracketed
  deriving DecidableEq, Repr

/-- The segment is read as it is if it is written in this way. -/
def Spelling.Fits : Spelling → String → Prop
  | .dotted => IsBare
  | .bracketed => IsQuotable

instance : (spelling : Spelling) → (segment : String) → Decidable (spelling.Fits segment)
  | .dotted, segment => inferInstanceAs (Decidable (IsBare segment))
  | .bracketed, segment => inferInstanceAs (Decidable (IsQuotable segment))

/-- Segments one after the other. A dot stands before a segment without brackets, unless it is the
`first`. -/
def spelledFrom : (first : Bool) → List (Spelling × String) → List Char
  | _, [] => []
  | true, (.dotted, s) :: rest => s.toList ++ spelledFrom false rest
  | false, (.dotted, s) :: rest => '.' :: (s.toList ++ spelledFrom false rest)
  | _, (.bracketed, s) :: rest => '[' :: ('"' :: s.toList ++ ['"']) ++ ']' :: spelledFrom false rest

/-- A path with its segments written as they are marked. -/
def spelled (parts : List (Spelling × String)) : String := String.ofList (spelledFrom true parts)

/-- Outside brackets, what separates nothing is kept. -/
theorem splitFrom_pending {cs : List Char} (whole : ∀ c ∈ cs, c ≠ '.' ∧ c ≠ '[')
    (pending rest : List Char) :
    splitFrom false pending (cs ++ rest) = splitFrom false (cs.reverse ++ pending) rest := by
  induction cs generalizing pending with
  | nil => rfl
  | cons c cs ih =>
    rw [List.forall_mem_cons] at whole
    rw [List.cons_append, splitFrom, if_neg whole.1.1, if_neg whole.1.2, ih whole.2]
    simp

/-- Up to the closing bracket, all is one segment. -/
theorem splitFrom_closed {cs : List Char} (unclosed : ∀ c ∈ cs, c ≠ ']')
    (pending rest : List Char) :
    splitFrom true pending (cs ++ ']' :: rest)
      = bracketSegment (pending.reverse ++ cs) ++ splitFrom false [] rest := by
  induction cs generalizing pending with
  | nil => simp [splitFrom]
  | cons c cs ih =>
    rw [List.forall_mem_cons] at unclosed
    rw [List.cons_append, splitFrom, if_neg unclosed.1, ih unclosed.2]
    simp

/-- Nothing is left over between two segments. -/
theorem splitFrom_of_next (pending : List Char) (parts : List (Spelling × String)) :
    splitFrom false pending (spelledFrom false parts)
      = dottedSegment pending.reverse ++ splitFrom false [] (spelledFrom false parts) := by
  have empty : dottedSegment [] = [] := rfl
  match parts with
  | [] => simp [spelledFrom, splitFrom, empty]
  | (.dotted, s) :: rest => simp [spelledFrom, splitFrom, empty]
  | (.bracketed, s) :: rest => simp [spelledFrom, splitFrom, empty]

/-- A segment written without brackets comes first, whatever follows it. -/
theorem splitFrom_dotted {s : String} (bare : IsBare s) (parts : List (Spelling × String)) :
    splitFrom false [] (s.toList ++ spelledFrom false parts)
      = s :: splitFrom false [] (spelledFrom false parts) := by
  rw [splitFrom_pending bare.whole, List.append_nil, splitFrom_of_next, List.reverse_reverse,
    dottedSegment, bare.trimmed]
  simp [bare.nonempty]

/-- A segment written in brackets comes first, whatever follows it. -/
theorem splitFrom_bracketed {s : String} (quotable : IsQuotable s)
    (parts : List (Spelling × String)) :
    splitFrom false [] ('[' :: ('"' :: s.toList ++ ['"']) ++ ']' :: spelledFrom false parts)
      = s :: splitFrom false [] (spelledFrom false parts) := by
  have quote : ∀ c ∈ ['"'], c ≠ ']' := List.forall_mem_singleton.mpr (by decide)
  have unclosed : ∀ c ∈ '"' :: s.toList ++ ['"'], c ≠ ']' :=
    List.forall_mem_append.mpr ⟨List.forall_mem_append.mpr ⟨quote, quotable.unclosed⟩, quote⟩
  rw [List.cons_append, splitFrom, if_neg (by decide), if_pos rfl, splitFrom_closed unclosed,
    List.reverse_nil, List.nil_append, bracketSegment_quoted quotable]
  rfl

/-- Segments that are written one after the other are read one after the other. -/
theorem splitFrom_spelledFrom {parts : List (Spelling × String)}
    (fits : ∀ part ∈ parts, part.1.Fits part.2) (first : Bool) :
    splitFrom false [] (spelledFrom first parts) = parts.map Prod.snd := by
  induction parts generalizing first with
  | nil => cases first <;> rfl
  | cons part rest ih =>
    rw [List.forall_mem_cons] at fits
    obtain ⟨here, later⟩ := fits
    obtain ⟨spelling, s⟩ := part
    have following := ih later false
    rw [List.map_cons, ← following]
    cases spelling with
    | dotted =>
      have read := splitFrom_dotted here rest
      cases first with
      | true => exact read
      | false => exact read
    | bracketed => cases first <;> exact splitFrom_bracketed here rest

/-! ## §4 Blanks around a path -/

theorem IsBare.unblank_ends {s : String} (bare : IsBare s) :
    (∀ c ∈ s.toList.head?, isBlank c = false) ∧ ∀ c ∈ s.toList.getLast?, isBlank c = false :=
  trimWhile_eq_self_iff.mp bare.trimmed

/-- A path that is written begins with no blank. -/
theorem unblank_start {parts : List (Spelling × String)}
    (fits : ∀ part ∈ parts, part.1.Fits part.2) :
    ∀ c ∈ (spelledFrom true parts).head?, isBlank c = false := by
  match parts with
  | [] => simp [spelledFrom]
  | (.dotted, s) :: rest =>
    have bare : IsBare s := fits _ List.mem_cons_self
    rw [spelledFrom, List.head?_append_of_ne_nil _ bare.nonempty]
    exact bare.unblank_ends.1
  | (.bracketed, s) :: rest =>
    intro c hc
    cases hc
    decide

/-- A path that is written ends with no blank. -/
theorem unblank_end {parts : List (Spelling × String)}
    (fits : ∀ part ∈ parts, part.1.Fits part.2) (first : Bool) :
    ∀ c ∈ (spelledFrom first parts).getLast?, isBlank c = false := by
  induction parts generalizing first with
  | nil => cases first <;> simp [spelledFrom]
  | cons part rest ih =>
    rw [List.forall_mem_cons] at fits
    obtain ⟨here, later⟩ := fits
    obtain ⟨spelling, s⟩ := part
    have behind := ih later false
    cases spelling with
    | dotted =>
      have bare : IsBare s := here
      cases first with
      | true => exact forall_mem_getLast?_append bare.unblank_ends.2 behind
      | false =>
        have dotted : ∀ c ∈ ('.' :: s.toList).getLast?, isBlank c = false := by
          rw [List.getLast?_cons_of_ne_nil bare.nonempty]
          exact bare.unblank_ends.2
        exact forall_mem_getLast?_append dotted behind
    | bracketed =>
      have closing : ∀ c ∈ ('[' :: ('"' :: s.toList ++ ['"']) ++ [']']).getLast?,
          isBlank c = false := by
        intro c hc
        rw [List.getLast?_concat] at hc
        cases hc
        decide
      have whole := forall_mem_getLast?_append closing behind
      rw [List.append_assoc] at whole
      cases first <;> exact whole

/-- A path that is written is split into its segments. -/
theorem split_of_spelled {parts : List (Spelling × String)}
    (fits : ∀ part ∈ parts, part.1.Fits part.2) : split (spelled parts) = parts.map Prod.snd := by
  have kept : trimChars (spelledFrom true parts) = spelledFrom true parts :=
    trimWhile_eq_self_iff.mpr ⟨unblank_start fits, unblank_end fits true⟩
  rw [split, spelled, String.toList_ofList, kept, splitFrom_spelledFrom fits]

/-! ## §5 What a path can name -/

/-- The segment can be written in one of the two ways. -/
def Nameable (segment : String) : Prop := IsBare segment ∨ IsQuotable segment

theorem nameable_of_mem_dottedSegment {cs : List Char} (whole : ∀ c ∈ cs, c ≠ '.' ∧ c ≠ '[')
    {s : String} (h : s ∈ dottedSegment cs) : Nameable s := by
  simp only [dottedSegment] at h
  split at h
  · cases h
  · rename_i filled
    cases List.mem_singleton.mp h
    refine Or.inl ⟨?_, ?_, ?_⟩
    · simpa using filled
    · rw [String.toList_ofList]
      exact trimWhile_idem isBlank cs
    · rw [String.toList_ofList]
      exact fun c hc => whole c ((trimWhile_sublist isBlank cs).mem hc)

theorem nameable_of_mem_bracketSegment {cs : List Char} (unclosed : ∀ c ∈ cs, c ≠ ']')
    {s : String} (h : s ∈ bracketSegment cs) : Nameable s := by
  have unquoted := trimWhile_eq_self_iff.mp (trimWhile_idem isQuote (trimChars cs))
  simp only [bracketSegment] at h
  split at h
  · cases h
  · rename_i filled
    cases List.mem_singleton.mp h
    refine Or.inr ⟨?_, ?_, ?_, ?_⟩
    · simpa using filled
    · rw [String.toList_ofList]
      exact fun c hc => unclosed c
        (((trimWhile_sublist isQuote _).trans (trimWhile_sublist isBlank cs)).mem hc)
    · rw [String.toList_ofList]
      exact unquoted.1
    · rw [String.toList_ofList]
      exact unquoted.2

/-- Whatever is split, each segment can be written. The characters of the segment that is being read
separate nothing where it stands. -/
theorem nameable_of_mem_splitFrom (inside : Bool) {pending cs : List Char}
    (kept : ∀ c ∈ pending, if inside then c ≠ ']' else c ≠ '.' ∧ c ≠ '[') {s : String}
    (h : s ∈ splitFrom inside pending cs) : Nameable s := by
  have none_pending : ∀ inside : Bool,
      ∀ c ∈ ([] : List Char), if inside then c ≠ ']' else c ≠ '.' ∧ c ≠ '[' := by simp
  have reversed : ∀ {p : Char → Prop}, (∀ c ∈ pending, p c) → ∀ c ∈ pending.reverse, p c :=
    fun each c hc => each c (List.mem_reverse.mp hc)
  induction cs generalizing inside pending with
  | nil =>
    cases inside with
    | false => exact nameable_of_mem_dottedSegment (reversed kept) h
    | true => exact nameable_of_mem_bracketSegment (reversed kept) h
  | cons c rest ih =>
    unfold splitFrom at h
    cases inside with
    | false =>
      simp only at h
      split at h
      · rcases List.mem_append.mp h with now | later
        · exact nameable_of_mem_dottedSegment (reversed kept) now
        · exact ih false (none_pending false) later (by simp)
      split at h
      · rcases List.mem_append.mp h with now | later
        · exact nameable_of_mem_dottedSegment (reversed kept) now
        · exact ih true (none_pending true) later (by simp)
      · rename_i dot bracket
        have longer : ∀ x ∈ c :: pending, x ≠ '.' ∧ x ≠ '[' :=
          List.forall_mem_cons.mpr ⟨⟨dot, bracket⟩, kept⟩
        exact ih false longer h fun each x hx => each x (List.mem_reverse.mp hx)
    | true =>
      simp only at h
      split at h
      · rcases List.mem_append.mp h with now | later
        · exact nameable_of_mem_bracketSegment (reversed kept) now
        · exact ih false (none_pending false) later (by simp)
      · rename_i closing
        have longer : ∀ x ∈ c :: pending, x ≠ ']' := List.forall_mem_cons.mpr ⟨closing, kept⟩
        exact ih true longer h fun each x hx => each x (List.mem_reverse.mp hx)

/-- Segments that can be written can be written one after the other. -/
theorem exists_spelling {p : Path} (nameable : ∀ s ∈ p, Nameable s) :
    ∃ parts : List (Spelling × String),
      (∀ part ∈ parts, part.1.Fits part.2) ∧ parts.map Prod.snd = p := by
  induction p with
  | nil => exact ⟨[], by simp, rfl⟩
  | cons s rest ih =>
    rw [List.forall_mem_cons] at nameable
    obtain ⟨parts, fits, rfl⟩ := ih nameable.2
    rcases nameable.1 with bare | quotable
    · exact ⟨(.dotted, s) :: parts, List.forall_mem_cons.mpr ⟨bare, fits⟩, rfl⟩
    · exact ⟨(.bracketed, s) :: parts, List.forall_mem_cons.mpr ⟨quotable, fits⟩, rfl⟩

/-- Segments that are written in ways that fit them, one after the other, are read as they are; so
are segments that are joined, if they can be written without brackets. The lists of segments that
are read from some path are exactly those of segments that can be written. -/
theorem split_spelled :
    (∀ parts : List (Spelling × String), (∀ part ∈ parts, part.1.Fits part.2) →
      split (spelled parts) = parts.map Prod.snd) ∧
    (∀ p : Path, (∀ s ∈ p, IsBare s) → split (join p) = p) ∧
    ∀ p : Path, (∃ text, split text = p) ↔ ∀ s ∈ p, IsBare s ∨ IsQuotable s := by
  refine ⟨fun parts => split_of_spelled, fun p => split_join, fun p => ⟨?_, ?_⟩⟩
  · rintro ⟨text, rfl⟩ s hs
    exact nameable_of_mem_splitFrom false (by simp) hs
  · intro nameable
    obtain ⟨parts, fits, rfl⟩ := exists_spelling nameable
    exact ⟨spelled parts, split_of_spelled fits⟩

/-- A key with dots, blanks and an opening bracket, one with an apostrophe, and between them one with
a blank and a closing bracket. -/
def hoard : List (Spelling × String) :=
  [(.bracketed, " gold. [old coins"), (.dotted, "a]b c"), (.bracketed, "dragon's"), (.dotted, "0")]

/-- They are read as they are, one after the other; and those without brackets, joined. -/
theorem hoard_named :
    ((∀ part ∈ hoard, part.1.Fits part.2) ∧
      split (spelled hoard) = [" gold. [old coins", "a]b c", "dragon's", "0"]) ∧
    (∀ s ∈ ["a]b c", "0"], IsBare s) ∧ split (join ["a]b c", "0"]) = ["a]b c", "0"] ∧
      ∃ text, split text = ["a.b", "0"] := by
  have fits : ∀ part ∈ hoard, part.1.Fits part.2 := by decide
  have bare : ∀ s ∈ ["a]b c", "0"], IsBare s := by decide
  have nameable : ∀ s ∈ ["a.b", "0"], IsBare s ∨ IsQuotable s := by decide
  exact ⟨⟨fits, split_spelled.1 _ fits⟩, bare, split_spelled.2.1 _ bare,
    (split_spelled.2.2 _).mpr nameable⟩

end Path

end Tabletop
