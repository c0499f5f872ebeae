/-
Tabletop.Proofs.Table — totals and ranges.

A minus is a sign and also stands between the bounds of a range. The bounds
are written in decimal with blanks around them, so the first minus that is
not at the start is the one between them, whatever the signs of the bounds
are. A range of two bounds holds the totals between them, both included, and
a single number holds itself.

  §1 Numbers with blanks around them
  §2 Bounds
  §3 Entries
-/
import Tabletop.Proofs.Model.Conversion
import Tabletop.Table

namespace Tabletop

variable {cs before between after low high digits : List Char} {l h n total : Int} {v : Value}

/-! ## §1 Numbers with blanks around them -/

/-- A number in decimal, possibly with a sign, and with blanks around it. -/
inductive Padded : List Char → Int → Prop
  | intro {before digits after : List Char} {n : Int}
      (blank_before : ∀ c ∈ before, isBlank c = true)
      (blank_after : ∀ c ∈ after, isBlank c = true) (written : Written digits n) :
      Padded (before ++ digits ++ after) n

/-- A number is printed in decimal. -/
theorem written_intDigits (n : Int) : Written (intDigits n) n := by
  have magnitude : (Nat.ofDigitChars 10 (natDigits n.natAbs) 0 : Int) = n.natAbs :=
    congrArg Nat.cast Nat.ofDigitChars_ten_toDigits
  have digits : ∀ c ∈ natDigits n.natAbs, c.isDigit = true := fun c => isDigit_of_mem_natDigits
  unfold intDigits
  split
  · have written := Written.minus (natDigits_ne_nil n.natAbs) digits
    rwa [magnitude, show -(n.natAbs : Int) = n by omega] at written
  · have written := Written.plain (natDigits_ne_nil n.natAbs) digits
    rwa [magnitude, show (n.natAbs : Int) = n by omega] at written

/-- Behind its first character, a number has no minus. -/
theorem Written.exists_cons (written : Written cs n) : ∃ c ds, cs = c :: ds ∧ '-' ∉ ds := by
  have no_minus : ∀ {ds : List Char}, (∀ c ∈ ds, c.isDigit = true) → '-' ∉ ds :=
    fun digits mem => absurd (digits _ mem) (by decide)
  cases written with
  | plain some_digit digits =>
    obtain ⟨c, ds, rfl⟩ := List.exists_cons_of_ne_nil some_digit
    exact ⟨c, ds, rfl, no_minus (List.forall_mem_cons.mp digits).2⟩
  | plus _ digits => exact ⟨'+', _, rfl, no_minus digits⟩
  | minus _ digits => exact ⟨'-', _, rfl, no_minus digits⟩

/-- Blanks around a number are trimmed. -/
theorem Written.trimChars_between (written : Written digits n)
    (front : ∀ c ∈ before, isBlank c = true) (back : ∀ c ∈ after, isBlank c = true) :
    trimChars (before ++ digits ++ after) = digits := by
  have not_blank := written.not_blank
  obtain ⟨_, _, rfl, _⟩ := written.exists_cons
  refine trimWhile_between front back (List.cons_ne_nil _ _) ?_ ?_
  · exact fun c hc => not_blank c (List.mem_of_mem_head? hc)
  · exact fun c hc => not_blank c (List.mem_of_mem_getLast? hc)

/-! ## §2 Bounds -/

/-- The first minus behind the start is the one between the bounds. -/
theorem splitRange_of_minus {c : Char} (plain : '-' ∉ cs) (high : List Char) :
    splitRange (c :: (cs ++ '-' :: high)) = some (c :: cs, high) := by
  have kind : ∀ d ∈ cs, decide (d ≠ '-') = true := by
    intro d hd
    rw [decide_eq_true_eq]
    rintro rfl
    exact plain hd
  have stops : Stops (fun d => decide (d ≠ '-')) ('-' :: high) := by
    rintro d more heq
    cases heq
    rfl
  rw [splitRange, stops.dropWhile_append kind, stops.takeWhile_append kind]

/-- Without a minus behind the start there are no bounds. -/
theorem splitRange_of_none {c : Char} (plain : '-' ∉ cs) : splitRange (c :: cs) = none := by
  have none_left : cs.dropWhile (fun d => decide (d ≠ '-')) = [] := by
    rw [List.dropWhile_eq_nil_iff]
    intro d hd
    rw [decide_eq_true_eq]
    rintro rfl
    exact plain hd
  rw [splitRange, none_left]

theorem asInt64_eq_some_iff : asInt64 n = some total ↔ fitsInt64 n = true ∧ total = n := by
  unfold asInt64
  by_cases fits : fitsInt64 n = true
  · rw [if_pos fits, Option.some.injEq, eq_comm]
    exact (and_iff_right fits).symm
  · rw [if_neg fits]
    exact iff_of_false (by simp) fun h => fits h.1

/-- A single number holds itself, if it is a word. -/
theorem rangeHolds_single (written : Written digits n) :
    rangeHolds digits total = true ↔ fitsInt64 n = true ∧ total = n := by
  obtain ⟨c, ds, rfl, plain⟩ := written.exists_cons
  rw [rangeHolds, splitRange_of_none plain]
  dsimp only
  rw [decide_eq_true_eq, readInt64_of_written written, asInt64_eq_some_iff]

/-- Two bounds hold what lies between them, if they are words. -/
theorem rangeHolds_bounds (low_written : Written low l) (high_written : Written high h)
    (front : ∀ c ∈ before, isBlank c = true) (back : ∀ c ∈ after, isBlank c = true) :
    rangeHolds (low ++ before ++ '-' :: (after ++ high)) total = true ↔
      (fitsInt64 l = true ∧ fitsInt64 h = true) ∧ l ≤ total ∧ total ≤ h := by
  have no_blanks : ∀ c ∈ ([] : List Char), isBlank c = true := List.forall_mem_nil _
  have low_trimmed := low_written.trimChars_between no_blanks front
  have high_trimmed := high_written.trimChars_between back no_blanks
  rw [List.nil_append] at low_trimmed
  rw [List.append_nil] at high_trimmed
  have read_low := readInt64_of_written low_written
  obtain ⟨c, ds, rfl, plain⟩ := low_written.exists_cons
  have minus_apart : '-' ∉ ds ++ before := by
    rw [List.mem_append, not_or]
    exact ⟨plain, fun mem => absurd (front _ mem) (by decide)⟩
  rw [List.cons_append, List.cons_append, rangeHolds, splitRange_of_minus minus_apart]
  dsimp only
  rw [← List.cons_append, low_trimmed, high_trimmed, read_low, readInt64_of_written high_written]
  unfold asInt64
  by_cases low_fits : fitsInt64 l = true
  · by_cases high_fits : fitsInt64 h = true
    · simp [low_fits, high_fits]
    · simp [high_fits]
  · simp [low_fits]

/-! ## §3 Entries -/

theorem matches_text (s : String) :
    (⟨.text s, v⟩ : TableEntry).matches total = rangeHolds (trimChars s.toList) total := by
  change rangeHolds (trim s).toList total = _
  rw [trim, String.toList_ofList]

/-- Blanks around two bounds are trimmed, and those between them are not. -/
theorem trimChars_bounds {between' : List Char} (low_written : Written low l)
    (high_written : Written high h) (front : ∀ c ∈ before, isBlank c = true)
    (back : ∀ c ∈ after, isBlank c = true) :
    trimChars (before ++ low ++ between ++ '-' :: (between' ++ high ++ after))
      = low ++ between ++ '-' :: (between' ++ high) := by
  have first := low_written.not_blank
  have last := high_written.not_blank
  obtain ⟨c, ds, rfl, _⟩ := low_written.exists_cons
  have filled : high ≠ [] := by
    obtain ⟨_, _, rfl, _⟩ := high_written.exists_cons
    exact List.cons_ne_nil _ _
  have parts : before ++ c :: ds ++ between ++ '-' :: (between' ++ high ++ after)
      = before ++ (c :: ds ++ between ++ '-' :: (between' ++ high)) ++ after := by
    simp
  rw [parts]
  refine trimWhile_between front back (by simp) ?_ ?_
  · rintro d ⟨⟩
    exact first c List.mem_cons_self
  · intro d hd
    have ends : (c :: ds ++ between ++ '-' :: (between' ++ high)).getLast? = high.getLast? := by
      obtain ⟨x, hx⟩ := Option.ne_none_iff_exists'.mp (mt List.getLast?_eq_none_iff.mp filled)
      simp [List.getLast?_append, List.getLast?_cons, hx]
    rw [ends] at hd
    exact last d (List.mem_of_mem_getLast? hd)

/-- An entry with two bounds. -/
theorem matches_bounds (low_padded : Padded low l) (high_padded : Padded high h) :
    (⟨.text (String.ofList (low ++ '-' :: high)), v⟩ : TableEntry).matches total = true ↔
      (fitsInt64 l = true ∧ fitsInt64 h = true) ∧ l ≤ total ∧ total ≤ h := by
  obtain ⟨front, inner, low_written⟩ := low_padded
  obtain ⟨inner', back, high_written⟩ := high_padded
  rw [matches_text, String.toList_ofList, trimChars_bounds low_written high_written front back,
    rangeHolds_bounds low_written high_written inner inner']

/-- An entry with a number in a text. -/
theorem matches_single (padded : Padded digits n) :
    (⟨.text (String.ofList digits), v⟩ : TableEntry).matches total = true ↔
      fitsInt64 n = true ∧ total = n := by
  obtain ⟨front, back, written⟩ := padded
  rw [matches_text, String.toList_ofList, written.trimChars_between front back,
    rangeHolds_single written]

/-- An entry with a number. -/
theorem matches_int :
    (⟨.int n, v⟩ : TableEntry).matches total = true ↔ fitsInt64 n = true ∧ total = n := by
  change rangeHolds (intText n).toList total = true ↔ _
  rw [intText, String.toList_ofList, rangeHolds_single (written_intDigits n)]

/-- Totals and ranges: two bounds hold the totals between them, whatever their signs are and
wherever there are blanks around them, and a number holds itself. In a table a total has the value
of the first entry that holds it, or else a text that there is none. -/
theorem Table.first_range_holds (total : Int) (word : fitsInt64 total = true) :
    (∀ low high l h v, Padded low l → Padded high h → fitsInt64 l = true → fitsInt64 h = true →
      ((⟨.text (String.ofList (low ++ '-' :: high)), v⟩ : TableEntry).matches total = true ↔
        l ≤ total ∧ total ≤ h)) ∧
    (∀ n v, (⟨.int n, v⟩ : TableEntry).matches total = true ↔ total = n) ∧
    (∀ digits n v, Padded digits n →
      ((⟨.text (String.ofList digits), v⟩ : TableEntry).matches total = true ↔ total = n)) ∧
    ∀ t : Table,
      (∃ before e after, t.entries = before ++ e :: after ∧ e.matches total = true ∧
        (∀ b ∈ before, b.matches total = false) ∧ t.lookup total = e.value) ∨
      (∀ e ∈ t.entries, e.matches total = false) ∧
        t.lookup total = .text ("<no match for " ++ intText total ++ ">") := by
  have itself : ∀ n, (fitsInt64 n = true ∧ total = n) ↔ total = n :=
    fun n => and_iff_right_of_imp fun same => same ▸ word
  refine ⟨?_, ?_, ?_, ?_⟩
  · intro low high l h v low_padded high_padded low_fits high_fits
    rw [matches_bounds low_padded high_padded]
    exact and_iff_right ⟨low_fits, high_fits⟩
  · exact fun n v => matches_int.trans (itself n)
  · exact fun digits n v padded => (matches_single padded).trans (itself n)
  · intro t
    cases found : t.find? total with
    | none =>
      refine Or.inr ⟨fun e he => ?_, ?_⟩
      · exact Bool.eq_false_iff.mpr (List.find?_eq_none.mp found e he)
      · rw [Table.lookup, found]
        rfl
    | some e =>
      obtain ⟨holds, before, after, split, others⟩ := List.find?_eq_some_iff_append.mp found
      refine Or.inl ⟨before, e, after, split, holds, fun b hb => ?_, ?_⟩
      · simpa using others b hb
      · rw [Table.lookup, found]

/-- Depths from the least signed word up to minus three, with blanks of several kinds. -/
def depths : TableEntry := ⟨.text "\t-9223372036854775808 -\u3000-3 ", .text "abyss"⟩

/-- Minus five is among them, and minus two is not, which holds itself in a text. -/
theorem depths_hold :
    (fitsInt64 (-5) = true ∧ depths.matches (-5) = true) ∧
      fitsInt64 (-2) = true ∧ ¬ depths.matches (-2) = true ∧
        (⟨.text "-2\u3000", .text "shore"⟩ : TableEntry).matches (-2) = true := by
  have blank (c : Char) (h : isBlank c = true) : ∀ d ∈ [c], isBlank d = true :=
    List.forall_mem_singleton.mpr h
  have low : Padded (['\t'] ++ intDigits int64Min ++ [' ']) int64Min :=
    .intro (blank '\t' (by decide)) (blank ' ' (by decide)) (written_intDigits _)
  have high : Padded (['\u3000'] ++ intDigits (-3) ++ [' ']) (-3) :=
    .intro (blank '\u3000' (by decide)) (blank ' ' (by decide)) (written_intDigits _)
  have range : "\t-9223372036854775808 -\u3000-3 " = String.ofList
      (['\t'] ++ intDigits int64Min ++ [' '] ++ '-' :: (['\u3000'] ++ intDigits (-3) ++ [' '])) := by
    decide +kernel
  have holds (total : Int) (word : fitsInt64 total = true) :=
    (Table.first_range_holds total word).1 _ _ _ _ (.text "abyss") low high (by decide) (by decide)
  have single : Padded ([] ++ intDigits (-2) ++ ['\u3000']) (-2) :=
    .intro (by simp) (blank '\u3000' (by decide)) (written_intDigits _)
  refine ⟨⟨by decide, ?_⟩, by decide, ?_, ?_⟩
  · rw [depths, range, holds (-5) (by decide)]
    decide
  · rw [depths, range, holds (-2) (by decide)]
    decide
  · exact ((Table.first_range_holds (-2) (by decide)).2.2.1 _ _ (.text "shore") single).mpr rfl

end Tabletop
