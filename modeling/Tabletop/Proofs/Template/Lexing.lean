/-
Tabletop.Proofs.Template.Lexing — written words are read back.

Every word but a decimal starts with a character that tells its kind: a
digit, a letter or underscore, a quote, or a sign. It ends before a blank,
or with its closing quote. So words with blanks between them are cut into
these words again.

  §1 Kinds of characters
  §2 Numbers
  §3 Quoted texts
  §4 Single words
  §5 Texts
-/
import Tabletop.Proofs.Template.Print
import Tabletop.Template.Segment

namespace Tabletop

/-! ## §1 Kinds of characters -/

/-- No white space is a letter. -/
theorem startsName_of_isBlank {c : Char} (h : isBlank c = true) : startsName c = false := by
  obtain ⟨r, hr, low, high⟩ := inRanges_eq_true_iff.mp h
  have apart : ∀ r ∈ blankRanges, ∀ n ∈ List.range' r.1 (r.2 + 1 - r.1),
      startsName (Char.ofNat n) = false := by decide +kernel
  have inside : c.toNat ∈ List.range' r.1 (r.2 + 1 - r.1) := by
    rw [List.mem_range'_1]
    omega
  have := apart r hr c.toNat inside
  rwa [Char.ofNat_toNat] at this

/-- No digit is a letter or white space. -/
theorem startsName_isBlank_of_isDigit {c : Char} (h : c.isDigit = true) :
    startsName c = false ∧ isBlank c = false := by
  have apart : ∀ n ∈ List.range' 48 10,
      startsName (Char.ofNat n) = false ∧ isBlank (Char.ofNat n) = false := by decide +kernel
  have inside : c.toNat ∈ List.range' 48 10 := by
    rw [List.mem_range'_1]
    simp only [Char.isDigit, Bool.and_eq_true, decide_eq_true_eq] at h
    exact ⟨h.1, Nat.lt_succ_of_le h.2⟩
  have := apart c.toNat inside
  rwa [Char.ofNat_toNat] at this

theorem isDigit_of_startsName {c : Char} (h : startsName c = true) : c.isDigit = false := by
  cases digit : c.isDigit with
  | false => rfl
  | true =>
    rw [(startsName_isBlank_of_isDigit digit).1] at h
    cases h

/-- An identifier is a character that starts names and others that go on with them. -/
theorem isIdentifier_cases {s : String} (h : isIdentifier s = true) :
    ∃ c tail, s.toList = c :: tail ∧ startsName c = true
      ∧ ∀ d ∈ tail, continuesName d = true := by
  unfold isIdentifier at h
  split at h
  · cases h
  · rename_i c tail hs
    rw [Bool.and_eq_true, List.all_eq_true] at h
    exact ⟨c, tail, hs, h⟩

/-! ## §2 Numbers -/

theorem natDigits_ne_nil (n : Nat) : natDigits n ≠ [] := Nat.toDigits_ne_nil

theorem isDigit_of_mem_natDigits {n : Nat} {c : Char} (h : c ∈ natDigits n) : c.isDigit = true :=
  Nat.isDigit_of_mem_toDigits (by decide) (by decide) h

theorem digitsValue_natDigits (n : Nat) : digitsValue (natDigits n) = n := by
  have := @Nat.ofDigitChars_ten_toDigits n
  exact this

/-- A number is read back from its digits. -/
theorem readDigits_natDigits {n : Nat} (h : n < wordBound) : readDigits (natDigits n) = some n := by
  have value : digitsUpTo wordBound (natDigits n) = n :=
    (digitsUpTo_eq_iff h).mpr (digitsValue_natDigits n)
  have digits : (natDigits n).all Char.isDigit = true :=
    List.all_eq_true.mpr fun c hc => isDigit_of_mem_natDigits hc
  rw [readDigits, digits, value]
  simp [natDigits_ne_nil, h]

theorem lt_wordBound {n : Nat} (h : fitsInt64 n = true) : n < wordBound := by
  rw [fitsInt64, Bool.and_eq_true, decide_eq_true_eq, decide_eq_true_eq] at h
  have below := h.2
  unfold int64Max at below
  unfold wordBound
  omega

/-! ## §3 Quoted texts -/

theorem eq_of_opensQuote {quote : Char} (h : opensQuote quote = true) :
    quote = '\'' ∨ quote = '"' := by
  simpa [opensQuote] using h

/-- A text is read back from between its quotes. -/
theorem readLiteral_escaped {quote : Char} (hq : opensQuote quote = true) (cs rest : List Char) :
    readLiteral quote (cs.flatMap (escapedIn quote) ++ quote :: rest) = some (cs, rest) := by
  have plain : quote ≠ '\\' ∧ quote ≠ 'n' ∧ quote ≠ 't' := by
    rcases eq_of_opensQuote hq with rfl | rfl <;> decide
  obtain ⟨not_escape, not_break, not_tab⟩ := plain
  induction cs with
  | nil =>
    rw [List.flatMap_nil, List.nil_append]
    unfold readLiteral
    rw [if_pos rfl]
  | cons c cs ih =>
    have head : escapedIn quote c = if c = quote || c = '\\' then ['\\', c]
      else if c = '\n' then ['\\', 'n'] else if c = '\t' then ['\\', 't'] else [c] := rfl
    rw [List.flatMap_cons, List.append_assoc, head]
    generalize cs.flatMap (escapedIn quote) ++ quote :: rest = more at ih ⊢
    split
    · rename_i special
      have kept : c ≠ 'n' ∧ c ≠ 't' := by
        rw [Bool.or_eq_true, decide_eq_true_eq, decide_eq_true_eq] at special
        rcases special with rfl | rfl
        · exact ⟨not_break, not_tab⟩
        · decide
      simp [readLiteral, not_escape.symm, kept, ih]
    split
    · rename_i line_break
      simp [readLiteral, not_escape.symm, ih, line_break]
    split
    · rename_i tab
      simp [readLiteral, not_escape.symm, ih, tab]
    · rename_i special _ _
      rw [Bool.or_eq_true, decide_eq_true_eq, decide_eq_true_eq, not_or] at special
      rw [List.singleton_append]
      unfold readLiteral
      rw [if_neg special.1, if_neg special.2, ih]
      rfl

/-! ## §4 Single words -/

/-- The word is read back from how it is spelled. -/
def Token.isLegible : Token → Bool
  | .int n => fitsInt64 n
  | .float _ => false
  | .name s => isIdentifier s
  | .text _ | .sign _ => true

/-- Nothing follows, or a blank. -/
def Separated (rest : List Char) : Prop := rest = [] ∨ ∃ more, rest = ' ' :: more

variable {quote : Char} {rest : List Char}

/-- A run of characters of the kind is over where the text begins. -/
def Stops (p : Char → Bool) (rest : List Char) : Prop := ∀ c more, rest = c :: more → p c = false

/-- Nothing goes on before a blank, unless blanks are of the kind. -/
theorem Separated.stops {p : Char → Bool} (sep : Separated rest) (hp : p ' ' = false) :
    Stops p rest := by
  rintro c more rfl
  rcases sep with none_left | ⟨others, blank⟩
  · cases none_left
  · rwa [(List.cons.inj blank).1]

/-- What a run of characters stops at does not lengthen it. -/
theorem Stops.run_append {p : Char → Bool} (stops : Stops p rest) (cs : List Char) :
    (cs ++ rest).takeWhile p = cs.takeWhile p
      ∧ (cs ++ rest).dropWhile p = cs.dropWhile p ++ rest := by
  induction cs with
  | nil =>
    cases rest with
    | nil => exact ⟨rfl, rfl⟩
    | cons c more => simp [stops c more rfl]
  | cons c cs ih => by_cases more : p c = true <;> simp [more, ih]

theorem Stops.takeWhile_append {p : Char → Bool} (stops : Stops p rest) {cs : List Char}
    (all : ∀ c ∈ cs, p c = true) : (cs ++ rest).takeWhile p = cs := by
  rw [List.takeWhile_append_of_pos all]
  simpa using (stops.run_append []).1

theorem Stops.dropWhile_append {p : Char → Bool} (stops : Stops p rest) {cs : List Char}
    (all : ∀ c ∈ cs, p c = true) : (cs ++ rest).dropWhile p = rest := by
  rw [List.dropWhile_append_of_pos all]
  simpa using (stops.run_append []).2

/-- The word at the head of a text is the one that is spelled there. -/
def ReadsAs (cs rest : List Char) (t : Token) : Prop :=
  ∃ c tail, cs = c :: tail ∧ isBlank c = false ∧ Token.read c (tail ++ rest) = .ok (t, rest)

/-- What a word can be: a number, with or without a fraction, a name, a quoted text or a sign. -/
theorem Token.read_cases {c : Char} {rest tail : List Char} {t : Token}
    (read : Token.read c rest = .ok (t, tail)) :
    (c.isDigit = true ∧ ((∃ digits, readFraction (rest.dropWhile Char.isDigit) = some (digits, tail)
        ∧ t = .ofDigits (c :: rest.takeWhile Char.isDigit) (some digits))
      ∨ readFraction (rest.dropWhile Char.isDigit) = none ∧ tail = rest.dropWhile Char.isDigit
        ∧ t = .ofDigits (c :: rest.takeWhile Char.isDigit) none)) ∨
    (c.isDigit = false ∧ startsName c = true ∧ tail = rest.dropWhile continuesName
      ∧ t = .name (String.ofList (c :: rest.takeWhile continuesName))) ∨
    (c.isDigit = false ∧ startsName c = false ∧ opensQuote c = true
      ∧ ∃ text, readLiteral c rest = some (text, tail) ∧ t = .text (String.ofList text)) ∨
    (c.isDigit = false ∧ startsName c = false ∧ opensQuote c = false
      ∧ ∃ s, Sign.read? (c :: rest) = some (s, tail) ∧ t = .sign s) := by
  rw [Token.read] at read
  by_cases digit : c.isDigit = true
  · rw [if_pos digit] at read
    refine Or.inl ⟨digit, ?_⟩
    dsimp only at read
    split at read
    · rename_i fraction
      cases read
      exact Or.inl ⟨_, fraction, rfl⟩
    · rename_i no_fraction
      cases read
      exact Or.inr ⟨no_fraction, rfl, rfl⟩
  rw [if_neg digit] at read
  rw [Bool.not_eq_true] at digit
  by_cases starts : startsName c = true
  · rw [if_pos starts] at read
    cases read
    exact Or.inr (Or.inl ⟨digit, starts, rfl, rfl⟩)
  rw [if_neg starts] at read
  rw [Bool.not_eq_true] at starts
  change (if opensQuote c = true then _ else _) = _ at read
  by_cases quote : opensQuote c = true
  · rw [if_pos quote] at read
    split at read
    · rename_i literal
      cases read
      exact Or.inr (Or.inr (Or.inl ⟨digit, starts, quote, _, literal, rfl⟩))
    · cases read
  rw [if_neg quote] at read
  rw [Bool.not_eq_true] at quote
  split at read
  · rename_i sign
    cases read
    exact Or.inr (Or.inr (Or.inr ⟨digit, starts, quote, _, sign, rfl⟩))
  · cases read

/-- Digits are read up to their end, with the fraction if one follows. -/
theorem read_digits {c : Char} {cs tail : List Char} (digits : ∀ d ∈ c :: cs, d.isDigit = true)
    (stops : Stops Char.isDigit tail) :
    Token.read c (cs ++ tail) = .ok (match readFraction tail with
      | some (fraction, rest) => (.ofDigits (c :: cs) (some fraction), rest)
      | none => (.ofDigits (c :: cs) none, tail)) := by
  rw [List.forall_mem_cons] at digits
  simp only [Token.read, digits.1, if_true, stops.takeWhile_append digits.2,
    stops.dropWhile_append digits.2]
  cases readFraction tail <;> rfl

theorem readsAs_whole {cs : List Char} (hne : cs ≠ []) (digits : ∀ c ∈ cs, c.isDigit = true)
    (stops : Stops Char.isDigit rest) (no_fraction : readFraction rest = none) :
    ReadsAs cs rest (.ofDigits cs none) := by
  obtain ⟨c, tail, rfl⟩ := List.exists_cons_of_ne_nil hne
  have not_blank := (startsName_isBlank_of_isDigit (digits c List.mem_cons_self)).2
  refine ⟨c, tail, rfl, not_blank, ?_⟩
  rw [read_digits digits stops, no_fraction]

/-- The digits behind a point are a fraction, if there are any. -/
theorem readFraction_digits {cs : List Char} (hne : cs ≠ []) (digits : ∀ c ∈ cs, c.isDigit = true)
    (stops : Stops Char.isDigit rest) : readFraction ('.' :: (cs ++ rest)) = some (cs, rest) := by
  obtain ⟨c, tail, rfl⟩ := List.exists_cons_of_ne_nil hne
  rw [List.forall_mem_cons] at digits
  simp only [List.cons_append, readFraction, digits.1, if_true, stops.takeWhile_append digits.2,
    stops.dropWhile_append digits.2]

theorem readsAs_decimal {front fraction : List Char} (front_ne : front ≠ [])
    (front_digits : ∀ c ∈ front, c.isDigit = true) (fraction_ne : fraction ≠ [])
    (fraction_digits : ∀ c ∈ fraction, c.isDigit = true) (stops : Stops Char.isDigit rest) :
    ReadsAs (front ++ '.' :: fraction) rest (.ofDigits front (some fraction)) := by
  obtain ⟨c, tail, rfl⟩ := List.exists_cons_of_ne_nil front_ne
  have not_blank := (startsName_isBlank_of_isDigit (front_digits c List.mem_cons_self)).2
  have point : Stops Char.isDigit ('.' :: (fraction ++ rest)) := by
    rintro c more heq
    cases heq
    decide
  refine ⟨c, tail ++ '.' :: fraction, rfl, not_blank, ?_⟩
  rw [List.append_assoc, List.cons_append, read_digits front_digits point,
    readFraction_digits fraction_ne fraction_digits stops]

theorem ofDigits_natDigits {n : Nat} (fits : fitsInt64 n = true) :
    Token.ofDigits (natDigits n) none = .int n := by
  simp [Token.ofDigits, readDigits_natDigits (lt_wordBound fits), Option.filter, fits]

theorem readsAs_int {n : Nat} (fits : fitsInt64 n = true) (sep : Separated rest) :
    ReadsAs (natDigits n) rest (.int n) := by
  have no_fraction : readFraction rest = none := by
    rcases sep with rfl | ⟨more, rfl⟩ <;> rfl
  rw [← ofDigits_natDigits fits]
  exact readsAs_whole (natDigits_ne_nil n) (fun c => isDigit_of_mem_natDigits)
    (sep.stops (by decide)) no_fraction

theorem readsAs_name {s : String} (identifier : isIdentifier s = true)
    (stops : Stops continuesName rest) : ReadsAs s.toList rest (.name s) := by
  obtain ⟨c, tail, hs, starts, continues⟩ := isIdentifier_cases identifier
  have not_blank : isBlank c = false := by
    cases blank : isBlank c with
    | false => rfl
    | true =>
      rw [startsName_of_isBlank blank] at starts
      cases starts
  refine ⟨c, tail, hs, not_blank, ?_⟩
  simp only [Token.read, isDigit_of_startsName starts, starts, Bool.false_eq_true, if_false,
    if_true, stops.takeWhile_append continues, stops.dropWhile_append continues]
  rw [← hs, String.ofList_toList]

theorem readsAs_text (hq : opensQuote quote = true) (s : String) :
    ReadsAs ((Token.text s).spelled quote) rest (.text s) := by
  have other : isBlank quote = false ∧ quote.isDigit = false ∧ startsName quote = false := by
    rcases eq_of_opensQuote hq with rfl | rfl <;> decide
  refine ⟨quote, s.toList.flatMap (escapedIn quote) ++ [quote], rfl, other.1, ?_⟩
  have marks : (decide (quote = '\'') || decide (quote = '"')) = true := hq
  simp only [Token.read, other.2.1, other.2.2, Bool.false_eq_true, if_false, marks, if_true,
    List.append_assoc, List.singleton_append, readLiteral_escaped hq, String.ofList_toList]

theorem readsAs_sign (s : Sign) (sep : Separated rest) :
    ReadsAs s.written.toList rest (.sign s) := by
  rcases sep with rfl | ⟨more, rfl⟩ <;> cases s <;> exact ⟨_, _, rfl, by decide, by rfl⟩

theorem readsAs_spelled (hq : opensQuote quote = true) {t : Token} (legible : t.isLegible = true)
    (sep : Separated rest) : ReadsAs (t.spelled quote) rest t := by
  cases t with
  | int n => exact readsAs_int legible sep
  | float x => cases legible
  | text s => exact readsAs_text hq s
  | name s => exact readsAs_name legible (sep.stops (by decide))
  | sign s => exact readsAs_sign s sep

/-! ## §5 Texts -/

/-- The text is cut into the words, with any fuel that its length allows. -/
def LexesTo (cs : List Char) (ts : List Token) : Prop :=
  ∀ fuel, cs.length ≤ fuel → tokensFrom fuel cs = .ok ts

/-- What holds of the empty text, and goes on to hold in front of it with each blank and with each
word, holds of every text that has words. -/
theorem words_induction {P : List Char → List Token → Prop} (empty : P [] [])
    (blank : ∀ {c rest ts}, isBlank c = true → P rest ts → P (c :: rest) ts)
    (word : ∀ {c rest t tail ts}, isBlank c = false → Token.read c rest = .ok (t, tail) →
      P tail ts → P (c :: rest) (t :: ts))
    {fuel : Nat} {cs : List Char} {ts : List Token} (h : tokensFrom fuel cs = .ok ts) : P cs ts := by
  induction fuel generalizing cs ts with
  | zero =>
    cases cs with
    | nil =>
      cases h
      exact empty
    | cons c rest => cases h
  | succ fuel ih =>
    cases cs with
    | nil =>
      cases h
      exact empty
    | cons c rest =>
      rw [tokensFrom] at h
      split at h
      · rename_i is_blank
        exact blank is_blank (ih h)
      · rename_i not_blank
        split at h
        · cases h
        · rename_i read
          split at h
          · cases h
          · rename_i later
            cases h
            exact word (Bool.eq_false_iff.mpr not_blank) read (ih later)

theorem LexesTo.nil : LexesTo [] [] := fun fuel _ => by cases fuel <;> rfl

theorem LexesTo.after_blank {cs : List Char} {ts : List Token} (h : LexesTo cs ts) {c : Char}
    (blank : isBlank c = true) : LexesTo (c :: cs) ts := by
  intro fuel enough
  rw [List.length_cons] at enough
  obtain ⟨fuel, rfl⟩ : ∃ m, fuel = m + 1 := ⟨fuel - 1, by omega⟩
  simp only [tokensFrom, blank, if_true, h fuel (by omega)]

theorem LexesTo.blank {cs : List Char} {ts : List Token} (h : LexesTo cs ts) :
    LexesTo (' ' :: cs) ts :=
  h.after_blank (by decide)

theorem LexesTo.word {cs : List Char} {t : Token} {ts : List Token} (reads : ReadsAs cs rest t)
    (h : LexesTo rest ts) : LexesTo (cs ++ rest) (t :: ts) := by
  intro fuel enough
  obtain ⟨c, tail, rfl, not_blank, read⟩ := reads
  rw [List.cons_append, List.length_cons, List.length_append] at enough
  obtain ⟨fuel, rfl⟩ : ∃ m, fuel = m + 1 := ⟨fuel - 1, by omega⟩
  simp only [List.cons_append, tokensFrom, not_blank, Bool.false_eq_true, if_false, read,
    h fuel (by omega)]

theorem LexesTo.tokens {cs : List Char} {ts : List Token} (h : LexesTo cs ts) :
    tokens cs = .ok ts := h _ (Nat.le_refl _)

theorem spell_cons (quote : Char) (t : Token) (ts : List Token) :
    ∃ rest, spell quote (t :: ts) = t.spelled quote ++ rest ∧ Separated rest
      ∧ (ts = [] ∧ rest = [] ∨ rest = ' ' :: spell quote ts) := by
  cases ts with
  | nil => exact ⟨[], by simp [spell], Or.inl rfl, Or.inl ⟨rfl, rfl⟩⟩
  | cons next ts =>
    exact ⟨' ' :: spell quote (next :: ts), by simp [spell], Or.inr ⟨_, rfl⟩, Or.inr rfl⟩

/-- A text of words is cut into these words. -/
theorem lexesTo_spell (hq : opensQuote quote = true) {ts : List Token}
    (legible : ∀ t ∈ ts, t.isLegible = true) : LexesTo (spell quote ts) ts := by
  induction ts with
  | nil => exact .nil
  | cons t ts ih =>
    rw [List.forall_mem_cons] at legible
    obtain ⟨rest, spelled, sep, after⟩ := spell_cons quote t ts
    rw [spelled]
    refine .word (readsAs_spelled hq legible.1 sep) ?_
    rcases after with ⟨rfl, rfl⟩ | rfl
    · exact .nil
    · exact (ih legible.2).blank

theorem tokens_spell (hq : opensQuote quote = true) {ts : List Token}
    (legible : ∀ t ∈ ts, t.isLegible = true) : tokens (spell quote ts) = .ok ts :=
  (lexesTo_spell hq legible).tokens

end Tabletop
