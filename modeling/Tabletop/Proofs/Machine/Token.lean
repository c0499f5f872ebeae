/-
Tabletop.Proofs.Machine.Token — cutting an expression at positions.

The machine goes through the characters with a position: it looks at the
character there, skips to the end of a word, looks ahead for the digit
behind a point and for the second character of a sign, and cuts the word
out. It looks and cuts only where there are characters. What it finds are
the words that `tokens` reads.

  §1 The machine
  §2 Runs of characters
  §3 Numbers and names
  §4 Quoted texts
  §5 Signs
  §6 Texts
-/
import Tabletop.Proofs.Machine.Word
import Tabletop.Proofs.Template.Lexing

namespace Tabletop

/-- The signs in the order in which they are tried. -/
def Sign.all : List Sign :=
  [.doubleSlash, .equal, .notEqual, .lessEqual, .greaterEqual, .doubleAnd, .doubleBar, .openParen,
    .closeParen, .openBracket, .closeBracket, .comma, .dot, .bar, .plus, .minus, .star, .slash,
    .percent, .tilde, .less, .greater, .bang, .assign]

namespace Machine

open String (utf8Len)

/-! ## §1 The machine -/

/-- One step over a character of the kind. -/
def skipRound (kind : Char → Bool) (cs : List Char) (position : Nat) : Machine (Nat ⊕ Nat) :=
  if position < cs.length then do
    let c ← item cs position
    if kind c then do
      let next ← word (position + 1)
      .ok (.inl next)
    else .ok (.inr position)
  else .ok (.inr position)

/-- The first position from the one given at which there is no character of the kind. -/
def skip (kind : Char → Bool) (cs : List Char) (position : Nat) : Machine Nat :=
  loop (skipRound kind cs) (cs.length + 1) position

/-- There is a point at the position and a digit behind it. -/
def beginsFraction (cs : List Char) (position : Nat) : Machine Bool := do
  let next ← word (position + 1)
  if next < cs.length then do
    let c ← item cs position
    if c = '.' then do
      let d ← item cs next
      .ok d.isDigit
    else .ok false
  else .ok false

/-- The number that begins at the position, and the position behind it. -/
def readNumber (cs : List Char) (start : Nat) : Machine (Token × Nat) := do
  let point ← skip Char.isDigit cs start
  if ← beginsFraction cs point then do
    let first ← word (point + 1)
    let stop ← skip Char.isDigit cs first
    let text ← slice cs start stop
    let front := text.takeWhile Char.isDigit
    .ok (.ofDigits front (some (text.drop (front.length + 1))), stop)
  else do
    let text ← slice cs start point
    .ok (.ofDigits text none, point)

/-- The name that begins at the position, and the position behind it. -/
def readName (cs : List Char) (start : Nat) : Machine (Token × Nat) := do
  let stop ← skip continuesName cs start
  let text ← slice cs start stop
  .ok (.name (String.ofList text), stop)

/-- A backslash takes the next character with it, if there is one. -/
def escapes (cs : List Char) (c : Char) (position : Nat) : Machine Bool :=
  if c = '\\' then do
    let next ← word (position + 1)
    .ok (decide (next < cs.length))
  else .ok false

/-- One character of a quoted text, or its end. -/
def readTextRound (quote : Char) (cs : List Char) :
    List Char × Nat → Machine ((List Char × Nat) ⊕ Option (List Char × Nat))
  | (text, position) =>
      if position < cs.length then do
        let c ← item cs position
        if c = quote then do
          let next ← word (position + 1)
          .ok (.inr (some (text, next)))
        else if ← escapes cs c position then do
          let position ← word (position + 1)
          let d ← item cs position
          let next ← word (position + 1)
          .ok (.inl (text ++ [if d = 'n' then '\n' else if d = 't' then '\t' else d], next))
        else do
          let next ← word (position + 1)
          .ok (.inl (text ++ [c], next))
      else .ok (.inr none)

/-- The text whose opening quote is at the position, and the position behind its closing quote. -/
def readText (cs : List Char) (start : Nat) : Machine (Option (List Char × Nat)) := do
  let quote ← item cs start
  let first ← word (start + 1)
  loop (readTextRound quote cs) (cs.length + 1) ([], first)

/-- The sign at the position, and the position behind it. -/
def readSign (cs : List Char) (position : Nat) : Machine (Option (Sign × Nat)) := do
  let far ← word (position + 2)
  let remaining ← slice cs position (min cs.length far)
  match Sign.all.find? fun s => s.written.toList.isPrefixOf remaining with
  | none => .ok none
  | some s => do
      let next ← word (position + utf8Len s.written.toList)
      .ok (some (s, next))

/-- The word that begins with the character at the position, and the position behind it. -/
def readToken (cs : List Char) (c : Char) (position : Nat) :
    Machine (Except TokenFault (Token × Nat)) :=
  if c.isDigit then do
    let found ← readNumber cs position
    .ok (.ok found)
  else if startsName c then do
    let found ← readName cs position
    .ok (.ok found)
  else if c = '\'' || c = '"' then do
    match ← readText cs position with
    | some (text, next) => .ok (.ok (.text (String.ofList text), next))
    | none => .ok (.error .unterminatedText)
  else do
    match ← readSign cs position with
    | some (s, next) => .ok (.ok (.sign s, next))
    | none => .ok (.error (.unexpectedCharacter c))

/-- One blank or one word. -/
def tokenRound (cs : List Char) :
    Nat × List Token → Machine ((Nat × List Token) ⊕ Except TokenFault (List Token))
  | (position, found) =>
      if position < cs.length then do
        let c ← item cs position
        if isBlank c then do
          let next ← word (position + 1)
          .ok (.inl (next, found))
        else do
          match ← readToken cs c position with
          | .ok (t, next) => .ok (.inl (next, found ++ [t]))
          | .error fault => .ok (.inr (.error fault))
      else .ok (.inr (.ok found))

/-- The words of a text. -/
def tokens (cs : List Char) : Machine (Except TokenFault (List Token)) :=
  loop (tokenRound cs) (cs.length + 1) (0, [])

/-! ## §2 Runs of characters -/

variable {cs ahead rest tail : List Char} {c : Char}

/-- A run of characters of a kind ends where another one stands. -/
theorem skip_eq (kind : Char → Bool) (small : cs.length < wordBound) (h : ahead <:+ cs) :
    skip kind cs (startOf cs ahead) = .ok (startOf cs (ahead.dropWhile kind)) := by
  have all : ∀ rounds (ahead : List Char), ahead.length < rounds → ahead <:+ cs →
      loop (skipRound kind cs) rounds (startOf cs ahead)
        = .ok (startOf cs (ahead.dropWhile kind)) := by
    intro rounds
    induction rounds with
    | zero => exact fun _ enough => absurd enough (Nat.not_lt_zero _)
    | succ rounds ih =>
      intro ahead enough h
      cases ahead with
      | nil =>
        have done : skipRound kind cs (startOf cs []) = .ok (.inr (startOf cs [])) :=
          if_neg (Nat.lt_irrefl _)
        rw [loop_done done]
        rfl
      | cons c rest =>
        have inside := startOf_lt h
        rw [List.length_cons] at enough
        by_cases more : kind c = true
        · have step : skipRound kind cs (startOf cs (c :: rest))
              = .ok (.inl (startOf cs rest)) := by
            rw [skipRound, if_pos inside, bind_eq (item_startOf h), if_pos more,
              bind_eq (word_eq (by omega)), startOf_succ h]
          rw [loop_next step, ih rest (by omega) (tail_suffix h), List.dropWhile_cons_of_pos more]
        · have done : skipRound kind cs (startOf cs (c :: rest))
              = .ok (.inr (startOf cs (c :: rest))) := by
            rw [skipRound, if_pos inside, bind_eq (item_startOf h), if_neg more]
          rw [loop_done done, List.dropWhile_cons_of_neg more]
  exact all (cs.length + 1) ahead (Nat.lt_succ_of_le h.length_le) h

/-! ## §3 Numbers and names -/

/-- The machine looks ahead for a fraction where one is read. -/
theorem beginsFraction_eq (small : cs.length + 1 < wordBound) (h : ahead <:+ cs) :
    beginsFraction cs (startOf cs ahead) = .ok (readFraction ahead).isSome := by
  have inside := startOf_le cs ahead
  rw [beginsFraction, bind_eq (word_eq (by omega))]
  match ahead with
  | [] =>
    rw [if_neg (by simp [startOf])]
    rfl
  | [c] =>
    rw [startOf_succ h, startOf_nil, if_neg (Nat.lt_irrefl _)]
    simp [readFraction]
  | c :: d :: rest =>
    rw [startOf_succ h, if_pos (startOf_lt (tail_suffix h)), bind_eq (item_startOf h)]
    by_cases point : c = '.'
    · rw [if_pos point, bind_eq (item_startOf (tail_suffix h)), point, readFraction]
      split <;> simp_all
    · rw [if_neg point]
      simp [readFraction, point]

/-- A fraction is a point and the digits behind it. -/
theorem eq_of_readFraction {digits : List Char} (h : readFraction ahead = some (digits, tail)) :
    ahead = '.' :: (digits ++ tail) ∧ tail = (digits ++ tail).dropWhile Char.isDigit := by
  unfold readFraction at h
  split at h
  · split at h
    · rename_i c rest digit
      cases h
      rw [List.cons_append, List.takeWhile_append_dropWhile, List.dropWhile_cons_of_pos digit]
      exact ⟨rfl, rfl⟩
    · cases h
  · cases h

/-- The number at the head of the rest. -/
theorem readNumber_eq (small : cs.length + 1 < wordBound) (h : c :: rest <:+ cs)
    (digit : c.isDigit = true) :
    ∃ t tail, Token.read c rest = .ok (t, tail)
      ∧ readNumber cs (startOf cs (c :: rest)) = .ok (t, startOf cs tail) := by
  obtain ⟨front, hfront⟩ : ∃ front, front = c :: rest.takeWhile Char.isDigit := ⟨_, rfl⟩
  obtain ⟨behind, hbehind⟩ : ∃ behind, behind = rest.dropWhile Char.isDigit := ⟨_, rfl⟩
  have split : c :: rest = front ++ behind := by
    rw [hfront, hbehind, List.cons_append, List.takeWhile_append_dropWhile]
  have inside : behind <:+ cs := (hbehind ▸ List.dropWhile_suffix _).trans (tail_suffix h)
  rw [Token.read, if_pos digit]
  dsimp only
  rw [← hbehind, ← hfront, readNumber, bind_eq (skip_eq _ (by omega) h),
    List.dropWhile_cons_of_pos digit, ← hbehind, bind_eq (beginsFraction_eq small inside), split]
  rw [split] at h
  cases fraction : readFraction behind with
  | none =>
    refine ⟨_, _, rfl, ?_⟩
    rw [if_neg (by simp), bind_eq (slice_startOf h)]
  | some found =>
    obtain ⟨digits, tail⟩ := found
    obtain ⟨rfl, run⟩ := eq_of_readFraction fraction
    refine ⟨_, _, rfl, ?_⟩
    have point_inside := startOf_lt inside
    have all_digits : ∀ d ∈ front, d.isDigit = true := by
      intro d hd
      rw [hfront, ← List.takeWhile_cons_of_pos digit] at hd
      exact List.all_eq_true.mp List.all_takeWhile d hd
    have front_digits : (front ++ '.' :: digits).takeWhile Char.isDigit = front := by
      rw [List.takeWhile_append_of_pos all_digits, List.takeWhile_cons_of_neg (by decide),
        List.append_nil]
    have whole : front ++ '.' :: (digits ++ tail) = (front ++ '.' :: digits) ++ tail := by simp
    rw [if_pos (by simp), bind_eq (word_eq (by omega)), startOf_succ inside,
      bind_eq (skip_eq _ (by omega) (tail_suffix inside)), ← run, whole,
      bind_eq (slice_startOf (whole ▸ h)), front_digits]
    simp

/-- The name at the head of the rest. -/
theorem readName_eq (small : cs.length + 1 < wordBound) (h : c :: rest <:+ cs)
    (starts : startsName c = true) :
    readName cs (startOf cs (c :: rest))
      = .ok (.name (String.ofList (c :: rest.takeWhile continuesName)),
          startOf cs (rest.dropWhile continuesName)) := by
  have split : c :: rest = (c :: rest.takeWhile continuesName) ++ rest.dropWhile continuesName := by
    rw [List.cons_append, List.takeWhile_append_dropWhile]
  rw [readName, bind_eq (skip_eq _ (by omega) h),
    List.dropWhile_cons_of_pos (continuesName_of_startsName starts)]
  rw [split] at h ⊢
  rw [bind_eq (slice_startOf h)]

/-! ## §4 Quoted texts -/

section Literals

variable {quote : Char}

theorem readLiteral_close (rest : List Char) :
    readLiteral quote (quote :: rest) = some ([], rest) := by
  unfold readLiteral
  rw [if_pos rfl]

theorem readLiteral_last (other : '\\' ≠ quote) : readLiteral quote ['\\'] = none := by
  unfold readLiteral
  rw [if_neg other, if_pos rfl]

/-- The character that stands for an escaped one. -/
def unescaped (d : Char) : Char := if d = 'n' then '\n' else if d = 't' then '\t' else d

theorem readLiteral_escape (other : '\\' ≠ quote) (d : Char) (rest : List Char) :
    readLiteral quote ('\\' :: d :: rest)
      = (readLiteral quote rest).map fun p => (unescaped d :: p.1, p.2) := by
  conv_lhs => unfold readLiteral
  rw [if_neg other, if_pos rfl]
  rfl

theorem readLiteral_plain (other : c ≠ quote) (plain : c ≠ '\\') (rest : List Char) :
    readLiteral quote (c :: rest) = (readLiteral quote rest).map fun p => (c :: p.1, p.2) := by
  conv_lhs => unfold readLiteral
  rw [if_neg other, if_neg plain]

/-- What follows a quoted text is a tail of what it was read from. -/
theorem suffix_of_readLiteral {text : List Char} (h : readLiteral quote cs = some (text, tail)) :
    tail <:+ cs := by
  induction cs using readLiteral.induct quote generalizing text with
  | case1 => cases h
  | case2 rest =>
    rw [readLiteral_close] at h
    cases h
    exact List.suffix_cons _ _
  | case3 other =>
    rw [readLiteral_last other] at h
    cases h
  | case4 d rest other ih =>
    rw [readLiteral_escape other] at h
    obtain ⟨⟨more, after⟩, read, heq⟩ := Option.map_eq_some_iff.mp h
    cases heq
    exact (ih read).trans ((List.suffix_cons _ _).trans (List.suffix_cons _ _))
  | case5 c rest other plain ih =>
    rw [readLiteral_plain other plain] at h
    obtain ⟨⟨more, after⟩, read, heq⟩ := Option.map_eq_some_iff.mp h
    cases heq
    exact (ih read).trans (List.suffix_cons _ _)

/-- A backslash escapes the character behind it if there is one. -/
theorem escapes_eq (small : cs.length + 1 < wordBound) (h : c :: rest <:+ cs) :
    escapes cs c (startOf cs (c :: rest)) = .ok (decide (c = '\\' ∧ rest ≠ [])) := by
  have inside := startOf_lt h
  by_cases backslash : c = '\\'
  · rw [escapes, if_pos backslash, bind_eq (word_eq (by omega)), startOf_succ h]
    cases rest with
    | nil => simp [startOf_nil]
    | cons d rest => simp [startOf_lt (tail_suffix h), backslash]
  · rw [escapes, if_neg backslash]
    simp [backslash]

variable {text : List Char}

theorem readTextRound_close (small : cs.length + 1 < wordBound) (h : quote :: rest <:+ cs) :
    readTextRound quote cs (text, startOf cs (quote :: rest))
      = .ok (.inr (some (text, startOf cs rest))) := by
  have inside := startOf_lt h
  rw [readTextRound, if_pos inside, bind_eq (item_startOf h), if_pos rfl,
    bind_eq (word_eq (by omega)), startOf_succ h]

theorem readTextRound_escape (small : cs.length + 1 < wordBound) {d : Char}
    (h : '\\' :: d :: rest <:+ cs) (other : '\\' ≠ quote) :
    readTextRound quote cs (text, startOf cs ('\\' :: d :: rest))
      = .ok (.inl (text ++ [unescaped d], startOf cs rest)) := by
  have inside := startOf_lt h
  have behind := startOf_lt (tail_suffix h)
  rw [readTextRound, if_pos inside, bind_eq (item_startOf h), if_neg other,
    bind_eq (escapes_eq small h), if_pos (by simp), bind_eq (word_eq (by omega)), startOf_succ h,
    bind_eq (item_startOf (tail_suffix h)), bind_eq (word_eq (by omega)),
    startOf_succ (tail_suffix h)]
  rfl

theorem readTextRound_plain (small : cs.length + 1 < wordBound) (h : c :: rest <:+ cs)
    (other : c ≠ quote) (plain : ¬ (c = '\\' ∧ rest ≠ [])) :
    readTextRound quote cs (text, startOf cs (c :: rest))
      = .ok (.inl (text ++ [c], startOf cs rest)) := by
  have inside := startOf_lt h
  rw [readTextRound, if_pos inside, bind_eq (item_startOf h), if_neg other,
    bind_eq (escapes_eq small h), if_neg (by simpa using plain), bind_eq (word_eq (by omega)),
    startOf_succ h]

/-- The characters before the position are in the text already, and the others are read from
there. -/
theorem loop_readTextRound (small : cs.length + 1 < wordBound) (h : ahead <:+ cs) {rounds : Nat}
    (enough : ahead.length < rounds) (text : List Char) :
    loop (readTextRound quote cs) rounds (text, startOf cs ahead)
      = .ok ((readLiteral quote ahead).map fun p => (text ++ p.1, startOf cs p.2)) := by
  have unclosed : ∀ rounds text,
      loop (readTextRound quote cs) (rounds + 1) (text, startOf cs []) = .ok none := by
    intro rounds text
    have round : readTextRound quote cs (text, startOf cs []) = .ok (.inr none) :=
      if_neg (Nat.lt_irrefl _)
    exact loop_done round _
  induction ahead using readLiteral.induct quote generalizing rounds text with
  | case1 =>
    obtain ⟨rounds, rfl⟩ := Nat.exists_eq_succ_of_ne_zero (Nat.ne_zero_of_lt enough)
    exact unclosed rounds text
  | case2 rest =>
    obtain ⟨rounds, rfl⟩ := Nat.exists_eq_succ_of_ne_zero (Nat.ne_zero_of_lt enough)
    rw [loop_done (readTextRound_close small h), readLiteral_close]
    simp
  | case3 other =>
    obtain ⟨rounds, rfl⟩ := Nat.exists_eq_add_of_lt enough
    rw [loop_next (readTextRound_plain small h other (by simp)), readLiteral_last other]
    simp only [List.length_singleton, Nat.add_comm 1]
    exact unclosed rounds _
  | case4 d rest other ih =>
    obtain ⟨rounds, rfl⟩ := Nat.exists_eq_succ_of_ne_zero (Nat.ne_zero_of_lt enough)
    simp only [List.length_cons] at enough
    rw [loop_next (readTextRound_escape small h other),
      ih (tail_suffix (tail_suffix h)) (by omega), readLiteral_escape other, Option.map_map]
    simp [Function.comp_def]
  | case5 c rest other plain ih =>
    obtain ⟨rounds, rfl⟩ := Nat.exists_eq_succ_of_ne_zero (Nat.ne_zero_of_lt enough)
    rw [List.length_cons] at enough
    rw [loop_next (readTextRound_plain small h other (by simp [plain])),
      ih (tail_suffix h) (by omega), readLiteral_plain other plain, Option.map_map]
    simp [Function.comp_def]

end Literals

/-- The text behind an opening quote. -/
theorem readText_eq (small : cs.length + 1 < wordBound) (h : c :: rest <:+ cs) :
    readText cs (startOf cs (c :: rest))
      = .ok ((readLiteral c rest).map fun p => (p.1, startOf cs p.2)) := by
  have inside := startOf_lt h
  have next := tail_suffix h
  rw [readText, bind_eq (item_startOf h), bind_eq (word_eq (by omega)), startOf_succ h,
    loop_readTextRound small next (Nat.lt_succ_of_le next.length_le)]
  simp

/-! ## §5 Signs -/

theorem isPrefixOf_of_not {piece : List Char} (other : ∀ more, cs = piece ++ more → False) :
    piece.isPrefixOf cs = false := by
  rw [← Bool.not_eq_true, List.isPrefixOf_iff_prefix]
  rintro ⟨more, rfl⟩
  exact other more rfl

theorem isPrefixOf_single {d : Char} (other : ∀ more, rest = d :: more → False) :
    [d].isPrefixOf rest = false :=
  isPrefixOf_of_not other

/-- The sign that is read is the first one that fits. -/
theorem read?_eq_find? (cs : List Char) :
    Sign.read? cs = (Sign.all.find? fun s => s.written.toList.isPrefixOf cs).map
      fun s => (s, cs.drop s.written.toList.length) := by
  unfold Sign.read?
  split
  -- no sign fits
  case h_25 =>
    simp only [Sign.all, Sign.written, List.find?_cons, List.find?_nil, String.reduceToList]
    repeat rw [isPrefixOf_of_not (by assumption)]
    rfl
  -- the first character of a sign of two, and another one behind it
  case h_14 | h_18 | h_21 | h_22 | h_23 | h_24 =>
    rename_i rest other
    simp [Sign.all, Sign.written, isPrefixOf_single other]
  all_goals simp [Sign.all, Sign.written]

/-- Signs have one or two characters, each of one byte. -/
theorem written_length (s : Sign) :
    s.written.toList.length ≤ 2 ∧ utf8Len s.written.toList = s.written.toList.length
      ∧ s.written.toList ≠ [] := by
  cases s <;> decide

/-- The characters that are looked at are enough to find the sign. -/
theorem isPrefixOf_take (s : Sign) (cs : List Char) :
    s.written.toList.isPrefixOf (cs.take 2) = s.written.toList.isPrefixOf cs := by
  rw [Bool.eq_iff_iff, List.isPrefixOf_iff_prefix, List.isPrefixOf_iff_prefix,
    List.prefix_take_iff, and_iff_left (written_length s).1]

theorem written_of_read? {s : Sign} (read : Sign.read? cs = some (s, tail)) :
    s.written.toList ++ tail = cs := by
  rw [read?_eq_find?, Option.map_eq_some_iff] at read
  obtain ⟨s', found, heq⟩ := read
  cases heq
  have fits := List.find?_some found
  rw [List.isPrefixOf_iff_prefix] at fits
  exact List.prefix_iff_eq_append.mp fits

/-- The sign at the head of the rest. -/
theorem readSign_eq (small : cs.length + 1 < wordBound) (h : c :: rest <:+ cs) :
    readSign cs (startOf cs (c :: rest))
      = .ok ((Sign.read? (c :: rest)).map fun p => (p.1, startOf cs p.2)) := by
  have inside := startOf_lt h
  have same : (fun s : Sign => s.written.toList.isPrefixOf ((c :: rest).take 2))
      = fun s => s.written.toList.isPrefixOf (c :: rest) := funext fun s => isPrefixOf_take s _
  rw [readSign, bind_eq (word_eq (by omega)), bind_eq (slice_take h 2), same]
  cases read : Sign.read? (c :: rest) with
  | none =>
    rw [read?_eq_find?, Option.map_eq_none_iff] at read
    rw [read]
    rfl
  | some found =>
    obtain ⟨s, tail⟩ := found
    have split := written_of_read? read
    rw [read?_eq_find?, Option.map_eq_some_iff] at read
    obtain ⟨s', found, heq⟩ := read
    cases heq
    rw [found]
    dsimp only
    have stop : startOf cs (c :: rest) + utf8Len s.written.toList
        = startOf cs ((c :: rest).drop s.written.toList.length) := by
      rw [(written_length s).2.1]
      have behind := startOf_append (split.symm ▸ h : s.written.toList ++ _ <:+ cs)
      rwa [split] at behind
    have stop_inside := startOf_le cs ((c :: rest).drop s.written.toList.length)
    rw [bind_eq (word_eq (by omega)), stop]
    rfl

/-! ## §6 Texts -/

/-- What follows a word is a tail of what follows its first character. -/
theorem suffix_of_read {t : Token} (read : Token.read c rest = .ok (t, tail)) : tail <:+ rest := by
  have behind : rest.dropWhile Char.isDigit <:+ rest := List.dropWhile_suffix _
  rcases Token.read_cases read with ⟨_, ⟨_, fraction, _⟩ | ⟨_, rfl, _⟩⟩ | ⟨_, _, rfl, _⟩
    | ⟨_, _, _, _, literal, _⟩ | ⟨_, _, _, s, sign, _⟩
  · rw [(eq_of_readFraction fraction).1] at behind
    exact (List.suffix_append _ _).trans (tail_suffix behind)
  · exact behind
  · exact List.dropWhile_suffix _
  · exact suffix_of_readLiteral literal
  · obtain ⟨d, more, written⟩ := List.exists_cons_of_ne_nil (written_length s).2.2
    have split := written_of_read? sign
    rw [written, List.cons_append] at split
    cases split
    exact List.suffix_append more _

/-- The word at the head of the rest. -/
theorem readToken_eq (small : cs.length + 1 < wordBound) (h : c :: rest <:+ cs) :
    readToken cs c (startOf cs (c :: rest))
      = .ok ((Token.read c rest).map fun p => (p.1, startOf cs p.2)) := by
  unfold readToken
  by_cases digit : c.isDigit = true
  · obtain ⟨t, tail, read, found⟩ := readNumber_eq small h digit
    rw [if_pos digit, bind_eq found, read]
    rfl
  · rw [if_neg digit, Token.read, if_neg digit]
    by_cases starts : startsName c = true
    · rw [if_pos starts, bind_eq (readName_eq small h starts), if_pos starts]
      rfl
    · rw [if_neg starts, if_neg starts]
      by_cases quote : (c = '\'' || c = '"') = true
      · rw [if_pos quote, bind_eq (readText_eq small h), if_pos quote]
        cases readLiteral c rest <;> rfl
      · rw [if_neg quote, bind_eq (readSign_eq small h), if_neg quote]
        cases Sign.read? (c :: rest) <;> rfl

/-- The words of the rest come behind those that were found before. -/
theorem loop_tokenRound (small : cs.length + 1 < wordBound) {fuel : Nat} (found : List Token)
    (h : ahead <:+ cs) (enough : ahead.length ≤ fuel) :
    loop (tokenRound cs) (fuel + 1) (startOf cs ahead, found)
      = .ok ((tokensFrom fuel ahead).map (found ++ ·)) := by
  induction fuel generalizing ahead found with
  | zero =>
    rw [List.length_eq_zero_iff.mp (Nat.le_zero.mp enough)]
    have done : tokenRound cs (startOf cs [], found) = .ok (.inr (.ok found)) :=
      if_neg (Nat.lt_irrefl _)
    rw [loop_done done]
    simp [tokensFrom, Except.map]
  | succ fuel ih =>
    cases ahead with
    | nil =>
      have done : tokenRound cs (startOf cs [], found) = .ok (.inr (.ok found)) :=
        if_neg (Nat.lt_irrefl _)
      rw [loop_done done]
      simp [tokensFrom, Except.map]
    | cons c rest =>
      have inside := startOf_lt h
      rw [List.length_cons] at enough
      rw [tokensFrom]
      by_cases blank : isBlank c = true
      · have round : tokenRound cs (startOf cs (c :: rest), found)
            = .ok (.inl (startOf cs rest, found)) := by
          rw [tokenRound, if_pos inside, bind_eq (item_startOf h), if_pos blank,
            bind_eq (word_eq (by omega)), startOf_succ h]
        rw [loop_next round, if_pos blank, ih _ (tail_suffix h) (by omega)]
      · have token := readToken_eq small h
        rw [if_neg blank]
        cases read : Token.read c rest with
        | error fault =>
          have round : tokenRound cs (startOf cs (c :: rest), found)
              = .ok (.inr (.error fault)) := by
            rw [tokenRound, if_pos inside, bind_eq (item_startOf h), if_neg blank, bind_eq token,
              read]
            rfl
          rw [loop_done round]
          rfl
        | ok pair =>
          obtain ⟨t, tail⟩ := pair
          have round : tokenRound cs (startOf cs (c :: rest), found)
              = .ok (.inl (startOf cs tail, found ++ [t])) := by
            rw [tokenRound, if_pos inside, bind_eq (item_startOf h), if_neg blank, bind_eq token,
              read]
            rfl
          have tail_rest := suffix_of_read read
          have shorter := tail_rest.length_le
          rw [loop_next round, ih _ (tail_rest.trans (tail_suffix h)) (by omega)]
          dsimp only
          cases tokensFrom fuel tail with
          | error fault => rfl
          | ok more => simp [Except.map]

/-- The machine cuts an expression into its words. -/
theorem tokens_eq (small : cs.length + 1 < wordBound) : tokens cs = .ok (Tabletop.tokens cs) := by
  have all := loop_tokenRound small [] (List.suffix_refl cs) (Nat.le_refl _)
  rw [startOf_self] at all
  rw [tokens, all, Tabletop.tokens]
  cases tokensFrom cs.length cs <;> rfl

end Machine

end Tabletop
