/-
Tabletop.Proofs.Template.Quotes — quotes, for the lexer and for the splitter.

Two scanners follow the quotes of an expression. The splitter, which looks
for the closing braces of a template, sees characters only; the lexer sees
words. Between them stands `BracesQuoted`: every quote is closed, and braces
stand only inside quotes. What the lexer accepts is such a text, and such a
text is passed over by the splitter, whatever comes behind it. So an
expression with words ends where its closing braces are put.

  §1 Texts with braces only inside quotes
  §2 The splitter passes over them
  §3 The lexer accepts no others
  §4 Templates, from one expression to the next
  §5 Expressions inside templates
-/
import Tabletop.Proofs.Machine.Segment
import Tabletop.Proofs.Machine.Token
import Tabletop.Proofs.Template.Lexing

namespace Tabletop

open String (utf8Len)

/-! ## §1 Texts with braces only inside quotes -/

/-- What may stand between a quote and the next one of its kind: a backslash takes the character
behind it along, even a quote. -/
inductive Inside (quote : Char) : List Char → Prop
  | nil : Inside quote []
  | escape (d : Char) {cs : List Char} : Inside quote cs → Inside quote ('\\' :: d :: cs)
  | plain {c : Char} {cs : List Char} (other : c ≠ quote) (no_escape : c ≠ '\\') :
      Inside quote cs → Inside quote (c :: cs)

/-- The character is neither a quote nor a brace. -/
def Unmarked (c : Char) : Prop := opensQuote c = false ∧ c ≠ openBrace ∧ c ≠ closeBrace

instance (c : Char) : Decidable (Unmarked c) := inferInstanceAs (Decidable (_ ∧ _))

/-- Every quote is closed, and braces stand only between quotes. -/
inductive BracesQuoted : List Char → Prop
  | nil : BracesQuoted []
  | plain {c : Char} {cs : List Char} (unmarked : Unmarked c) :
      BracesQuoted cs → BracesQuoted (c :: cs)
  | quoted {quote : Char} {body cs : List Char} (opens : opensQuote quote = true)
      (inside : Inside quote body) : BracesQuoted cs → BracesQuoted (quote :: (body ++ quote :: cs))

variable {cs ds body rest tail text : List Char} {c quote : Char}

theorem BracesQuoted.append (h : BracesQuoted cs) (later : BracesQuoted ds) :
    BracesQuoted (cs ++ ds) := by
  induction h with
  | nil => exact later
  | plain unmarked _ ih => exact .plain unmarked ih
  | quoted opens inside _ ih =>
    rw [List.cons_append, List.append_assoc, List.cons_append]
    exact .quoted opens inside ih

theorem bracesQuoted_of_unmarked (unmarked : ∀ c ∈ cs, Unmarked c) : BracesQuoted cs := by
  induction cs with
  | nil => exact .nil
  | cons c cs ih =>
    rw [List.forall_mem_cons] at unmarked
    exact .plain unmarked.1 (ih unmarked.2)

/-! ## §2 The splitter passes over them -/

/-- Within quotes the splitter goes on to the closing quote. -/
theorem takeExpression_inside (inside : Inside quote body) (no_escape : quote ≠ '\\') :
    takeExpression (some quote) false (body ++ quote :: rest)
      = (takeExpression none false rest).map fun p => (body ++ quote :: p.1, p.2) := by
  induction inside with
  | nil => simp [takeExpression, no_escape]
  | escape d _ ih => simp [takeExpression, ih, Option.map_map, Function.comp_def]
  | plain other no_backslash _ ih =>
    simp [takeExpression, other, no_backslash, ih, Option.map_map, Function.comp_def]

theorem ne_backslash_of_opensQuote (opens : opensQuote quote = true) : quote ≠ '\\' := by
  rcases eq_of_opensQuote opens with rfl | rfl <;> decide

theorem ne_brace_of_opensQuote (opens : opensQuote quote = true) :
    quote ≠ openBrace ∧ quote ≠ closeBrace := by
  rcases eq_of_opensQuote opens with rfl | rfl <;> decide

/-- The expression before closing braces is the whole text before them. -/
theorem BracesQuoted.takeExpression (h : BracesQuoted cs) (rest : List Char) :
    takeExpression none false (cs ++ closeBrace :: closeBrace :: rest) = some (cs, rest) := by
  induction h with
  | nil => simp [Tabletop.takeExpression]
  | plain unmarked _ ih =>
    simp [Tabletop.takeExpression, unmarked.1, unmarked.2.2, ih]
  | quoted opens inside _ ih =>
    simp [Tabletop.takeExpression, opens, (ne_brace_of_opensQuote opens).2,
      takeExpression_inside inside (ne_backslash_of_opensQuote opens), ih]

/-! ## §3 The lexer accepts no others -/

/-- A kind of character without quotes and braces. -/
theorem unmarked_of_kind {p : Char → Bool}
    (others : p '\'' = false ∧ p '"' = false ∧ p openBrace = false ∧ p closeBrace = false)
    (h : p c = true) : Unmarked c := by
  refine ⟨?_, ?_, ?_⟩
  · by_contra quote
    rw [Bool.not_eq_false] at quote
    rcases eq_of_opensQuote quote with rfl | rfl
    · rw [others.1] at h
      cases h
    · rw [others.2.1] at h
      cases h
  · rintro rfl
    rw [others.2.2.1] at h
    cases h
  · rintro rfl
    rw [others.2.2.2] at h
    cases h

theorem unmarked_of_isBlank (h : isBlank c = true) : Unmarked c :=
  unmarked_of_kind (by decide +kernel) h

theorem unmarked_of_isDigit (h : c.isDigit = true) : Unmarked c :=
  unmarked_of_kind (by decide +kernel) h

theorem unmarked_of_continuesName (h : continuesName c = true) : Unmarked c :=
  unmarked_of_kind (by decide +kernel) h

theorem unmarked_of_written (s : Sign) : ∀ c ∈ s.written.toList, Unmarked c := by
  have every : s.written.toList.all (fun c => decide (Unmarked c)) = true := by
    cases s <;> decide
  exact fun c mem => of_decide_eq_true (List.all_eq_true.mp every c mem)

/-- A quoted text is read up to its closing quote. -/
theorem inside_of_readLiteral (h : readLiteral quote cs = some (text, tail)) :
    ∃ body, cs = body ++ quote :: tail ∧ Inside quote body := by
  induction cs using readLiteral.induct quote generalizing text with
  | case1 => cases h
  | case2 rest =>
    rw [Machine.readLiteral_close] at h
    cases h
    exact ⟨[], rfl, .nil⟩
  | case3 other =>
    rw [Machine.readLiteral_last other] at h
    cases h
  | case4 d rest other ih =>
    rw [Machine.readLiteral_escape other] at h
    obtain ⟨⟨more, after⟩, read, heq⟩ := Option.map_eq_some_iff.mp h
    cases heq
    obtain ⟨body, rfl, inside⟩ := ih read
    exact ⟨'\\' :: d :: body, rfl, .escape d inside⟩
  | case5 c rest other plain ih =>
    rw [Machine.readLiteral_plain other plain] at h
    obtain ⟨⟨more, after⟩, read, heq⟩ := Option.map_eq_some_iff.mp h
    cases heq
    obtain ⟨body, rfl, inside⟩ := ih read
    exact ⟨c :: body, rfl, .plain other plain inside⟩

/-- The digits of a fraction are digits. -/
theorem isDigit_of_readFraction {digits : List Char} (h : readFraction cs = some (digits, tail)) :
    ∀ c ∈ digits, c.isDigit = true := by
  unfold readFraction at h
  split at h
  · split at h
    · rename_i digit
      cases h
      rw [List.forall_mem_cons]
      exact ⟨digit, fun c hc => List.all_eq_true.mp List.all_takeWhile c hc⟩
    · cases h
  · cases h

/-- A word has its quotes closed, and its braces between them. -/
theorem bracesQuoted_of_read {t : Token} (read : Token.read c rest = .ok (t, tail)) :
    ∃ word, c :: rest = word ++ tail ∧ BracesQuoted word := by
  have run : ∀ {p : Char → Bool}, p c = true → (∀ {d}, p d = true → Unmarked d) →
      BracesQuoted (c :: rest.takeWhile p) := by
    intro p first unmarked
    refine bracesQuoted_of_unmarked (List.forall_mem_cons.mpr ⟨unmarked first, fun d hd => ?_⟩)
    exact unmarked (List.all_eq_true.mp List.all_takeWhile d hd)
  have split : ∀ p : Char → Bool, c :: rest = (c :: rest.takeWhile p) ++ rest.dropWhile p := by
    intro p
    rw [List.cons_append, List.takeWhile_append_dropWhile]
  rcases Token.read_cases read with ⟨digit, ⟨digits, fraction, _⟩ | ⟨_, rfl, _⟩⟩
    | ⟨_, starts, rfl, _⟩ | ⟨_, _, opens, _, literal, _⟩ | ⟨_, _, _, s, sign, _⟩
  · have point := (Machine.eq_of_readFraction fraction).1
    refine ⟨(c :: rest.takeWhile Char.isDigit) ++ '.' :: digits, ?_, ?_⟩
    · rw [split Char.isDigit, point, List.append_assoc]
      rfl
    · refine (run digit unmarked_of_isDigit).append (.plain (by decide) ?_)
      exact bracesQuoted_of_unmarked fun d hd =>
        unmarked_of_isDigit (isDigit_of_readFraction fraction d hd)
  · exact ⟨_, split _, run digit unmarked_of_isDigit⟩
  · exact ⟨_, split _, run (continuesName_of_startsName starts) unmarked_of_continuesName⟩
  · obtain ⟨body, rfl, inside⟩ := inside_of_readLiteral literal
    exact ⟨c :: (body ++ [c]), by simp, .quoted opens inside .nil⟩
  · exact ⟨s.written.toList, (Machine.written_of_read? sign).symm,
      bracesQuoted_of_unmarked (unmarked_of_written s)⟩

/-- A text with words has its quotes closed, and its braces between them. -/
theorem bracesQuoted_of_tokens {ts : List Token} (h : tokens cs = .ok ts) : BracesQuoted cs := by
  refine words_induction (P := fun cs _ => BracesQuoted cs) .nil ?_ ?_ h
  · exact fun blank later => .plain (unmarked_of_isBlank blank) later
  · intro c rest t tail ts _ read later
    obtain ⟨word, split, quoted⟩ := bracesQuoted_of_read read
    rw [split]
    exact quoted.append later

/-! ## §4 Templates, from one expression to the next -/

/-- More fuel than there are characters makes no difference. -/
theorem segmentsFrom_eq {fuel : Nat} (enough : cs.length < fuel) :
    segmentsFrom fuel cs = segments cs := by
  have same : ∀ fuel fuel' (cs : List Char), cs.length < fuel → cs.length < fuel' →
      segmentsFrom fuel cs = segmentsFrom fuel' cs := by
    intro fuel
    induction fuel with
    | zero => exact fun _ _ enough => absurd enough (Nat.not_lt_zero _)
    | succ fuel ih =>
      intro fuel' cs enough enough'
      obtain ⟨fuel', rfl⟩ : ∃ m, fuel' = m + 1 := ⟨fuel' - 1, by omega⟩
      rw [segmentsFrom, segmentsFrom]
      cases found : takeText cs with
      | mk text after =>
        cases after with
        | none => rfl
        | some body =>
          cases taken : takeExpression none false body with
          | none => simp [taken]
          | some pieces =>
            have shorter : pieces.2.length + 4 ≤ cs.length := by
              rw [(Machine.find_of_takeText found).1, Machine.eq_of_takeExpression taken]
              simp
              omega
            simp only [taken, Option.bind_eq_bind, Option.bind_some]
            rw [ih fuel' pieces.2 (by omega) (by omega)]
  exact same fuel _ cs enough (Nat.lt_succ_self _)

/-- A template without an opener is a text. -/
theorem segments_of_text (h : takeText cs = (text, none)) :
    segments cs = some (textSegment text) := by
  rw [segments, segmentsFrom, h]

/-- A template is the text before the first opener, the expression behind it, and what comes
behind the expression. -/
theorem segments_of_opener (h : takeText cs = (text, some body)) :
    segments cs = (takeExpression none false body).bind fun p =>
      (segments p.2).map fun more => textSegment text ++ .expression p.1 :: more := by
  rw [segments, segmentsFrom, h]
  cases taken : takeExpression none false body with
  | none => simp [taken]
  | some pieces =>
    have shorter : pieces.2.length < cs.length := by
      rw [(Machine.find_of_takeText h).1, Machine.eq_of_takeExpression taken]
      simp
      omega
    simp only [taken, Option.bind_eq_bind, Option.bind_some, segmentsFrom_eq shorter]
    cases segments pieces.2 <;> rfl

/-- What comes behind an opener does not change the text before it. -/
theorem takeText_append (h : takeText cs = (text, some body)) (more : List Char) :
    takeText (cs ++ more) = (text, some (body ++ more)) := by
  induction cs generalizing text with
  | nil => cases h
  | cons c rest ih =>
    rw [takeText] at h
    rw [List.cons_append, takeText]
    split at h
    · rename_i opens
      cases rest with
      | nil => simp at opens
      | cons d rest =>
        cases h
        exact if_pos opens
    · rename_i plain
      cases found : takeText rest with
      | mk before after =>
        rw [found] at h
        cases h
        have here : ¬ (decide (c = openBrace) && decide ((rest ++ more).head? = some openBrace))
            = true := by
          cases rest with
          | nil => cases found
          | cons d rest => simpa using plain
        rw [if_neg here, ih found]

/-- An opener behind a text that does not end with a brace is the first one. -/
theorem takeText_append_opener (h : takeText cs = (text, none))
    (apart : cs.getLast? ≠ some openBrace) (body : List Char) :
    takeText (cs ++ openBrace :: openBrace :: body) = (text, some body) := by
  induction cs generalizing text with
  | nil =>
    cases h
    simp [takeText]
  | cons c rest ih =>
    rw [takeText] at h
    split at h
    · cases h
    · rename_i plain
      cases found : takeText rest with
      | mk before after =>
        rw [found] at h
        cases h
        have here : ¬ (decide (c = openBrace)
            && decide ((rest ++ openBrace :: openBrace :: body).head? = some openBrace))
            = true := by
          cases rest with
          | nil => simpa using apart
          | cons d rest => simpa using plain
        have later : rest.getLast? ≠ some openBrace := by
          cases rest with
          | nil => simp
          | cons d rest => simpa using apart
        rw [List.cons_append, takeText, if_neg here, ih found later]

/-- What comes behind closing braces does not change the expression before them. -/
theorem takeExpression_append {quote : Option Char} {escaped : Bool} {source : List Char}
    (h : takeExpression quote escaped cs = some (source, rest)) (more : List Char) :
    takeExpression quote escaped (cs ++ more) = some (source, rest ++ more) := by
  induction cs generalizing quote escaped source with
  | nil => cases quote <;> cases h
  | cons c cs ih =>
    have step : ∀ quote escaped,
        (takeExpression quote escaped cs).map (fun p => (c :: p.1, p.2)) = some (source, rest) →
        (takeExpression quote escaped (cs ++ more)).map (fun p => (c :: p.1, p.2))
          = some (source, rest ++ more) := by
      intro quote escaped h
      obtain ⟨⟨within, after⟩, taken, heq⟩ := Option.map_eq_some_iff.mp h
      cases heq
      rw [ih taken]
      rfl
    cases quote with
    | some q =>
      rw [takeExpression] at h
      rw [List.cons_append, takeExpression]
      dsimp only at h ⊢
      split
      · rename_i escaped
        rw [if_pos escaped] at h
        exact step _ _ h
      rename_i unescaped
      rw [if_neg unescaped] at h
      split
      · rename_i backslash
        rw [if_pos backslash] at h
        exact step _ _ h
      rename_i no_backslash
      rw [if_neg no_backslash] at h
      split
      · rename_i closes
        rw [if_pos closes] at h
        exact step _ _ h
      · rename_i other
        rw [if_neg other] at h
        exact step _ _ h
    | none =>
      rw [takeExpression] at h
      rw [List.cons_append, takeExpression]
      cases cs with
      | nil => simp [takeExpression] at h
      | cons d cs =>
        rw [List.cons_append, List.head?_cons] at *
        split at h
        · cases h
          simp_all
        · rename_i plain
          rw [if_neg plain]
          exact step _ _ h

/-- Behind a template that ends with no brace, an opener is the next one that is read. -/
theorem segments_append {parts : List Segment} (h : segments cs = some parts)
    (apart : cs.getLast? ≠ some openBrace) (body : List Char) :
    segments (cs ++ openBrace :: openBrace :: body)
      = (takeExpression none false body).bind fun p =>
          (segments p.2).map fun more => parts ++ .expression p.1 :: more := by
  induction hn : cs.length using Nat.strong_induction_on generalizing cs parts with
  | _ n ih =>
    cases found : takeText cs with
    | mk text after =>
      cases after with
      | none =>
        rw [segments_of_text found] at h
        cases h
        exact segments_of_opener (takeText_append_opener found apart body)
      | some first =>
        rw [segments_of_opener found] at h
        obtain ⟨⟨source, rest⟩, taken, h⟩ := Option.bind_eq_some_iff.mp h
        obtain ⟨more, later, heq⟩ := Option.map_eq_some_iff.mp h
        cases heq
        have split := Machine.eq_of_takeExpression taken
        have whole := (Machine.find_of_takeText found).1
        have shorter : rest.length < n := by
          rw [← hn, whole, split]
          simp
          omega
        have still_apart : rest.getLast? ≠ some openBrace := by
          intro last
          apply apart
          rw [whole, split]
          simp [List.getLast?_append, List.getLast?_cons, last]
        rw [segments_of_opener (takeText_append found _), takeExpression_append taken,
          Option.bind_some, ih _ shorter later still_apart rfl, Option.map_bind]
        simp [Function.comp_def]

/-! ## §5 Expressions inside templates -/

/-- An expression that the lexer accepts ends where its closing braces are put, whatever its quoted
texts contain and whatever comes behind: the splitter finds the braces at the offset that is the
length of the expression. So in a template, behind one that is complete and leaves no brace for the
opener, it is read as the expression that it is, and what comes behind it as if it stood alone. -/
theorem segments_of_lexed {source : List Char} {ts : List Token} (lexed : tokens source = .ok ts)
    (rest : List Char) :
    let body := source ++ closeBrace :: closeBrace :: rest
    Machine.findClosing body 0 none false body = .ok (some (utf8Len source)) ∧
    takeExpression none false body = some (source, rest) ∧
    ∀ before parts, segments before = some parts → before.getLast? ≠ some openBrace →
      segments (before ++ openBrace :: openBrace :: body)
        = (segments rest).map fun more => parts ++ .expression source :: more := by
  intro body
  have taken := (bracesQuoted_of_tokens lexed).takeExpression rest
  refine ⟨?_, taken, fun before parts cut apart => ?_⟩
  · have found := @Machine.findClosing_eq [] body none false fun _ => rfl
    rw [taken] at found
    simpa using found
  · rw [segments_append cut apart, taken, Option.bind_some]

/-- An expression with quoted closing braces, and with a quoted opener behind an escaped quote. -/
def bracketing : List Char := " '\x7d\x7d' ~ \"\\\"\x7b\x7b\" ".toList

/-- It is read as a whole behind another expression, and before a brace too many. -/
theorem bracketing_read_whole :
    let before := "\x7b\x7b x \x7d\x7d: ".toList
    let body := bracketing ++ closeBrace :: closeBrace :: [closeBrace]
    tokens bracketing = .ok [.text "\x7d\x7d", .sign .tilde, .text "\"\x7b\x7b"]
      ∧ segments before = some [.expression [' ', 'x', ' '], .text [':', ' ']]
      ∧ Machine.findClosing body 0 none false body = .ok (some 15)
      ∧ segments (before ++ openBrace :: openBrace :: body)
        = some [.expression [' ', 'x', ' '], .text [':', ' '], .expression bracketing,
          .text [closeBrace]] := by
  intro before body
  have lexed : tokens bracketing
      = .ok [.text "\x7d\x7d", .sign .tilde, .text "\"\x7b\x7b"] := by decide +kernel
  have cut : segments before = some [.expression [' ', 'x', ' '], .text [':', ' ']] := by
    decide +kernel
  obtain ⟨closing, _, whole⟩ := segments_of_lexed lexed [closeBrace]
  refine ⟨lexed, cut, closing.trans (by rfl), ?_⟩
  rw [whole before _ cut (by decide)]
  rfl

end Tabletop
