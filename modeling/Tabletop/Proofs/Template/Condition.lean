/-
Tabletop.Proofs.Template.Condition — conditions with and without braces.

A condition is a template or an expression. A text with an opener anywhere
is taken for a template, even where the opener stands between the quotes of
an expression. Between braces, an expression is read as what it is, so both
spellings agree where it has no opener. Where it has one, the text before
the opener has a quote in it, and a text with a quote in it holds. So as a
condition of its own the expression either holds or fails, whatever its
value is (`conditions_agree_iff`).

  §1 What comes behind a word
  §2 Blanks around an expression
  §3 Expressions between braces
  §4 Openers between quotes
  §5 Conditions
-/
import Tabletop.Proofs.Template.Dotted
import Tabletop.Proofs.Template.Quotes

namespace Tabletop

variable {cs ds rest tail text more : List Char} {c quote : Char} {t : Token} {ts : List Token}

/-! ## §1 What comes behind a word -/

/-- A fraction is read alike before a blank. -/
theorem readFraction_append (sep : Separated more) :
    readFraction (cs ++ more) = (readFraction cs).map fun p => (p.1, p.2 ++ more) := by
  have digits : Stops Char.isDigit more := sep.stops (by decide)
  match cs with
  | [] => rcases sep with rfl | ⟨rest, rfl⟩ <;> rfl
  | [c] =>
    by_cases point : c = '.'
    · subst point
      rcases sep with rfl | ⟨rest, rfl⟩ <;> rfl
    · rcases sep with rfl | ⟨rest, rfl⟩ <;> simp [readFraction, point]
  | c :: d :: rest =>
    obtain ⟨run, behind⟩ := digits.run_append rest
    by_cases point : c = '.'
    · subst point
      simp only [List.cons_append, readFraction, run, behind]
      split <;> rfl
    · simp [readFraction, point]

/-- A quoted text ends with its closing quote. -/
theorem readLiteral_append (h : readLiteral quote cs = some (text, tail)) (more : List Char) :
    readLiteral quote (cs ++ more) = some (text, tail ++ more) := by
  induction cs using readLiteral.induct quote generalizing text with
  | case1 => cases h
  | case2 rest =>
    rw [Machine.readLiteral_close] at h
    cases h
    exact Machine.readLiteral_close _
  | case3 other =>
    rw [Machine.readLiteral_last other] at h
    cases h
  | case4 d rest other ih =>
    rw [Machine.readLiteral_escape other] at h
    obtain ⟨⟨later, after⟩, read, heq⟩ := Option.map_eq_some_iff.mp h
    cases heq
    rw [List.cons_append, List.cons_append, Machine.readLiteral_escape other, ih read]
    rfl
  | case5 c rest other plain ih =>
    rw [Machine.readLiteral_plain other plain] at h
    obtain ⟨⟨later, after⟩, read, heq⟩ := Option.map_eq_some_iff.mp h
    cases heq
    rw [List.cons_append, Machine.readLiteral_plain other plain, ih read]
    rfl

/-- No sign has a blank in it, so a blank makes no other sign of what stands before it. -/
theorem written_prefix_append_iff (s : Sign) (sep : Separated more) :
    s.written.toList <+: cs ++ more ↔ s.written.toList <+: cs := by
  constructor
  · intro fits
    rcases List.prefix_or_prefix_of_prefix fits (List.prefix_append cs more)
      with here | ⟨back, whole⟩
    · exact here
    · have behind : back <+: more := by
        rw [← whole] at fits
        exact (List.prefix_append_right_inj cs).mp fits
      cases back with
      | nil => exact ⟨[], by rw [← whole, List.append_nil, List.append_nil]⟩
      | cons b back =>
        obtain ⟨others, heq⟩ := behind
        rcases sep with rfl | ⟨rest, rfl⟩
        · cases heq
        · cases heq
          have no_blank : ' ' ∉ s.written.toList := by cases s <;> decide
          exact absurd (whole ▸ by simp) no_blank
  · exact fun fits => fits.trans (List.prefix_append cs more)

theorem Sign.read?_append {s : Sign} (sep : Separated more) (h : Sign.read? cs = some (s, tail)) :
    Sign.read? (cs ++ more) = some (s, tail ++ more) := by
  have split := Machine.written_of_read? h
  have same : (fun s : Sign => s.written.toList.isPrefixOf (cs ++ more))
      = fun s => s.written.toList.isPrefixOf cs := by
    funext s
    rw [Bool.eq_iff_iff, List.isPrefixOf_iff_prefix, List.isPrefixOf_iff_prefix,
      written_prefix_append_iff s sep]
  rw [Machine.read?_eq_find?, Option.map_eq_some_iff] at h
  obtain ⟨s', found, heq⟩ := h
  cases heq
  rw [Machine.read?_eq_find?, same, found, ← split]
  simp

/-- A word is read alike before a blank. -/
theorem Token.read_append (sep : Separated more) (read : Token.read c rest = .ok (t, tail)) :
    Token.read c (rest ++ more) = .ok (t, tail ++ more) := by
  have digits := Stops.run_append (sep.stops (p := Char.isDigit) (by decide)) rest
  have name := Stops.run_append (sep.stops (p := continuesName) (by decide)) rest
  rcases Token.read_cases read with ⟨digit, ⟨_, fraction, rfl⟩ | ⟨no_fraction, rfl, rfl⟩⟩
    | ⟨digit, starts, rfl, rfl⟩ | ⟨digit, starts, opens, _, literal, rfl⟩
    | ⟨digit, starts, opens, _, sign, rfl⟩
  · simp only [Token.read, digit, if_true, digits, readFraction_append sep, fraction,
      Option.map_some]
  · simp only [Token.read, digit, if_true, digits, readFraction_append sep, no_fraction,
      Option.map_none]
  · simp only [Token.read, digit, starts, Bool.false_eq_true, if_false, if_true, name]
  · have marks : (decide (c = '\'') || decide (c = '"')) = true := opens
    simp only [Token.read, digit, starts, Bool.false_eq_true, if_false, marks, if_true,
      readLiteral_append literal]
  · have no_marks : (decide (c = '\'') || decide (c = '"')) = false := opens
    have behind := Sign.read?_append sep sign
    rw [List.cons_append] at behind
    simp only [Token.read, digit, starts, Bool.false_eq_true, if_false, no_marks, behind]

/-! ## §2 Blanks around an expression -/

/-- A blank at its end does not change the words of a text. -/
theorem lexesTo_append_blank (h : tokens cs = .ok ts) : LexesTo (cs ++ [' ']) ts := by
  refine words_induction (P := fun cs ts => LexesTo (cs ++ [' ']) ts) LexesTo.nil.blank ?_ ?_ h
  · exact fun blank later => later.after_blank blank
  · intro c rest t tail ts not_blank read later
    obtain ⟨word, rfl⟩ := Machine.suffix_of_read read
    have reads : ReadsAs (c :: word) (tail ++ [' ']) t := by
      refine ⟨c, word, rfl, not_blank, ?_⟩
      rw [← List.append_assoc]
      exact Token.read_append (Or.inr ⟨[], rfl⟩) read
    simpa using later.word reads

theorem tokens_between_blanks (h : tokens cs = .ok ts) : tokens (' ' :: (cs ++ [' '])) = .ok ts :=
  (lexesTo_append_blank h).blank.tokens

theorem parse_eq_ok_iff {e : Expr} :
    Expr.parse cs = .ok e ↔ ∃ ts, tokens cs = .ok ts ∧ Expr.ofTokens ts = .ok e := by
  rw [Expr.parse]
  cases tokens cs with
  | error fault => simp
  | ok ts => simp

/-- An expression may have blanks around it. -/
theorem parse_between_blanks {e : Expr} (h : Expr.parse cs = .ok e) :
    Expr.parse (' ' :: (cs ++ [' '])) = .ok e := by
  obtain ⟨ts, lexed, formed⟩ := parse_eq_ok_iff.mp h
  exact parse_eq_ok_iff.mpr ⟨ts, tokens_between_blanks lexed, formed⟩

/-! ## §3 Expressions between braces -/

/-- Between braces, an expression has its value, whatever its quoted texts are. -/
theorem resolveTemplate_braced_of_parse {source : String} {e : Expr} (scope : Scope)
    (accepted : Expr.parse source.toList = .ok e) :
    resolveTemplate (braced source) scope = (e.eval scope).mapError (⟨braced source, ·⟩) := by
  have padded := parse_between_blanks accepted
  obtain ⟨ts, lexed, _⟩ := parse_eq_ok_iff.mp padded
  rw [resolveTemplate_of_taken scope ((bracesQuoted_of_tokens lexed).takeExpression []), evalSource,
    padded]

/-! ## §4 Openers between quotes -/

theorem hasMarkers_eq (s : String) : hasMarkers s = (takeText s.toList).2.isSome := by
  unfold hasMarkers
  induction s.toList with
  | nil => rfl
  | cons c rest ih =>
    rw [occursIn, takeText, Machine.isPrefixOf_pair, ih]
    split <;> simp_all

/-- Before the first opener, a quote was opened. -/
theorem BracesQuoted.exists_quote {body : List Char} (h : BracesQuoted cs)
    (found : takeText cs = (text, some body)) : ∃ q ∈ text, opensQuote q = true := by
  have later : ∀ {c : Char} {cs text : List Char}, c ≠ openBrace →
      takeText (c :: cs) = (text, some body) →
      ∃ front, takeText cs = (front, some body) ∧ text = c :: front := by
    intro c cs text other found
    rw [takeText, if_neg (by simp [other])] at found
    cases next : takeText cs with
    | mk front after =>
      rw [next] at found
      cases found
      exact ⟨front, rfl, rfl⟩
  induction h generalizing text with
  | nil => cases found
  | plain unmarked _ ih =>
    obtain ⟨front, next, rfl⟩ := later unmarked.2.1 found
    obtain ⟨q, mem, opens⟩ := ih next
    exact ⟨q, List.mem_cons_of_mem _ mem, opens⟩
  | quoted opens _ _ _ =>
    obtain ⟨front, _, rfl⟩ := later (ne_brace_of_opensQuote opens).1 found
    exact ⟨_, List.mem_cons_self, opens⟩

/-- Trimming keeps what is no blank. -/
theorem mem_trimChars (mem : c ∈ cs) (not_blank : isBlank c = false) : c ∈ trimChars cs := by
  have drop : ∀ {cs : List Char}, c ∈ cs → c ∈ cs.dropWhile isBlank := by
    intro cs mem
    rw [← List.takeWhile_append_dropWhile (p := isBlank) (l := cs), List.mem_append] at mem
    refine mem.resolve_left fun blank => ?_
    have := List.all_eq_true.mp List.all_takeWhile c blank
    rw [not_blank] at this
    cases this
  unfold trimChars trimWhile
  rw [List.mem_reverse]
  exact drop (List.mem_reverse.mpr (drop mem))

/-- A text with a quote in it is no word for false, nothing or zero. -/
theorem holds_of_quote {s : String} (mem : c ∈ s.toList) (opens : opensQuote c = true) :
    holds (.text s) = true := by
  have kept : isBlank c = false ∧ c.toLower = c := by
    rcases eq_of_opensQuote opens with rfl | rfl <;> decide
  have there : c ∈ (lowerAscii (trim s)).toList := by
    rw [lowerAscii, trim, String.toList_ofList, String.toList_ofList, List.mem_map]
    exact ⟨c, mem_trimChars mem kept.1, kept.2⟩
  have others : ∀ word ∈ ["", "false", "none", "null", "0"], c ∉ word.toList := by
    rcases eq_of_opensQuote opens with rfl | rfl <;> decide
  rw [holds, Bool.not_eq_true', decide_eq_false_iff_not]
  exact fun word => others _ word there

/-- Behind a text that is not blank, segments are written one after the other. -/
theorem evalSegments_of_text (scope : Scope) (parts : List Segment)
    (visible : (Segment.text text).isBlank = false) :
    evalSegments scope (.text text :: parts) = (renderSegments scope parts).map fun s =>
      .text (String.ofList text ++ s) := by
  have mixed : evalSegments scope (.text text :: parts)
      = (renderSegments scope (.text text :: parts)).map .text := by
    rw [evalSegments, List.filter_cons, visible]
    simp
  rw [mixed, renderSegments]
  cases renderSegments scope parts <;> rfl

/-- The text before the first opener is the first segment. -/
theorem exists_segments_of_text {body : List Char} {parts : List Segment}
    (found : takeText cs = (text, some body)) (filled : text ≠ [])
    (cut : segments cs = some parts) :
    ∃ later, parts = .text text :: later := by
  rw [segments_of_opener found] at cut
  obtain ⟨_, _, cut⟩ := Option.bind_eq_some_iff.mp cut
  obtain ⟨later, _, rfl⟩ := Option.map_eq_some_iff.mp cut
  rw [Machine.textSegment_of_ne_nil filled]
  exact ⟨_, rfl⟩

/-- As a template, an expression with an opener between its quotes is a text with a quote in it,
if it is anything. -/
theorem holds_of_quoted_opener {source : String} {scope : Scope} {v : Value}
    (quoted : BracesQuoted source.toList) (marked : hasMarkers source = true)
    (resolved : resolveTemplate source scope = .ok v) : holds v = true := by
  rw [resolveTemplate, if_pos marked] at resolved
  rw [hasMarkers_eq] at marked
  cases found : takeText source.toList with
  | mk text after =>
    cases after with
    | none =>
      rw [found] at marked
      cases marked
    | some body =>
      obtain ⟨q, mem, opens⟩ := quoted.exists_quote found
      have visible : (Segment.text text).isBlank = false := by
        rw [Segment.isBlank, List.all_eq_false]
        refine ⟨q, mem, ?_⟩
        rcases eq_of_opensQuote opens with rfl | rfl <;> decide
      cases cut : segments source.toList with
      | none =>
        rw [cut] at resolved
        cases resolved
      | some parts =>
        obtain ⟨later, rfl⟩ := exists_segments_of_text found (List.ne_nil_of_mem mem) cut
        rw [cut] at resolved
        dsimp only at resolved
        rw [evalSegments_of_text scope later visible] at resolved
        cases written : renderSegments scope later with
        | error fault =>
          rw [written] at resolved
          cases resolved
        | ok s =>
          rw [written] at resolved
          cases resolved
          refine holds_of_quote (c := q) ?_ opens
          rw [String.toList_append, String.toList_ofList]
          exact List.mem_append_left _ mem

/-! ## §5 Conditions -/

/-- A text with an opener is a template as it is. -/
theorem condition_of_marked {source : String} (marked : hasMarkers source = true)
    (scope : Scope) :
    Resolver.expressions.condition source scope = (resolveTemplate source scope).map holds := by
  change (resolveTemplate (conditionTemplate source) scope).map holds = _
  rw [conditionTemplate, if_pos marked]

/-- A text without an opener is put between braces. -/
theorem condition_of_unmarked {source : String} (unmarked : hasMarkers source = false)
    (scope : Scope) :
    Resolver.expressions.condition source scope
      = Resolver.expressions.condition (braced source) scope := by
  rw [condition_of_marked (hasMarkers_braced source)]
  change (resolveTemplate (conditionTemplate source) scope).map holds = _
  rw [conditionTemplate, unmarked]
  rfl

/-- Between braces an expression has the verdict of its value. -/
theorem condition_braced {source : String} {e : Expr}
    (accepted : Expr.parse source.toList = .ok e) (scope : Scope) :
    Resolver.expressions.condition (braced source) scope
      = ((e.eval scope).mapError (⟨braced source, ·⟩)).map holds := by
  rw [condition_of_marked (hasMarkers_braced source),
    resolveTemplate_braced_of_parse scope accepted]

/-- By itself, an expression with an opener between its quotes holds wherever it can be written as
a template, whatever its value is. -/
theorem condition_of_quoted_opener {source : String} (quoted : BracesQuoted source.toList)
    (marked : hasMarkers source = true) (scope : Scope) :
    Resolver.expressions.condition source scope
      = (resolveTemplate source scope).map fun _ => true := by
  rw [condition_of_marked marked]
  cases resolved : resolveTemplate source scope with
  | error error => rfl
  | ok text => rw [Except.map, Except.map, holds_of_quoted_opener quoted marked resolved]

/-- The two spellings of a condition. Between braces an expression has the verdict of its value.
By itself it has the same verdict, a truth value or a failure, if it has no opener. If it has one,
it is taken for a template, whose text holds, and the verdicts agree exactly if the value holds and
the text can be written, or if there is neither. -/
theorem conditions_agree_iff {source : String} {e : Expr}
    (accepted : Expr.parse source.toList = .ok e) (scope : Scope) :
    let bare := Resolver.expressions.condition source scope
    let templated := Resolver.expressions.condition (braced source) scope
    (templated = ((e.eval scope).mapError (⟨braced source, ·⟩)).map holds) ∧
    (hasMarkers source = true → bare = (resolveTemplate source scope).map fun _ => true) ∧
    (bare.toOption = templated.toOption ↔ hasMarkers source = false ∨
      (∃ v text, e.eval scope = .ok v ∧ holds v = true ∧ resolveTemplate source scope = .ok text) ∨
      (∃ fault error, e.eval scope = .error fault ∧
        resolveTemplate source scope = .error error)) := by
  intro bare templated
  obtain ⟨ts, lexed, _⟩ := parse_eq_ok_iff.mp accepted
  have value : templated = ((e.eval scope).mapError (⟨braced source, ·⟩)).map holds :=
    condition_braced accepted scope
  have own : hasMarkers source = true → bare = (resolveTemplate source scope).map fun _ => true :=
    fun marked => condition_of_quoted_opener (bracesQuoted_of_tokens lexed) marked scope
  refine ⟨value, own, ?_⟩
  cases opener : hasMarkers source with
  | false =>
    have same : bare = templated := condition_of_unmarked opener scope
    exact iff_of_true (congrArg Except.toOption same) (Or.inl rfl)
  | true =>
    -- a value on one side and a text on the other agree if the value holds, two failures always
    rw [own opener, value]
    cases e.eval scope with
    | error fault =>
      cases resolveTemplate source scope with
      | error error => simp [Except.toOption, Except.map, Except.mapError]
      | ok text => simp [Except.toOption, Except.map, Except.mapError]
    | ok v =>
      cases resolveTemplate source scope with
      | error error => simp [Except.toOption, Except.map, Except.mapError]
      | ok text =>
        have same : true = holds v ↔ holds v = true := eq_comm
        simp [Except.toOption, Except.map, Except.mapError, same]

/-- A mark that is an opener, and a name. -/
def marking : Scope :=
  (Value.mapping [("mark", .text "\x7b\x7b"), ("name", .text "Ada")]).scope

/-- Closing braces between quotes do not make a template. -/
theorem marking_closes_alike :
    let source := "mark == '\x7d\x7d'"
    Expr.parse source.toList
        = .ok (.binary .equal (.variable "mark") (.literal (.text "\x7d\x7d"))) ∧
      Resolver.expressions.condition (braced source) marking = .ok false ∧
      (Resolver.expressions.condition source marking).toOption = some false := by
  intro source
  have lexed : tokens source.toList = .ok [.name "mark", .sign .equal, .text "\x7d\x7d"] := by
    decide +kernel
  have accepted : Expr.parse source.toList
      = .ok (.binary .equal (.variable "mark") (.literal (.text "\x7d\x7d"))) := by
    rw [Expr.parse, lexed]
    rfl
  have unmarked : hasMarkers source = false := by decide +kernel
  obtain ⟨value, _, alike⟩ := conditions_agree_iff accepted marking
  have inside : Resolver.expressions.condition (braced source) marking = .ok false :=
    value.trans (by decide +kernel)
  refine ⟨accepted, inside, ?_⟩
  rw [alike.mpr (Or.inl unmarked), inside]
  rfl

/-- An opener between quotes does: without braces, a comparison with an opener fails, and one with
an expression between quoted braces holds although it does not. -/
theorem marking_opens_otherwise :
    let failing := "mark == '\x7b\x7b'"
    let holding := "mark == '\x7b\x7b name \x7d\x7d'"
    (Expr.parse failing.toList
          = .ok (.binary .equal (.variable "mark") (.literal (.text "\x7b\x7b"))) ∧
      Resolver.expressions.condition (braced failing) marking = .ok true ∧
      Resolver.expressions.condition failing marking = .error ⟨failing, .unclosed⟩) ∧
    Expr.parse holding.toList
        = .ok (.binary .equal (.variable "mark") (.literal (.text "\x7b\x7b name \x7d\x7d"))) ∧
      Resolver.expressions.condition (braced holding) marking = .ok false ∧
      Resolver.expressions.condition holding marking = .ok true := by
  intro failing holding
  have failing_words : tokens failing.toList
      = .ok [.name "mark", .sign .equal, .text "\x7b\x7b"] := by
    decide +kernel
  have holding_words : tokens holding.toList
      = .ok [.name "mark", .sign .equal, .text "\x7b\x7b name \x7d\x7d"] := by
    decide +kernel
  refine ⟨⟨?_, by decide +kernel, by decide +kernel⟩, ?_, by decide +kernel, by decide +kernel⟩
  · rw [Expr.parse, failing_words]
    rfl
  · rw [Expr.parse, holding_words]
    rfl

end Tabletop
