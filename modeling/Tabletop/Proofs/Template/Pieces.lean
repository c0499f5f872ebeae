/-
Tabletop.Proofs.Template.Pieces — the pieces that a template is cut into.

Nothing is lost when a template is cut: its segments, written one after the
other with the braces of the expressions, are the template. Texts are as
long as they can be, so no two of them meet and none has an opener in it;
an expression ends at the first closing braces outside its string literals.
A template is refused only for an opener that has no such braces behind it
(`segments_lossless`).

What stands outside string literals is said of the text before a place: its
literals are complete (`LiteralsClosed`). The splitter does not look back,
it carries the open quote along, so its state is tied to this first.

  §1 Writing segments
  §2 Closing braces outside string literals
  §3 Texts before openers
  §4 Templates, from one expression to the next
  §5 Cutting and writing
-/
import Mathlib.Data.List.Chain
import Tabletop.Proofs.Template.Quotes

namespace Tabletop

open String (utf8Len)

/-! ## §1 Writing segments -/

/-- The braces before an expression. -/
def opener : List Char := [openBrace, openBrace]

/-- The braces behind an expression. -/
def closer : List Char := [closeBrace, closeBrace]

namespace Segment

/-- The segment as it stands in a template. -/
def written : Segment → List Char
  | .text cs => cs
  | .expression source => opener ++ source ++ closer

def isText : Segment → Bool
  | .text _ => true
  | .expression _ => false

end Segment

variable {cs text body source rest early : List Char} {parts : List Segment}

/-! ## §2 Closing braces outside string literals -/

/-- Every string literal that begins in the text ends in it, so what comes behind the text stands
outside string literals. -/
inductive LiteralsClosed : List Char → Prop
  | nil : LiteralsClosed []
  | plain {c : Char} {cs : List Char} (no_quote : opensQuote c = false) :
      LiteralsClosed cs → LiteralsClosed (c :: cs)
  | literal {quote : Char} {body cs : List Char} (opens : opensQuote quote = true)
      (inside : Inside quote body) :
      LiteralsClosed cs → LiteralsClosed (quote :: (body ++ quote :: cs))

/-- Closing braces stand in the body right behind the source, outside string literals. -/
def ClosesBehind (source body : List Char) : Prop :=
  LiteralsClosed source ∧ source ++ closer <+: body

/-- In a text whose literals end if it is read on from a quote, or from a backslash in one. -/
def LiteralsClosedFrom : (quote : Option Char) → (escaped : Bool) → List Char → Prop
  | none, _, cs => LiteralsClosed cs
  | some q, false, cs => ∃ body later, cs = body ++ q :: later ∧ Inside q body
      ∧ LiteralsClosed later
  | some q, true, cs => ∃ d body later, cs = d :: (body ++ q :: later) ∧ Inside q body
      ∧ LiteralsClosed later

/-- The literals of an expression that is taken are complete. -/
theorem literalsClosed_of_takeExpression {quote : Option Char} {escaped : Bool}
    (h : takeExpression quote escaped cs = some (source, rest)) :
    LiteralsClosedFrom quote escaped source := by
  induction cs generalizing quote escaped source with
  | nil => cases quote <;> cases h
  | cons c cs ih =>
    -- whatever state the character leads to, it is the first one of the expression
    have step : ∀ {quote escaped},
        (takeExpression quote escaped cs).map (fun p => (c :: p.1, p.2)) = some (source, rest) →
          ∃ more, source = c :: more ∧ LiteralsClosedFrom quote escaped more := by
      intro quote escaped h
      obtain ⟨⟨more, after⟩, taken, heq⟩ := Option.map_eq_some_iff.mp h
      cases heq
      exact ⟨more, rfl, ih taken⟩
    cases quote with
    | some q =>
      rw [takeExpression] at h
      dsimp only at h
      cases escaped with
      | true =>
        obtain ⟨_, rfl, body, later, rfl, inside, closed⟩ := step h
        exact ⟨c, body, later, rfl, inside, closed⟩
      | false =>
        rw [if_neg Bool.false_ne_true] at h
        split at h
        · rename_i backslash
          obtain ⟨_, rfl, d, body, later, rfl, inside, closed⟩ := step h
          exact ⟨c :: d :: body, later, rfl, backslash ▸ .escape d inside, closed⟩
        · rename_i no_backslash
          split at h
          · rename_i closes
            obtain ⟨_, rfl, closed⟩ := step h
            exact ⟨[], _, by rw [closes]; rfl, .nil, closed⟩
          · rename_i other
            obtain ⟨_, rfl, body, later, rfl, inside, closed⟩ := step h
            exact ⟨c :: body, later, rfl, .plain other no_backslash inside, closed⟩
    | none =>
      rw [takeExpression] at h
      split at h
      · cases h
        exact .nil
      · by_cases opens : opensQuote c = true
        · rw [if_pos opens] at h
          obtain ⟨_, rfl, body, later, rfl, inside, closed⟩ := step h
          exact .literal opens inside closed
        · rw [if_neg opens] at h
          obtain ⟨_, rfl, closed⟩ := step h
          exact .plain (Bool.not_eq_true _ ▸ opens) closed

/-- If closing braces stand behind the source, the splitter finds some, there or before. -/
theorem exists_taken_of_closes (closed : LiteralsClosed source) (rest : List Char) :
    ∃ p, takeExpression none false (source ++ closer ++ rest) = some p
      ∧ p.1.length ≤ source.length := by
  induction closed with
  | nil => exact ⟨([], rest), rfl, Nat.le_refl _⟩
  | @plain c cs no_quote _ ih =>
    obtain ⟨p, taken, short⟩ := ih
    rw [List.cons_append, List.cons_append, takeExpression]
    split
    · exact ⟨_, rfl, Nat.zero_le _⟩
    · rw [if_neg (by simp [no_quote]), taken]
      exact ⟨_, rfl, Nat.succ_le_succ short⟩
  | @literal quote body cs opens inside _ ih =>
    obtain ⟨p, taken, short⟩ := ih
    have no_brace : ¬ (decide (quote = closeBrace)
        && decide ((body ++ quote :: cs ++ closer ++ rest).head? = some closeBrace)) = true := by
      simp [(ne_brace_of_opensQuote opens).2]
    have later : body ++ quote :: cs ++ closer ++ rest
        = body ++ quote :: (cs ++ closer ++ rest) := by simp
    rw [List.cons_append, List.cons_append, takeExpression, if_neg no_brace, if_pos opens, later,
      takeExpression_inside inside (ne_backslash_of_opensQuote opens), taken]
    refine ⟨_, rfl, ?_⟩
    simpa using Nat.succ_le_succ short

/-- The splitter finds no closing braces only where none stand outside string literals. -/
theorem takeExpression_eq_none_iff :
    takeExpression none false body = none ↔ ∀ source, ¬ ClosesBehind source body := by
  constructor
  · rintro none_taken source ⟨closed, rest, rfl⟩
    obtain ⟨p, taken, _⟩ := exists_taken_of_closes closed rest
    rw [none_taken] at taken
    cases taken
  · intro unclosed
    by_contra there
    obtain ⟨⟨source, rest⟩, taken⟩ := Option.ne_none_iff_exists'.mp there
    refine unclosed source ⟨literalsClosed_of_takeExpression taken, rest, ?_⟩
    rw [Machine.eq_of_takeExpression taken]
    simp [closer]

/-- The text can stand between the braces of an expression: its literals are complete, and there are
no closing braces before those that are put behind it. -/
def Enclosable (source : List Char) : Prop :=
  LiteralsClosed source ∧ ∀ early, ClosesBehind early (source ++ closer) → early = source

/-- An expression ends at the first closing braces outside its string literals. -/
theorem takeExpression_eq_some_iff :
    takeExpression none false body = some (source, rest) ↔
      body = source ++ closer ++ rest ∧ Enclosable source := by
  constructor
  · intro taken
    have whole : body = source ++ closer ++ rest := by
      rw [Machine.eq_of_takeExpression taken]
      simp [closer]
    refine ⟨whole, literalsClosed_of_takeExpression taken, ?_⟩
    rintro early ⟨closed, behind, split⟩
    -- the splitter has found no braces before those of the source
    have first : early ++ closer ++ (behind ++ rest) = body := by
      rw [← List.append_assoc, split, whole]
    obtain ⟨p, found, short⟩ := exists_taken_of_closes closed (behind ++ rest)
    rw [first, taken] at found
    cases found
    have no_longer : early.length ≤ source.length := by
      have lengths := congrArg List.length split
      simp only [List.length_append] at lengths
      omega
    rw [List.append_assoc] at split
    exact List.append_inj_left split (Nat.le_antisymm no_longer short)
  · rintro ⟨rfl, closed, first⟩
    obtain ⟨⟨early, behind⟩, found, short⟩ := exists_taken_of_closes closed rest
    have split : source ++ closer ++ rest = early ++ closer ++ behind := by
      rw [Machine.eq_of_takeExpression found]
      simp [closer]
    have fits : early ++ closer <+: source ++ closer := by
      refine List.prefix_of_prefix_length_le ⟨behind, split.symm⟩ (List.prefix_append _ rest) ?_
      simpa using short
    obtain rfl : early = source := first early ⟨literalsClosed_of_takeExpression found, fits⟩
    rw [found, List.append_cancel_left split]

/-! ## §3 Texts before openers -/

/-- The text before the first opener has none in it. -/
theorem no_opener_of_takeText {after : Option (List Char)} (h : takeText cs = (text, after)) :
    ¬ opener <:+: text := by
  induction cs generalizing text with
  | nil =>
    cases h
    decide
  | cons c cs ih =>
    rw [takeText] at h
    split at h
    · cases h
      decide
    · rename_i plain
      cases found : takeText cs with
      | mk more behind =>
        rw [found] at h
        cases h
        have front : more <+: cs := by
          cases after with
          | none => exact (Machine.find_of_takeText_none found).1 ▸ List.prefix_refl _
          | some body => exact (Machine.find_of_takeText found).1 ▸ List.prefix_append _ _
        rw [List.infix_cons_iff, not_or]
        refine ⟨fun here => plain ?_, ih found⟩
        obtain ⟨rfl, tail⟩ := List.cons_prefix_cons.mp here
        obtain ⟨others, rfl⟩ := tail.trans front
        rfl

/-- A text is all that there is before the first opener if it has none. -/
theorem takeText_of_no_opener (h : ¬ opener <:+: text) : takeText text = (text, none) := by
  cases found : takeText text with
  | mk front after =>
    cases after with
    | none => rw [← (Machine.find_of_takeText_none found).1]
    | some body =>
      refine absurd ?_ h
      rw [(Machine.find_of_takeText found).1]
      exact ⟨front, body, by simp [opener]⟩

/-- The text before an opener ends with no brace, since an opener would begin there. -/
theorem getLast?_of_takeText (h : takeText cs = (text, some body)) :
    text.getLast? ≠ some openBrace := by
  induction cs generalizing text with
  | nil => cases h
  | cons c cs ih =>
    rw [takeText] at h
    split at h
    · cases h
      decide
    · rename_i plain
      cases found : takeText cs with
      | mk more behind =>
        rw [found] at h
        cases h
        cases more with
        | nil =>
          have next := (Machine.find_of_takeText found).1
          simpa [next] using plain
        | cons d more => simpa using ih found

/-- The first opener comes behind a text that has none in it and does not end with a brace. -/
theorem takeText_eq_some_iff : takeText cs = (text, some body) ↔
    cs = text ++ opener ++ body ∧ ¬ opener <:+: text ∧ text.getLast? ≠ some openBrace := by
  constructor
  · intro found
    refine ⟨?_, no_opener_of_takeText found, getLast?_of_takeText found⟩
    rw [(Machine.find_of_takeText found).1]
    simp [opener]
  · rintro ⟨rfl, free, apart⟩
    simpa [opener] using takeText_append_opener (takeText_of_no_opener free) apart body

/-! ## §4 Templates, from one expression to the next -/

/-- What holds of a template without an opener, of one whose first opener is not closed, and of one
with an expression if it holds of what comes behind, holds of every template. -/
theorem segments_induction {P : List Char → Option (List Segment) → Prop}
    (last : ∀ {text}, ¬ opener <:+: text → P text (some (textSegment text)))
    (unclosed : ∀ {text body}, ¬ opener <:+: text → text.getLast? ≠ some openBrace →
      (∀ source, ¬ ClosesBehind source body) → P (text ++ opener ++ body) none)
    (next : ∀ {text source rest later}, ¬ opener <:+: text → text.getLast? ≠ some openBrace →
      Enclosable source → P rest later → P (text ++ opener ++ (source ++ closer ++ rest))
        (later.map fun more => textSegment text ++ .expression source :: more))
    (cs : List Char) : P cs (segments cs) := by
  induction hn : cs.length using Nat.strong_induction_on generalizing cs with
  | _ n ih =>
    cases found : takeText cs with
    | mk text after =>
      cases after with
      | none =>
        obtain ⟨rfl, _⟩ := Machine.find_of_takeText_none found
        rw [segments_of_text found]
        exact last (no_opener_of_takeText found)
      | some body =>
        obtain ⟨rfl, free, apart⟩ := takeText_eq_some_iff.mp found
        rw [segments_of_opener found]
        cases taken : takeExpression none false body with
        | none => exact unclosed free apart (takeExpression_eq_none_iff.mp taken)
        | some p =>
          obtain ⟨source, rest⟩ := p
          obtain ⟨rfl, encloses⟩ := takeExpression_eq_some_iff.mp taken
          have shorter : rest.length < n := by
            rw [← hn]
            simp [opener]
            omega
          exact next free apart encloses (ih _ shorter rest rfl)

/-- A template without an opener. -/
theorem segments_of_no_opener (free : ¬ opener <:+: text) :
    segments text = some (textSegment text) := segments_of_text (takeText_of_no_opener free)

/-- A template with an expression. -/
theorem segments_of_expression (free : ¬ opener <:+: text) (apart : text.getLast? ≠ some openBrace)
    (encloses : Enclosable source) (rest : List Char) :
    segments (text ++ opener ++ (source ++ closer ++ rest))
      = (segments rest).map fun more => textSegment text ++ .expression source :: more := by
  rw [segments_of_opener (takeText_eq_some_iff.mpr ⟨rfl, free, apart⟩),
    takeExpression_eq_some_iff.mpr ⟨rfl, encloses⟩, Option.bind_some]

/-! ## §5 Cutting and writing -/

/-- Segments as they are cut out of a template. -/
structure Tidy (parts : List Segment) : Prop where
  /-- No text is empty, and none has an opener in it. -/
  texts : ∀ text, .text text ∈ parts → text ≠ [] ∧ ¬ opener <:+: text
  /-- No expression has closing braces in it, outside its string literals. -/
  expressions : ∀ source, .expression source ∈ parts → Enclosable source
  /-- Behind a text comes an expression, and the text does not end with a brace, which would be one
  of the opener. -/
  apart : parts.IsChain fun one next => ∀ text, one = .text text →
    next.isText = false ∧ text.getLast? ≠ some openBrace

namespace Tidy

theorem nil : Tidy [] := ⟨nofun, nofun, .nil⟩

theorem of_text (nonempty : text ≠ []) (free : ¬ opener <:+: text) : Tidy [.text text] where
  texts := by
    intro other mem
    cases List.mem_singleton.mp mem
    exact ⟨nonempty, free⟩
  expressions := by
    intro source mem
    cases List.mem_singleton.mp mem
  apart := .singleton _

theorem tail {piece : Segment} (h : Tidy (piece :: parts)) : Tidy parts where
  texts text mem := h.texts text (List.mem_cons_of_mem _ mem)
  expressions source mem := h.expressions source (List.mem_cons_of_mem _ mem)
  apart := (List.isChain_cons.mp h.apart).2

theorem cons_expression (encloses : Enclosable source) (h : Tidy parts) :
    Tidy (.expression source :: parts) where
  texts text mem := h.texts text ((List.mem_cons.mp mem).resolve_left nofun)
  expressions := by
    intro other mem
    rcases List.mem_cons.mp mem with same | mem
    · cases same
      exact encloses
    · exact h.expressions other mem
  apart := List.isChain_cons.mpr ⟨fun _ _ _ => nofun, h.apart⟩

theorem cons_text (nonempty : text ≠ []) (free : ¬ opener <:+: text)
    (apart : text.getLast? ≠ some openBrace) (h : Tidy (.expression source :: parts)) :
    Tidy (.text text :: .expression source :: parts) where
  texts := by
    intro other mem
    rcases List.mem_cons.mp mem with same | mem
    · cases same
      exact ⟨nonempty, free⟩
    · exact h.texts other mem
  expressions source mem := h.expressions source ((List.mem_cons.mp mem).resolve_left nofun)
  apart := by
    refine List.isChain_cons_cons.mpr ⟨?_, h.apart⟩
    rintro _ ⟨⟩
    exact ⟨rfl, apart⟩

end Tidy

/-- What is cut out of a template is tidy, and written again it is the template. -/
theorem tidy_segments (h : segments cs = some parts) :
    parts.flatMap Segment.written = cs ∧ Tidy parts := by
  refine segments_induction (P := fun cs cut => ∀ parts, cut = some parts →
    parts.flatMap Segment.written = cs ∧ Tidy parts) ?_ ?_ ?_ cs parts h
  · rintro text free _ ⟨⟩
    cases text with
    | nil => exact ⟨rfl, .nil⟩
    | cons c text => exact ⟨List.append_nil _, .of_text (List.cons_ne_nil c text) free⟩
  · exact fun _ _ _ _ none_there => nomatch none_there
  · rintro text source rest later free apart encloses ih parts cut
    obtain ⟨more, rfl, rfl⟩ := Option.map_eq_some_iff.mp cut
    obtain ⟨again, tidy⟩ := ih more rfl
    have behind : Tidy (.expression source :: more) := .cons_expression encloses tidy
    cases text with
    | nil => exact ⟨by simp [textSegment, Segment.written, again], behind⟩
    | cons c text =>
      exact ⟨by simp [textSegment, Segment.written, again],
        .cons_text (List.cons_ne_nil c text) free apart behind⟩

/-- Tidy segments are cut out of the template that they are written in. -/
theorem segments_of_tidy : ∀ {parts : List Segment}, Tidy parts →
    segments (parts.flatMap Segment.written) = some parts
  | [], _ => rfl
  | .expression source :: more, tidy => by
    have free : ¬ opener <:+: ([] : List Char) := by decide
    have split := segments_of_expression free nofun
      (tidy.expressions source List.mem_cons_self) (more.flatMap Segment.written)
    rw [segments_of_tidy tidy.tail] at split
    simpa [Segment.written, textSegment] using split
  | [.text text], tidy => by
    obtain ⟨nonempty, free⟩ := tidy.texts text List.mem_cons_self
    have split := segments_of_no_opener free
    rw [Machine.textSegment_of_ne_nil nonempty] at split
    simpa [Segment.written] using split
  | .text text :: .expression source :: more, tidy => by
    obtain ⟨nonempty, free⟩ := tidy.texts text List.mem_cons_self
    obtain ⟨_, apart⟩ := (List.isChain_cons_cons.mp tidy.apart).1 text rfl
    have split := segments_of_expression free apart
      (tidy.tail.expressions source List.mem_cons_self) (more.flatMap Segment.written)
    rw [segments_of_tidy tidy.tail.tail, Machine.textSegment_of_ne_nil nonempty] at split
    simpa [Segment.written] using split
  | .text text :: .text other :: more, tidy => by
    cases ((List.isChain_cons_cons.mp tidy.apart).1 text rfl).1

/-- A template is refused for an opener that is not closed, the next one behind a front that can be
cut. -/
theorem segments_eq_none_iff : segments cs = none ↔
    ∃ before body, cs = before ++ opener ++ body ∧ (∃ parts, segments before = some parts) ∧
      before.getLast? ≠ some openBrace ∧ ∀ source, ¬ ClosesBehind source body := by
  constructor
  · intro h
    refine segments_induction (P := fun cs cut => cut = none → ∃ before body,
      cs = before ++ opener ++ body ∧ (∃ parts, segments before = some parts) ∧
        before.getLast? ≠ some openBrace ∧ ∀ source, ¬ ClosesBehind source body) ?_ ?_ ?_ cs h
    · exact fun _ some_there => nomatch some_there
    · intro text body free apart unclosed _
      exact ⟨text, body, rfl, ⟨_, segments_of_no_opener free⟩, apart, unclosed⟩
    · intro text source rest later free apart encloses ih refused
      obtain ⟨before, body, rfl, ⟨parts, cut⟩, ends, unclosed⟩ :=
        ih (Option.map_eq_none_iff.mp refused)
      refine ⟨text ++ opener ++ (source ++ closer ++ before), body, by simp, ?_, ?_, unclosed⟩
      · rw [segments_of_expression free apart encloses, cut]
        exact ⟨_, rfl⟩
      · cases before with
        | nil => simp [closer, List.getLast?_append]; decide
        | cons c before => simpa [List.getLast?_append] using ends
  · rintro ⟨before, body, rfl, ⟨parts, cut⟩, apart, unclosed⟩
    have refused := segments_append cut apart body
    rw [takeExpression_eq_none_iff.mpr unclosed] at refused
    simpa [opener] using refused

/-- Cutting loses nothing. The segments of a template are the tidy ones that give it back when they
are written one after the other; there are no others, and the byte offsets at which the machine cuts
give the same. A template is refused exactly if an opener behind a front that can be cut has no
closing braces behind it outside string literals. -/
theorem segments_lossless (template : List Char) :
    (∀ parts, segments template = some parts ↔
      parts.flatMap Segment.written = template ∧ Tidy parts) ∧
    (segments template = none ↔ ∃ before body, template = before ++ opener ++ body ∧
      (∃ parts, segments before = some parts) ∧ before.getLast? ≠ some openBrace ∧
        ∀ source, ¬ ClosesBehind source body) ∧
    (utf8Len template < wordBound → Machine.segments template = .ok (segments template)) := by
  refine ⟨fun parts => ⟨tidy_segments, ?_⟩, segments_eq_none_iff, Machine.segments_eq⟩
  rintro ⟨rfl, tidy⟩
  exact segments_of_tidy tidy

/-- A greeting with closing braces in a string literal, behind an escaped quote, and a brace at its
end. -/
def greeting : List Char :=
  "Olé, \x7b\x7b 'o\\'\x7d\x7d' ~ name \x7d\x7d\x7b\x7bhp\x7d\x7d\x7d \x7b".toList

/-- The greeting is put together again from its four pieces. If its literal is not closed, neither
is its opener, though closing braces follow. -/
theorem greeting_put_together :
    let parts : List Segment := [.text "Olé, ".toList, .expression " 'o\\'\x7d\x7d' ~ name ".toList,
      .expression "hp".toList, .text "\x7d \x7b".toList]
    let torn := "Olé, \x7b\x7b 'o\\' ~ name \x7d\x7d".toList
    segments greeting = some parts ∧ parts.flatMap Segment.written = greeting ∧ Tidy parts ∧
      utf8Len greeting = 35 ∧ Machine.segments greeting = .ok (some parts) ∧
      segments torn = none ∧ ∃ before body, torn = before ++ opener ++ body ∧
        ∀ source, ¬ ClosesBehind source body := by
  intro parts torn
  have cut : segments greeting = some parts := by decide +kernel
  have refused : segments torn = none := by decide +kernel
  have length : utf8Len greeting = 35 := by decide +kernel
  obtain ⟨whole, _, machine⟩ := segments_lossless greeting
  obtain ⟨again, tidy⟩ := (whole parts).mp cut
  obtain ⟨before, body, split, _, _, unclosed⟩ := (segments_lossless torn).2.1.mp refused
  refine ⟨cut, again, tidy, length, ?_, refused, before, body, split, unclosed⟩
  rw [machine (by rw [length]; decide), cut]

end Tabletop
