/-
Tabletop.Proofs.Prompt — filled prompts.

A prompt is made of literal texts and placeholders. In its template every
brace of a literal text is doubled, and a placeholder is a name in single
braces. Wherever the parts touch, `{{{a}}}` included, filling in finds their
bounds again: a literal text comes out as it was, a placeholder as the value
of its name, and what was put in is not looked at any more. The first name
that has no value is the one that is reported.

  §1 Parts
  §2 One part at a time
  §3 Whole prompts
-/
import Tabletop.Prompt

namespace Tabletop

/-! ## §1 Parts -/

/-- A part of a prompt. -/
inductive PromptPart where
  | literal (cs : List Char)
  | placeholder (name : List Char)
  deriving DecidableEq, Repr

/-- The character inside a literal text: a brace is doubled. -/
def doubled (c : Char) : List Char := if c = '\x7b' ∨ c = '\x7d' then [c, c] else [c]

namespace PromptPart

/-- The part in the template. -/
def written : PromptPart → List Char
  | literal cs => cs.flatMap doubled
  | placeholder name => '\x7b' :: (name ++ ['\x7d'])

/-- A name has no closing brace, and no opening one at its start. -/
def isWritable : PromptPart → Bool
  | literal _ => true
  | placeholder name => !('\x7d' ∈ name) && name.head? ≠ some '\x7b'

/-- The text that stands for the part: that of the value of its name, if there is one. -/
def text? (data : Fields) : PromptPart → Option String
  | literal cs => some (String.ofList cs)
  | placeholder name => (Entries.get? data (String.ofList (trimChars name))).map Value.render

end PromptPart

variable {data : Fields} {name rest : List Char} {parts : List PromptPart} {texts : List String}

/-! ## §2 One part at a time -/

/-- A character of a literal text comes out as it is. -/
theorem fillFrom_doubled (c : Char) (rest : List Char) :
    fillFrom data none (doubled c ++ rest)
      = (fillFrom data none rest).map (String.ofList [c] ++ ·) := by
  by_cases opening : c = '\x7b'
  · subst opening
    rw [doubled, if_pos (Or.inl rfl), List.cons_append, List.singleton_append, fillFrom]
    cases fillFrom data none rest <;> rfl
  by_cases closing : c = '\x7d'
  · subst closing
    rw [doubled, if_pos (Or.inr rfl), List.cons_append, List.singleton_append, fillFrom]
    cases fillFrom data none rest <;> rfl
  · have equation : fillFrom data none (c :: rest)
        = (fillFrom data none rest >>= fun more => .ok (String.ofList [c] ++ more)) := by
      rw [fillFrom.eq_def data none (c :: rest)]
      split <;> simp_all
    rw [doubled, if_neg (by simp [opening, closing]), List.singleton_append, equation]
    cases fillFrom data none rest <;> rfl

/-- A literal text comes out as it is. -/
theorem fillFrom_literal (cs rest : List Char) :
    fillFrom data none (cs.flatMap doubled ++ rest)
      = (fillFrom data none rest).map (String.ofList cs ++ ·) := by
  induction cs with
  | nil =>
    rw [List.flatMap_nil, List.nil_append]
    cases fillFrom data none rest <;> simp [Except.map]
  | cons c cs ih =>
    rw [List.flatMap_cons, List.append_assoc, fillFrom_doubled, ih]
    cases fillFrom data none rest with
    | error fault => rfl
    | ok more =>
      have joined : String.ofList [c] ++ String.ofList cs = String.ofList (c :: cs) := by
        rw [← String.ofList_append, List.singleton_append]
      simp only [Except.map, ← String.append_assoc, joined]

/-- A name reaches to the closing brace. -/
theorem fillFrom_name (closed : '\x7d' ∉ name) (read rest : List Char) :
    fillFrom data (some read) (name ++ '\x7d' :: rest)
      = placeholderText data (read.reverse ++ name) >>= fun text =>
        (fillFrom data none rest).map (text ++ ·) := by
  induction name generalizing read with
  | nil =>
    rw [List.nil_append, List.append_nil, fillFrom, if_pos rfl]
    cases placeholderText data read.reverse with
    | error fault => rfl
    | ok text => cases fillFrom data none rest <;> rfl
  | cons c name ih =>
    rw [List.mem_cons, not_or] at closed
    rw [List.cons_append, fillFrom, if_neg (Ne.symm closed.1), ih closed.2]
    simp

/-- A placeholder is filled in with the value of its name. -/
theorem fillFrom_placeholder (writable : (PromptPart.placeholder name).isWritable = true)
    (rest : List Char) :
    fillFrom data none ((PromptPart.placeholder name).written ++ rest)
      = placeholderText data name >>= fun text => (fillFrom data none rest).map (text ++ ·) := by
  rw [PromptPart.isWritable, Bool.and_eq_true, Bool.not_eq_true', decide_eq_false_iff_not,
    decide_eq_true_eq] at writable
  have opened : fillFrom data none ('\x7b' :: (name ++ '\x7d' :: rest))
      = fillFrom data (some []) (name ++ '\x7d' :: rest) := by
    cases name with
    | nil => simp [fillFrom]
    | cons c name =>
      have other : c ≠ '\x7b' := by simpa using writable.2
      rw [List.cons_append, fillFrom.eq_def data none ('\x7b' :: _)]
      simp [other]
  rw [PromptPart.written, List.cons_append, List.append_assoc, List.singleton_append, opened,
    fillFrom_name writable.1]
  rfl

/-- Parts that have their texts are filled in, and then what follows them. -/
theorem fillFrom_parts (writable : ∀ p ∈ parts, p.isWritable = true)
    (known : parts.map (PromptPart.text? data) = texts.map some) (rest : List Char) :
    fillFrom data none (parts.flatMap PromptPart.written ++ rest)
      = (fillFrom data none rest).map (String.join texts ++ ·) := by
  induction parts generalizing texts with
  | nil =>
    rw [List.map_nil, eq_comm, List.map_eq_nil_iff] at known
    subst known
    rw [List.flatMap_nil, List.nil_append]
    cases fillFrom data none rest <;> simp [Except.map]
  | cons p parts ih =>
    obtain ⟨text, others, rfl, here, later⟩ : ∃ text others, texts = text :: others
        ∧ p.text? data = some text ∧ parts.map (PromptPart.text? data) = others.map some := by
      cases texts with
      | nil => cases known
      | cons text others =>
        rw [List.map_cons, List.map_cons, List.cons_eq_cons] at known
        exact ⟨text, others, rfl, known⟩
    rw [List.forall_mem_cons] at writable
    have first : fillFrom data none (p.written ++ (parts.flatMap PromptPart.written ++ rest))
        = (fillFrom data none (parts.flatMap PromptPart.written ++ rest)).map (text ++ ·) := by
      cases p with
      | literal cs =>
        cases here
        exact fillFrom_literal cs _
      | placeholder name =>
        obtain ⟨v, held, rfl⟩ := Option.map_eq_some_iff.mp here
        rw [fillFrom_placeholder writable.1, placeholderText, held]
        rfl
    rw [List.flatMap_cons, List.append_assoc, first, ih writable.2 later, String.join_cons]
    cases fillFrom data none rest with
    | error fault => rfl
    | ok more => simp only [Except.map, String.append_assoc]

/-! ## §3 Whole prompts -/

/-- The template of parts is filled in with their texts, one behind the other. If a name has no
value, the first one of these is missed instead. -/
theorem fillPrompt_written (writable : ∀ p ∈ parts, p.isWritable = true) (data : Fields) :
    let template := String.ofList (parts.flatMap PromptPart.written)
    (∀ texts : List String, parts.map (PromptPart.text? data) = texts.map some →
      fillPrompt template data = .ok (String.join texts)) ∧
    (∀ before name after, parts = before ++ .placeholder name :: after →
      (∀ p ∈ before, (p.text? data).isSome = true) →
      Entries.get? data (String.ofList (trimChars name)) = none →
      fillPrompt template data = .error (.missing (String.ofList (trimChars name)))) := by
  intro template
  have filled : fillPrompt template data
      = fillFrom data none (parts.flatMap PromptPart.written) := by
    rw [fillPrompt, String.toList_ofList]
  constructor
  · intro texts known
    have all := fillFrom_parts writable known []
    rw [List.append_nil] at all
    rw [filled, all, fillFrom, Except.map, String.append_empty]
  · rintro before name after rfl present unknown
    have known : before.map (PromptPart.text? data)
        = (before.map fun p => (p.text? data).getD "").map some := by
      rw [List.map_map]
      refine List.map_congr_left fun p hp => ?_
      obtain ⟨text, found⟩ := Option.isSome_iff_exists.mp (present p hp)
      simp [found]
    rw [List.forall_mem_append, List.forall_mem_cons] at writable
    rw [filled, List.flatMap_append, List.flatMap_cons, fillFrom_parts writable.1 known,
      fillFrom_placeholder writable.2.1, placeholderText, unknown]
    rfl

/-- A placeholder right between braces. -/
def embraced : List PromptPart :=
  [.literal ['\x7b'], .placeholder [' ', 'a', ' '], .literal ['\x7d']]

/-- A value with placeholders of its own stays as it is, and without a value its name is missed. -/
theorem embraced_filled :
    String.ofList (embraced.flatMap PromptPart.written) = "\x7b\x7b\x7b a \x7d\x7d\x7d" ∧
      fillPrompt "\x7b\x7b\x7b a \x7d\x7d\x7d" [("a", .text "\x7bb\x7d")]
        = .ok "\x7b\x7bb\x7d\x7d" ∧
      fillPrompt "\x7b\x7b\x7b a \x7d\x7d\x7d" [] = .error (.missing "a") := by
  have template : String.ofList (embraced.flatMap PromptPart.written)
      = "\x7b\x7b\x7b a \x7d\x7d\x7d" := by decide
  have writable : ∀ p ∈ embraced, p.isWritable = true := by decide
  obtain ⟨filled, _⟩ := fillPrompt_written writable [("a", .text "\x7bb\x7d")]
  obtain ⟨_, missed⟩ := fillPrompt_written writable []
  rw [template] at filled missed
  refine ⟨template, ?_, ?_⟩
  · exact filled ["\x7b", "\x7bb\x7d", "\x7d"] rfl
  · exact missed [.literal ['\x7b']] [' ', 'a', ' '] [.literal ['\x7d']] rfl (by decide) rfl

end Tabletop
