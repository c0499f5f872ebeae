/-
Tabletop.Proofs.Machine.Segment — cutting a template at byte offsets.

The machine goes through a template with a cursor: it looks for the next
opener behind it, and then for the closing braces, and cuts the pieces out
by their offsets. Every offset that it comes to is the length of a front of
the template, so no cut goes through a character and no sum is more than the
length. What it cuts out is what `segments` reads.

  §1 The machine
  §2 Texts and expressions
  §3 Templates
-/
import Tabletop.Proofs.Machine.Word
import Tabletop.Template.Segment

namespace Tabletop

open String (utf8Len)

namespace Machine

/-! ## §1 The machine -/

/-- The offset of the first byte of the piece in the text, if it is there. -/
def find (piece : List Char) : List Char → Option Nat
  | [] => if piece.isEmpty then some 0 else none
  | c :: rest =>
      if piece.isPrefixOf (c :: rest) then some 0
      else (find piece rest).map (c.utf8Size + ·)

/-- The offset of the first closing braces outside quotes. The characters left to look at are those
from the offset `index` on. -/
def findClosing (body : List Char) : (index : Nat) → (quote : Option Char) → (escaped : Bool) →
    List Char → Machine (Option Nat)
  | _, _, _, [] => .ok none
  | index, some q, escaped, c :: rest =>
      if escaped then findClosing body (index + c.utf8Size) (some q) false rest
      else if c = '\\' then findClosing body (index + c.utf8Size) (some q) true rest
      else if c = q then findClosing body (index + c.utf8Size) none false rest
      else findClosing body (index + c.utf8Size) (some q) false rest
  | index, none, escaped, c :: rest =>
      if opensQuote c then findClosing body (index + c.utf8Size) (some c) escaped rest
      else if c = closeBrace then do
        let ahead ← dropBytes body index
        if [closeBrace, closeBrace].isPrefixOf ahead then .ok (some index)
        else findClosing body (index + c.utf8Size) none escaped rest
      else findClosing body (index + c.utf8Size) none escaped rest

/-- The text between two offsets as a segment, unless it is empty. -/
def cutText (template : List Char) (start stop : Nat) : Machine (List Segment) :=
  if start < stop then do
    let text ← bytes template start stop
    .ok [.text text]
  else .ok []

/-- One round of cutting: the segment of the text before the next opener, unless it is empty, and
that of the expression behind it. Without an opener, the rest of the template ends the list. -/
def cutRound (template : List Char) :
    Nat × List Segment → Machine ((Nat × List Segment) ⊕ Option (List Segment))
  | (cursor, cut) => do
      let ahead ← dropBytes template cursor
      match find [openBrace, openBrace] ahead with
      | some distance =>
          let opener ← word (cursor + distance)
          let text ← cutText template cursor opener
          let start ← word (opener + 2)
          let body ← dropBytes template start
          match ← findClosing body 0 none false body with
          | none => .ok (.inr none)
          | some length =>
              let stop ← word (start + length)
              let source ← bytes template start stop
              let cursor ← word (stop + 2)
              .ok (.inl (cursor, cut ++ text ++ [.expression source]))
      | none =>
          if cursor < utf8Len template then do
            let text ← dropBytes template cursor
            .ok (.inr (some (cut ++ [.text text])))
          else .ok (.inr (some cut))

/-- The segments of a template; none if an opener is not closed. -/
def segments (template : List Char) : Machine (Option (List Segment)) :=
  loop (cutRound template) (template.length + 1) (0, [])

/-! ## §2 Texts and expressions -/

theorem isPrefixOf_pair (a c : Char) (rest : List Char) :
    [a, a].isPrefixOf (c :: rest) = (decide (c = a) && decide (rest.head? = some a)) := by
  cases rest with
  | nil => simp [List.isPrefixOf]
  | cons d rest => simp [List.isPrefixOf, Bool.beq_eq_decide_eq, eq_comm]

theorem eq_twice {a c : Char} {rest : List Char}
    (h : (decide (c = a) && decide (rest.head? = some a)) = true) :
    c :: rest = a :: a :: rest.tail := by
  rw [Bool.and_eq_true, decide_eq_true_eq, decide_eq_true_eq] at h
  obtain ⟨rfl, next⟩ := h
  cases rest with
  | nil => cases next
  | cons d rest =>
    cases next
    rfl

/-- The offset of the opener is the length of the text before it. -/
theorem find_of_takeText {cs text body : List Char} (h : takeText cs = (text, some body)) :
    cs = text ++ openBrace :: openBrace :: body
      ∧ find [openBrace, openBrace] cs = some (utf8Len text) := by
  induction cs generalizing text with
  | nil => cases h
  | cons c rest ih =>
    rw [find, isPrefixOf_pair]
    rw [takeText] at h
    split at h
    · rename_i opens
      cases h
      rw [if_pos opens]
      exact ⟨eq_twice opens, rfl⟩
    · rename_i plain
      obtain ⟨more, hm⟩ : ∃ more, takeText rest = (more, some body) := by
        cases ht : takeText rest with
        | mk more after =>
          rw [ht] at h
          cases h
          exact ⟨more, rfl⟩
      rw [hm] at h
      cases h
      obtain ⟨split, found⟩ := ih hm
      rw [if_neg plain, found, Option.map_some, String.utf8Len_cons, Nat.add_comm]
      exact ⟨congrArg (c :: ·) split, rfl⟩

theorem find_of_takeText_none {cs text : List Char} (h : takeText cs = (text, none)) :
    cs = text ∧ find [openBrace, openBrace] cs = none := by
  induction cs generalizing text with
  | nil =>
    cases h
    exact ⟨rfl, rfl⟩
  | cons c rest ih =>
    rw [find, isPrefixOf_pair]
    rw [takeText] at h
    split at h
    · cases h
    · rename_i plain
      cases ht : takeText rest with
      | mk more after =>
        rw [ht] at h
        cases h
        obtain ⟨split, found⟩ := ih ht
        rw [if_neg plain, found, ← split]
        exact ⟨rfl, rfl⟩

/-- An expression ends before its closing braces. -/
theorem eq_of_takeExpression {quote : Option Char} {escaped : Bool} {cs inside rest : List Char}
    (h : takeExpression quote escaped cs = some (inside, rest)) :
    cs = inside ++ closeBrace :: closeBrace :: rest := by
  induction cs generalizing quote escaped inside with
  | nil => cases quote <;> cases h
  | cons c more ih =>
    have step : ∀ quote escaped,
        (takeExpression quote escaped more).map (fun p => (c :: p.1, p.2)) = some (inside, rest) →
          c :: more = inside ++ closeBrace :: closeBrace :: rest := by
      intro quote escaped h
      obtain ⟨⟨within, after⟩, taken, heq⟩ := Option.map_eq_some_iff.mp h
      cases heq
      rw [ih taken]
      rfl
    cases quote with
    | some q =>
      rw [takeExpression] at h
      dsimp only at h
      split at h
      · exact step _ _ h
      · split at h
        · exact step _ _ h
        · split at h
          · exact step _ _ h
          · exact step _ _ h
    | none =>
      rw [takeExpression] at h
      split at h
      · rename_i closes
        cases h
        exact eq_twice closes
      · exact step _ _ h

/-- The offset of the closing braces is the length of the expression before them. -/
theorem findClosing_eq {before cs : List Char} {quote : Option Char} {escaped : Bool}
    (clear : quote = none → escaped = false) :
    findClosing (before ++ cs) (utf8Len before) quote escaped cs
      = .ok ((takeExpression quote escaped cs).map fun p => utf8Len before + utf8Len p.1) := by
  induction cs generalizing before quote escaped with
  | nil => cases quote <;> rfl
  | cons c rest ih =>
    -- the search goes on behind the character, whatever it has made of the state
    have next : ∀ quote escaped, (quote = none → escaped = false) →
        findClosing (before ++ c :: rest) (utf8Len before + c.utf8Size) quote escaped rest
          = .ok (((takeExpression quote escaped rest).map fun p => (c :: p.1, p.2)).map
              fun p => utf8Len before + utf8Len p.1) := by
      intro quote escaped clear
      have later := @ih (before ++ [c]) quote escaped clear
      rw [List.append_assoc, List.singleton_append, String.utf8Len_append] at later
      simp only [String.utf8Len_cons, String.utf8Len_nil, Nat.zero_add] at later
      rw [later, Option.map_map]
      simp only [Function.comp_def, String.utf8Len_cons, Nat.add_assoc,
        Nat.add_comm c.utf8Size]
    cases quote with
    | some q =>
      rw [findClosing, takeExpression]
      dsimp only
      split
      · exact next _ _ (by simp)
      · split
        · exact next _ _ (by simp)
        · split
          · exact next _ _ fun _ => rfl
          · exact next _ _ (by simp)
    | none =>
      obtain rfl := clear rfl
      rw [findClosing, takeExpression]
      by_cases opens : opensQuote c = true
      · have other :
            ¬ (decide (c = closeBrace) && decide (rest.head? = some closeBrace)) = true := by
          rw [Bool.and_eq_true, decide_eq_true_eq]
          rintro ⟨rfl, _⟩
          exact absurd opens (by decide)
        rw [if_pos opens, if_neg other, if_pos opens]
        exact next _ _ (by simp)
      · rw [if_neg opens, if_neg opens, bind_eq (dropBytes_append before (c :: rest)),
          isPrefixOf_pair]
        by_cases brace : c = closeBrace
        · rw [if_pos brace]
          split
          · rfl
          · exact next _ _ fun _ => rfl
        · rw [if_neg brace, if_neg (by simp [brace])]
          exact next _ _ fun _ => rfl

/-! ## §3 Templates -/

theorem utf8Len_lt_iff {done cs : List Char} : utf8Len done < utf8Len (done ++ cs) ↔ cs ≠ [] := by
  rw [String.utf8Len_append, Nat.lt_add_right_iff_pos, Nat.pos_iff_ne_zero, Ne,
    String.utf8Len_eq_zero]

theorem textSegment_of_ne_nil {text : List Char} (h : text ≠ []) :
    textSegment text = [.text text] := by
  cases text with
  | nil => exact absurd rfl h
  | cons c rest => rfl

/-- The length of double braces. -/
theorem utf8Len_braces :
    utf8Len [openBrace, openBrace] = 2 ∧ utf8Len [closeBrace, closeBrace] = 2 := by
  decide

variable {done cs text body : List Char} {cut : List Segment}

/-- Without an opener the rest of the template is a text. -/
theorem cutRound_last (h : takeText cs = (text, none)) :
    cutRound (done ++ cs) (utf8Len done, cut) = .ok (.inr (some (cut ++ textSegment text))) := by
  obtain ⟨rfl, found⟩ := find_of_takeText_none h
  rw [cutRound, bind_eq (dropBytes_append done cs), found]
  dsimp only
  by_cases empty : cs = []
  · rw [if_neg (mt utf8Len_lt_iff.mp (not_not.mpr empty)), empty]
    simp [textSegment]
  · rw [if_pos (utf8Len_lt_iff.mpr empty), bind_eq (dropBytes_append done cs),
      textSegment_of_ne_nil empty]

/-- The text before an opener and the expression behind it are cut out, if the expression has
closing braces, and the cursor comes to the end of another front of the template. -/
theorem cutRound_opened (h : takeText cs = (text, some body))
    (small : utf8Len (done ++ cs) < wordBound) :
    (takeExpression none false body = none →
      cutRound (done ++ cs) (utf8Len done, cut) = .ok (.inr none)) ∧
    ∀ source rest, takeExpression none false body = some (source, rest) →
      ∃ before, done ++ cs = before ++ rest ∧ cutRound (done ++ cs) (utf8Len done, cut)
        = .ok (.inl (utf8Len before, cut ++ textSegment text ++ [.expression source])) := by
  obtain ⟨split, found⟩ := find_of_takeText h
  -- the template in its parts, and the offsets at their ends
  obtain ⟨start, hstart⟩ : ∃ start, start = done ++ text ++ [openBrace, openBrace] := ⟨_, rfl⟩
  have whole : done ++ cs = start ++ body := by simp [hstart, split]
  have opener : utf8Len done + utf8Len text = utf8Len (done ++ text) := by simp
  have start_len : utf8Len (done ++ text) + 2 = utf8Len start := by
    rw [hstart, String.utf8Len_append (done ++ text), utf8Len_braces.1]
  have front : utf8Len start ≤ utf8Len (done ++ cs) := by rw [whole]; simp
  have text_cut : cutText (done ++ cs) (utf8Len done) (utf8Len (done ++ text))
      = .ok (textSegment text) := by
    rw [cutText]
    by_cases empty : text = []
    · rw [if_neg (mt utf8Len_lt_iff.mp (not_not.mpr empty)), empty]
      rfl
    · have piece : bytes (done ++ cs) (utf8Len done) (utf8Len (done ++ text)) = .ok text := by
        rw [split, ← List.append_assoc, ← opener, bytes_append]
      rw [if_pos (utf8Len_lt_iff.mpr empty), bind_eq piece, textSegment_of_ne_nil empty]
  have body_there : dropBytes (done ++ cs) (utf8Len start) = .ok body := by
    rw [whole, dropBytes_append]
  have closing : findClosing body 0 none false body
      = .ok ((takeExpression none false body).map fun p => utf8Len p.1) := by
    simpa using @findClosing_eq [] body none false fun _ => rfl
  rw [cutRound, bind_eq (dropBytes_append done cs), found]
  dsimp only
  rw [opener, bind_eq (word_eq (by omega)), bind_eq text_cut, start_len,
    bind_eq (word_eq (by omega)), bind_eq body_there, bind_eq closing]
  constructor
  · intro none_there
    rw [none_there]
    rfl
  · intro source rest taken
    have closed := eq_of_takeExpression taken
    refine ⟨start ++ source ++ [closeBrace, closeBrace], by rw [whole, closed]; simp, ?_⟩
    have stop : utf8Len start + utf8Len source = utf8Len (start ++ source) := by simp
    have stop_len : utf8Len (start ++ source) + 2
        = utf8Len (start ++ source ++ [closeBrace, closeBrace]) := by
      rw [String.utf8Len_append (start ++ source), utf8Len_braces.2]
    have stop_small : utf8Len (start ++ source) + 2 ≤ utf8Len (done ++ cs) := by
      rw [stop_len, whole, closed]
      simp
    have piece : bytes (done ++ cs) (utf8Len start) (utf8Len (start ++ source)) = .ok source := by
      rw [whole, closed, ← List.append_assoc, String.utf8Len_append, bytes_append]
    rw [taken]
    dsimp only [Option.map_some]
    rw [stop, bind_eq (word_eq (by omega)), bind_eq piece, bind_eq (word_eq (by omega)), stop_len]

/-- The segments of the rest come behind those that were cut out before. -/
theorem loop_cutRound {rounds : Nat} (small : utf8Len (done ++ cs) < wordBound)
    (enough : cs.length < rounds) :
    loop (cutRound (done ++ cs)) rounds (utf8Len done, cut)
      = .ok ((segmentsFrom rounds cs).map (cut ++ ·)) := by
  induction rounds generalizing done cs cut with
  | zero => omega
  | succ rounds ih =>
    rw [segmentsFrom]
    cases h : takeText cs with
    | mk text after =>
      cases after with
      | none =>
        rw [loop_done (cutRound_last h)]
        rfl
      | some body =>
        obtain ⟨unclosed, closed⟩ := @cutRound_opened done cs text body cut h small
        cases taken : takeExpression none false body with
        | none =>
          rw [loop_done (unclosed taken)]
          simp [taken]
        | some pieces =>
          obtain ⟨source, rest⟩ := pieces
          obtain ⟨before, split, round⟩ := closed source rest taken
          have shorter : rest.length < cs.length := by
            rw [(find_of_takeText h).1, eq_of_takeExpression taken]
            simp
            omega
          rw [loop_next round, split, ih (split ▸ small) (by omega)]
          cases later : segmentsFrom rounds rest <;> simp [taken, later]

/-- The machine cuts a template into its segments. -/
theorem segments_eq {template : List Char} (small : utf8Len template < wordBound) :
    segments template = .ok (Tabletop.segments template) := by
  have all := @loop_cutRound [] template [] _ small (Nat.lt_succ_self _)
  exact all.trans (by simp [Tabletop.segments])

/-- An expression is a piece of its template. -/
theorem length_source_le {fuel : Nat} {cs source : List Char} {parts : List Segment}
    (h : segmentsFrom fuel cs = some parts) (mem : .expression source ∈ parts) :
    source.length ≤ cs.length := by
  have no_text (text : List Char) : .expression source ∉ textSegment text := by
    unfold textSegment
    split <;> simp
  induction fuel generalizing cs parts with
  | zero =>
    cases h
    cases mem
  | succ fuel ih =>
    rw [segmentsFrom] at h
    cases taken : takeText cs with
    | mk text after =>
      rw [taken] at h
      cases after with
      | none =>
        cases h
        exact (no_text text mem).elim
      | some body =>
        dsimp only at h
        obtain ⟨⟨first, rest⟩, inside, h⟩ := Option.bind_eq_some_iff.mp h
        obtain ⟨more, later, h⟩ := Option.bind_eq_some_iff.mp h
        cases h
        dsimp only at later mem
        have whole : cs.length = text.length + first.length + rest.length + 4 := by
          rw [(find_of_takeText taken).1, eq_of_takeExpression inside]
          simp
          omega
        rcases List.mem_append.mp mem with before | here
        · exact (no_text text before).elim
        · rcases List.mem_cons.mp here with same | behind
          · cases same
            omega
          · have := ih later behind
            omega

end Machine

end Tabletop
