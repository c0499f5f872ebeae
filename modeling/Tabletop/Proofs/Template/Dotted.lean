/-
Tabletop.Proofs.Template.Dotted — dotted paths in templates.

A path is read twice: a context splits it at its dots, and the grammar of
expressions reads it as a chain of accesses. Both agree on names and
positions, with one exception: the digits of two positions in a row, with
the dot between them, are a decimal to the grammar, and a decimal is no
attribute. So a template that is a path without two positions in a row has
the value that the context has there, and any other fails.

  §1 Segments
  §2 Words of a path
  §3 Chains of accesses
  §4 Paths that are no chains
  §5 Templates of one expression
  §6 Paths in templates
-/
import Tabletop.Proofs.Context.Slot
import Tabletop.Proofs.Template.RoundTrip
import Tabletop.Proofs.Value.Split

namespace Tabletop

open Tabletop.Path

/-! ## §1 Segments -/

/-- The segment is a name or a position. -/
def isSegment (s : String) : Bool := isIdentifier s || isPosition s

/-- No white space goes on with a name. -/
theorem continuesName_of_isBlank {c : Char} (h : isBlank c = true) : continuesName c = false := by
  obtain ⟨r, hr, low, high⟩ := inRanges_eq_true_iff.mp h
  have apart : ∀ r ∈ blankRanges, ∀ n ∈ List.range' r.1 (r.2 + 1 - r.1),
      continuesName (Char.ofNat n) = false := by decide +kernel
  have inside : c.toNat ∈ List.range' r.1 (r.2 + 1 - r.1) := by
    rw [List.mem_range'_1]
    omega
  have := apart r hr c.toNat inside
  rwa [Char.ofNat_toNat] at this

theorem continuesName_of_isDigit {c : Char} (h : c.isDigit = true) : continuesName c = true := by
  have each : ∀ n ∈ List.range' 48 10, continuesName (Char.ofNat n) = true := by decide +kernel
  have inside : c.toNat ∈ List.range' 48 10 := by
    rw [List.mem_range'_1]
    simp only [Char.isDigit, Bool.and_eq_true, decide_eq_true_eq] at h
    exact ⟨h.1, Nat.lt_succ_of_le h.2⟩
  have := each c.toNat inside
  rwa [Char.ofNat_toNat] at this

/-- A position is a number written out. -/
theorem isPosition_cases {s : String} (h : isPosition s = true) :
    ∃ n : Nat, s.toList = natDigits n ∧ fitsInt64 n = true ∧ attributeWord s = .int n := by
  unfold isPosition at h
  rw [Option.any_eq_true] at h
  obtain ⟨n, number, canonical⟩ := h
  rw [Bool.and_eq_true, beq_iff_eq] at canonical
  refine ⟨n, ?_, canonical.1, by rw [attributeWord, number]⟩
  rw [← canonical.2, natText, String.toList_ofList]

/-- The characters of a segment are those of names. -/
theorem continuesName_of_mem {s : String} (h : isSegment s = true) :
    s.toList ≠ [] ∧ ∀ c ∈ s.toList, continuesName c = true := by
  rw [isSegment, Bool.or_eq_true] at h
  rcases h with identifier | position
  · obtain ⟨c, tail, hs, starts, continues⟩ := isIdentifier_cases identifier
    rw [hs]
    exact ⟨List.cons_ne_nil _ _,
      List.forall_mem_cons.mpr ⟨continuesName_of_startsName starts, continues⟩⟩
  · obtain ⟨n, digits, _⟩ := isPosition_cases position
    rw [digits]
    exact ⟨natDigits_ne_nil n,
      fun c hc => continuesName_of_isDigit (isDigit_of_mem_natDigits hc)⟩

/-- A context reads segments as they are written. -/
theorem isBare_of_isSegment {s : String} (h : isSegment s = true) : IsBare s := by
  obtain ⟨nonempty, continues⟩ := continuesName_of_mem h
  refine ⟨nonempty, trimWhile_eq_self ?_, ?_⟩
  · intro c hc
    cases blank : isBlank c with
    | false => rfl
    | true =>
      have := continues c hc
      rw [continuesName_of_isBlank blank] at this
      cases this
  · intro c hc
    constructor
    all_goals
      rintro rfl
      exact absurd (continues _ hc) (by decide)

/-! ## §2 Words of a path -/

/-- The words of a segment behind its dot. -/
def accessWords (s : String) : List Token := [.sign .dot, attributeWord s]

/-- The words of segments behind dots, as the grammar sees them: two positions in a row are one
decimal. -/
def dottedWords : Path → List Token
  | [] => []
  | [s] => accessWords s
  | s :: t :: rest =>
      if isPosition s && isPosition t then
        .sign .dot :: .ofDigits s.toList (some t.toList) :: dottedWords rest
      else accessWords s ++ dottedWords (t :: rest)

/-- No two positions stand in a row. -/
def PositionsApart (segments : Path) : Prop :=
  segments.IsChain fun s t => ¬ (isPosition s = true ∧ isPosition t = true)

theorem dottedWords_of_apart {segments : Path} (h : PositionsApart segments) :
    dottedWords segments = segments.flatMap accessWords := by
  fun_induction dottedWords segments with
  | case1 => rfl
  | case2 s => simp
  | case3 s t rest both ih =>
    rw [PositionsApart, List.isChain_cons_cons] at h
    exact absurd (by simpa using both) h.1
  | case4 s t rest other ih =>
    rw [PositionsApart, List.isChain_cons_cons] at h
    rw [ih h.2]
    rfl

/-- The first two positions in a row are a decimal behind a dot. -/
theorem dottedWords_of_adjacent {segments : Path} (h : ¬ PositionsApart segments) :
    ∃ (before : Path) (x : Float) (more : List Token), (∀ s ∈ before, s ∈ segments) ∧
      dottedWords segments = before.flatMap accessWords ++ .sign .dot :: .float x :: more := by
  fun_induction dottedWords segments with
  | case1 => exact absurd List.IsChain.nil h
  | case2 s => exact absurd (List.IsChain.singleton s) h
  | case3 s t rest both ih =>
    exact ⟨[], _, dottedWords rest, fun _ hs => absurd hs List.not_mem_nil, rfl⟩
  | case4 s t rest other ih =>
    have later : ¬ PositionsApart (t :: rest) := by
      intro apart
      refine h (List.isChain_cons_cons.mpr ⟨?_, apart⟩)
      simpa using other
    obtain ⟨before, x, more, inside, words⟩ := ih later
    refine ⟨s :: before, x, more, ?_, ?_⟩
    · intro u hu
      rcases List.mem_cons.mp hu with rfl | hu
      · exact List.mem_cons_self
      · exact List.mem_cons_of_mem _ (inside u hu)
    · rw [words, List.flatMap_cons, List.append_assoc]

/-- What follows a segment stops names and numbers. -/
theorem stops_dotted (segments : Path) :
    Stops continuesName (dotted segments ++ [' ']) := by
  rintro c more heq
  cases segments with
  | nil =>
    cases heq
    decide
  | cons s rest =>
    rw [dotted_cons] at heq
    cases heq
    decide

theorem Stops.digits {rest : List Char} (h : Stops continuesName rest) :
    Stops Char.isDigit rest := by
  intro c more heq
  cases digit : c.isDigit with
  | false => rfl
  | true =>
    have := h c more heq
    rw [continuesName_of_isDigit digit] at this
    cases this

theorem readsAs_dot (rest : List Char) : ReadsAs ['.'] rest (.sign .dot) :=
  ⟨'.', [], rfl, by decide, by rfl⟩

/-- A segment that no fraction follows is read as a segment. -/
theorem readsAs_segment {s : String} {rest : List Char} (h : isSegment s = true)
    (stops : Stops continuesName rest)
    (no_fraction : isPosition s = true → readFraction rest = none) :
    ReadsAs s.toList rest (attributeWord s) := by
  rcases attributeWord_cases h with ⟨word, identifier⟩ | ⟨n, word, text, fits⟩
  · rw [word]
    exact readsAs_name identifier stops
  · have digits : s.toList = natDigits n := by rw [← text, natText, String.toList_ofList]
    have value := readDigits_natDigits (lt_wordBound fits)
    have position : isPosition s = true := by
      simp [isPosition, digits, value, fits, text]
    rw [word, digits, ← ofDigits_natDigits fits]
    exact readsAs_whole (natDigits_ne_nil n) (fun c => isDigit_of_mem_natDigits) stops.digits
      (no_fraction position)

/-- Two positions in a row are read as a decimal. -/
theorem readsAs_positions {s t : String} {rest : List Char} (hs : isPosition s = true)
    (ht : isPosition t = true) (stops : Stops continuesName rest) :
    ReadsAs (s.toList ++ '.' :: t.toList) rest (.ofDigits s.toList (some t.toList)) := by
  obtain ⟨m, front, _⟩ := isPosition_cases hs
  obtain ⟨n, fraction, _⟩ := isPosition_cases ht
  rw [front, fraction]
  exact readsAs_decimal (natDigits_ne_nil m) (fun c => isDigit_of_mem_natDigits)
    (natDigits_ne_nil n) (fun c => isDigit_of_mem_natDigits) stops.digits

/-- A name behind a dot is no fraction. -/
theorem readFraction_identifier {s : String} (h : isIdentifier s = true) (rest : List Char) :
    readFraction ('.' :: (s.toList ++ rest)) = none := by
  obtain ⟨c, tail, hs, starts, _⟩ := isIdentifier_cases h
  rw [hs, List.cons_append, readFraction, isDigit_of_startsName starts]
  rfl

theorem lexesTo_dotted {segments : Path} (h : ∀ s ∈ segments, isSegment s = true) :
    LexesTo (dotted segments ++ [' ']) (dottedWords segments) := by
  fun_induction dottedWords segments with
  | case1 => exact LexesTo.nil.blank
  | case2 s =>
    have whole : ReadsAs s.toList [' '] (attributeWord s) :=
      readsAs_segment (h s List.mem_cons_self) (stops_dotted []) fun _ => rfl
    have spelled : dotted [s] ++ [' '] = ['.'] ++ (s.toList ++ [' ']) := by simp [dotted]
    rw [spelled]
    exact .word (readsAs_dot _) (.word whole LexesTo.nil.blank)
  | case3 s t rest both ih =>
    rw [Bool.and_eq_true] at both
    have others := ih fun u hu => h u (List.mem_cons_of_mem _ (List.mem_cons_of_mem _ hu))
    have decimal := readsAs_positions both.1 both.2 (stops_dotted rest)
    have spelled : dotted (s :: t :: rest) ++ [' ']
        = ['.'] ++ ((s.toList ++ '.' :: t.toList) ++ (dotted rest ++ [' '])) := by
      simp [dotted]
    rw [spelled]
    exact .word (readsAs_dot _) (.word decimal others)
  | case4 s t rest other ih =>
    rw [List.forall_mem_cons] at h
    have others := ih h.2
    have whole : ReadsAs s.toList (dotted (t :: rest) ++ [' ']) (attributeWord s) := by
      refine readsAs_segment h.1 (stops_dotted _) fun position => ?_
      have name : isIdentifier t = true := by
        have segment := h.2 t List.mem_cons_self
        rw [isSegment, Bool.or_eq_true] at segment
        refine segment.resolve_right fun second => ?_
        rw [position, second] at other
        exact other rfl
      rw [dotted_cons, List.cons_append, List.append_assoc]
      exact readFraction_identifier name _
    have spelled : dotted (s :: t :: rest) ++ [' ']
        = ['.'] ++ (s.toList ++ (dotted (t :: rest) ++ [' '])) := by
      simp [dotted]
    rw [spelled]
    exact .word (readsAs_dot _) (.word whole others)

/-! ## §3 Chains of accesses -/

/-- The accesses along segments, from an expression on. -/
def Expr.along (base : Expr) (segments : Path) : Expr := segments.foldl .attribute base

theorem reads_along {ts : List Token} {base : Expr} (h : Reads postfixRank ts base)
    {segments : Path} (segs : ∀ s ∈ segments, isSegment s = true) :
    Reads postfixRank (ts ++ segments.flatMap accessWords) (base.along segments) := by
  induction segments generalizing ts base with
  | nil => simpa [Expr.along] using h
  | cons s rest ih =>
    rw [List.forall_mem_cons] at segs
    rw [List.flatMap_cons, ← List.append_assoc]
    exact ih (h.attribute segs.1) segs.2

theorem staticPath?_along (base : Expr) (segments : Path) :
    (base.along segments).staticPath? = base.staticPath?.map (· ++ segments) := by
  induction segments generalizing base with
  | nil => simp [Expr.along]
  | cons s rest ih =>
    change ((base.attribute s).along rest).staticPath? = _
    rw [ih, Expr.staticPath?, Option.map_map]
    congr 1
    funext p
    simp

/-- The value of a chain of accesses is what the scope has at its path. -/
theorem Expr.eval_of_staticPath? {e : Expr} {p : Path} (h : e.staticPath? = some p)
    (scope : Scope) : e.eval scope = .ok ((scope p).getD .null) := by
  match e, h with
  | .variable name, rfl => simp only [Expr.eval]
  | .attribute base name, h => simp only [Expr.eval, h]
  | .index base position, h => simp only [Expr.eval, h]

theorem reads_root {root : String} (h : isVariableName root = true) :
    Reads postfixRank [.name root] (.variable root) := reads_words (.variable root) h

/-- The words of an expression are read as the expression. -/
theorem Reads.ofTokens {rank : Nat} {ts : List Token} {e : Expr} (h : Reads rank ts e) :
    Expr.ofTokens ts = .ok e := by
  obtain ⟨t, more, words, _⟩ := h.begins
  have nonempty : ts.isEmpty = false := by rw [words]; rfl
  have whole : parseConditional (parseFuel ts.length) (ts ++ []) = .ok (e, []) :=
    h.whole [] _ (Or.inl rfl) (by unfold Enough parseFuel; omega)
  rw [List.append_nil] at whole
  simp only [Expr.ofTokens, nonempty, Bool.false_eq_true, if_false, whole, bind, Except.bind]

/-! ## §4 Paths that are no chains -/

section Faults

variable {fuel : Nat} {l : Level} {ts rest : List Token} {e : Expr} {fault : GrammarFault}

theorem parseLevel_binary_error (front : l.front? ts = none) (binary : l ≠ .unary)
    (operand : parseLevel fuel l.tighter ts = .error fault) :
    parseLevel (fuel + 1) l ts = .error fault := by
  simp only [parseLevel, front, if_neg binary, operand]
  rfl

/-- A fault of the tightest rule is one of every rule that descends to it. -/
theorem parseLevel_error {least : Nat} (front : ∀ l : Level, l.front? ts = none)
    (tightest : ∀ fuel, least ≤ fuel → parseLevel fuel .unary ts = .error fault) (steps : Nat)
    (l : Level) (hl : l.rank + steps = Level.unary.rank) {fuel : Nat}
    (enough : least + steps ≤ fuel) : parseLevel fuel l ts = .error fault := by
  induction steps generalizing l fuel with
  | zero =>
    rw [Level.eq_of_rank hl]
    exact tightest fuel enough
  | succ steps ih =>
    have binary : l ≠ .unary := by
      rintro rfl
      omega
    have next := Level.rank_tighter binary
    obtain ⟨fuel, rfl⟩ : ∃ k, fuel = k + 1 := ⟨fuel - 1, by omega⟩
    exact parseLevel_binary_error (front l) binary (ih l.tighter (by omega) (by omega))

theorem parseConditional_error (value : parseLevel fuel .or ts = .error fault) :
    parseConditional (fuel + 1) ts = .error fault := by
  simp only [parseConditional, value]
  rfl

/-- What may have suffixes is read up to a dot with a decimal behind it, and no further. -/
theorem Reads.ofTokens_error (h : Reads postfixRank ts e) (x : Float) (more : List Token) :
    Expr.ofTokens (ts ++ .sign .dot :: .float x :: more)
      = .error (.expectedAttribute (some (.float x))) := by
  obtain ⟨first, others, words, _⟩ := h.begins
  have nonempty : (ts ++ .sign .dot :: .float x :: more).isEmpty = false := by rw [words]; rfl
  have front : ∀ l : Level, l.front? (ts ++ .sign .dot :: .float x :: more) = none := fun l =>
    h.front l (Nat.lt_succ_of_le l.rank_le) _
  have tightest : ∀ fuel, 12 * ts.length + 10 ≤ fuel →
      parseLevel fuel .unary (ts ++ .sign .dot :: .float x :: more)
        = .error (.expectedAttribute (some (.float x))) := by
    intro fuel enough
    obtain ⟨m, kept, reached⟩ := h.suffixes rfl (.sign .dot :: .float x :: more) fuel
      (fun _ same => by cases same) (by unfold Enough; omega)
    obtain ⟨m, rfl⟩ : ∃ k, m = k + 1 := ⟨m - 1, by omega⟩
    rw [reached]
    simp only [parseSuffixes]
  have length : (ts ++ .sign .dot :: .float x :: more).length = ts.length + 2 + more.length := by
    simp only [List.length_append, List.length_cons]
    omega
  have whole : parseConditional (parseFuel (ts ++ .sign .dot :: .float x :: more).length)
      (ts ++ .sign .dot :: .float x :: more) = .error (.expectedAttribute (some (.float x))) := by
    rw [length]
    refine parseConditional_error (parseLevel_error front tightest 7 .or (by rfl) ?_)
    omega
  simp only [Expr.ofTokens, nonempty, Bool.false_eq_true, if_false, whole, bind, Except.bind]

end Faults

/-! ## §5 Templates of one expression -/

/-- The text between double braces, with blanks around it. -/
def braced (source : String) : String := "\x7b\x7b " ++ source ++ " \x7d\x7d"

/-- An expression without quotes and closing braces reaches up to the closing braces. -/
theorem takeExpression_plain {cs : List Char}
    (plain : ∀ c ∈ cs, opensQuote c = false ∧ c ≠ closeBrace) (rest : List Char) :
    takeExpression none false (cs ++ closeBrace :: closeBrace :: rest) = some (cs, rest) := by
  induction cs with
  | nil => simp [takeExpression]
  | cons c cs ih =>
    rw [List.forall_mem_cons] at plain
    simp [takeExpression, plain.1, ih plain.2]

theorem toList_braced (source : String) : (braced source).toList = openBrace :: openBrace ::
    ((' ' :: (source.toList ++ [' '])) ++ [closeBrace, closeBrace]) := by
  simp [braced, openBrace, closeBrace]

theorem hasMarkers_braced (source : String) : hasMarkers (braced source) = true := by
  unfold hasMarkers
  rw [toList_braced]
  simp [occursIn]

/-- A template has the value of an expression that reaches from its opener to its end. -/
theorem resolveTemplate_of_taken {source : String} (scope : Scope)
    (taken : takeExpression none false ((' ' :: (source.toList ++ [' '])) ++ [closeBrace, closeBrace])
      = some (' ' :: (source.toList ++ [' ']), [])) :
    resolveTemplate (braced source) scope
      = (evalSource scope (' ' :: (source.toList ++ [' ']))).mapError (⟨braced source, ·⟩) := by
  have opener : ∀ cs, takeText (openBrace :: openBrace :: cs) = ([], some cs) := by
    intro cs
    simp [takeText]
  have nothing : ∀ fuel, segmentsFrom fuel [] = some [] := by
    intro fuel
    cases fuel <;> rfl
  have parts : segments (braced source).toList
      = some [.expression (' ' :: (source.toList ++ [' ']))] := by
    rw [toList_braced, segments, segmentsFrom, opener]
    simp only [taken, nothing, bind, Option.bind, textSegment]
    rfl
  rw [resolveTemplate, if_pos (hasMarkers_braced source), parts]
  rfl

/-- A template of one expression has the value of the expression. -/
theorem resolveTemplate_braced {source : String} (scope : Scope)
    (plain : ∀ c ∈ source.toList, opensQuote c = false ∧ c ≠ closeBrace) :
    resolveTemplate (braced source) scope
      = (evalSource scope (' ' :: (source.toList ++ [' ']))).mapError (⟨braced source, ·⟩) := by
  refine resolveTemplate_of_taken scope (takeExpression_plain ?_ [])
  intro c hc
  simp only [List.mem_cons, List.mem_append, List.not_mem_nil, or_false] at hc
  rcases hc with rfl | hc | rfl
  · decide
  · exact plain c hc
  · decide

/-! ## §6 Paths in templates -/

/-- A template that is a path is cut into the words of the path. -/
theorem tokens_path {root : String} {segments : Path} (name : isVariableName root = true)
    (segs : ∀ s ∈ segments, isSegment s = true) :
    tokens (' ' :: ((join (root :: segments)).toList ++ [' ']))
      = .ok (.name root :: dottedWords segments) := by
  rw [isVariableName, Bool.and_eq_true, Bool.and_eq_true] at name
  rw [toList_join_cons, List.append_assoc]
  exact (LexesTo.word (readsAs_name name.1.1 (stops_dotted segments))
    (lexesTo_dotted segs)).blank.tokens

theorem plain_of_isSegment {s : String} (h : isSegment s = true) :
    ∀ c ∈ s.toList, opensQuote c = false ∧ c ≠ closeBrace := by
  intro c hc
  have continues := (continuesName_of_mem h).2 c hc
  constructor
  · cases quote : opensQuote c with
    | false => rfl
    | true => rcases eq_of_opensQuote quote with rfl | rfl <;> exact absurd continues (by decide)
  · rintro rfl
    exact absurd continues (by decide)

theorem plain_join {root : String} {segments : Path} (first : isSegment root = true)
    (segs : ∀ s ∈ segments, isSegment s = true) :
    ∀ c ∈ (join (root :: segments)).toList, opensQuote c = false ∧ c ≠ closeBrace := by
  intro c hc
  rw [toList_join_cons, List.mem_append] at hc
  rcases hc with hc | hc
  · exact plain_of_isSegment first c hc
  · obtain ⟨s, hs, hc⟩ := List.mem_flatMap.mp hc
    rcases List.mem_cons.mp hc with rfl | hc
    · decide
    · exact plain_of_isSegment (segs s hs) c hc

namespace Context

/-- Paths in templates. A path of a variable name and further names and positions is read by a
context as its segments. A template of the path has the value that the context has there, null if
none, exactly if no two positions stand in a row; otherwise the first two of them are taken for a
decimal, and that is no attribute. -/
theorem resolveTemplate_path_iff (c : Context) (expressions : c.resolver = .expressions)
    (root : String) (segments : Path) (name : isVariableName root = true)
    (segs : ∀ s ∈ segments, isSegment s = true) :
    let path := join (root :: segments)
    Path.split path = root :: segments ∧
    (c.resolveTemplate (braced path) = .ok ((c.get path).getD .null) ↔ PositionsApart segments) ∧
    (¬ PositionsApart segments → ∃ x, c.resolveTemplate (braced path)
      = .error ⟨braced path, .grammar (.expectedAttribute (some (.float x)))⟩) := by
  intro path
  have identifier : isIdentifier root = true := by
    rw [isVariableName, Bool.and_eq_true, Bool.and_eq_true] at name
    exact name.1.1
  have first : isSegment root = true := by rw [isSegment, identifier, Bool.true_or]
  have every : ∀ s ∈ root :: segments, isSegment s = true :=
    List.forall_mem_cons.mpr ⟨first, segs⟩
  have split : Path.split path = root :: segments :=
    split_join fun s hs => isBare_of_isSegment (every s hs)
  have whole : c.resolveTemplate (braced path)
      = (evalSource c.scope (' ' :: (path.toList ++ [' ']))).mapError (⟨braced path, ·⟩) := by
    rw [resolveTemplate, expressions]
    exact resolveTemplate_braced c.scope (plain_join first segs)
  have parse : Expr.parse (' ' :: (path.toList ++ [' ']))
      = Expr.ofTokens (.name root :: dottedWords segments) := by
    simp only [Expr.parse, path, tokens_path name segs]
  have apart : PositionsApart segments →
      c.resolveTemplate (braced path) = .ok ((c.get path).getD .null) := by
    intro apart
    have chain := reads_along (reads_root name) segs
    have reached : (Expr.along (.variable root) segments).staticPath? = some (root :: segments) := by
      rw [staticPath?_along]
      rfl
    have parsed : Expr.ofTokens (.name root :: dottedWords segments)
        = .ok (Expr.along (.variable root) segments) := by
      rw [dottedWords_of_apart apart]
      exact chain.ofTokens
    rw [parsed] at parse
    rw [whole]
    simp only [evalSource, parse, Expr.eval_of_staticPath? reached, get, split]
    rfl
  have adjacent : ¬ PositionsApart segments → ∃ x, c.resolveTemplate (braced path)
      = .error ⟨braced path, .grammar (.expectedAttribute (some (.float x)))⟩ := by
    intro adjacent
    obtain ⟨before, x, more, inside, words⟩ := dottedWords_of_adjacent adjacent
    have chain := reads_along (reads_root name) fun s hs => segs s (inside s hs)
    have parsed : Expr.ofTokens (.name root :: dottedWords segments)
        = .error (.expectedAttribute (some (.float x))) := by
      rw [words]
      exact chain.ofTokens_error x more
    refine ⟨x, ?_⟩
    rw [parsed] at parse
    rw [whole]
    simp only [evalSource, parse]
    rfl
  refine ⟨split, ⟨fun same => ?_, apart⟩, adjacent⟩
  by_contra wrong
  obtain ⟨x, fails⟩ := adjacent wrong
  rw [fails] at same
  cases same

/-- A context with a grid of two rows. -/
def gridded : Context :=
  empty.putSlot "variables" "grid"
    ⟨.list [.list [.int 1, .int 2], .list [.int 3, .int 4]], .plain⟩

/-- The first row of the grid, in a template and in the context. -/
theorem gridded_shows_row :
    isVariableName "variables" = true ∧ (∀ s ∈ ["grid", "0"], isSegment s = true)
      ∧ PositionsApart ["grid", "0"]
      ∧ gridded.resolveTemplate (braced "variables.grid.0") = .ok (.list [.int 1, .int 2]) := by
  have name : isVariableName "variables" = true := by decide +kernel
  have segs : ∀ s ∈ ["grid", "0"], isSegment s = true := by decide +kernel
  have apart : PositionsApart ["grid", "0"] := by
    unfold PositionsApart
    decide +kernel
  have shown := (gridded.resolveTemplate_path_iff rfl "variables" ["grid", "0"] name segs).2.1.mpr
    apart
  exact ⟨name, segs, apart, shown⟩

/-- A cell of the grid is there for the context, and the template of its path fails. -/
theorem gridded_hides_cell :
    isVariableName "variables" = true ∧ (∀ s ∈ ["grid", "0", "1"], isSegment s = true)
      ∧ join ["variables", "grid", "0", "1"] = "variables.grid.0.1"
      ∧ gridded.get "variables.grid.0.1" = some (.int 2)
      ∧ ∃ error, gridded.resolveTemplate (braced "variables.grid.0.1") = .error error := by
  have fails : (gridded.resolveTemplate (braced "variables.grid.0.1")).isOk = false := by
    decide +kernel
  refine ⟨by decide +kernel, by decide +kernel, by decide +kernel, by rfl, ?_⟩
  cases h : gridded.resolveTemplate (braced "variables.grid.0.1") with
  | error error => exact ⟨error, rfl⟩
  | ok v =>
    rw [h] at fails
    cases fails

end Context

end Tabletop
