/-
Tabletop.Proofs.Template.RoundTrip — a written expression is read back.

The rules of the grammar descend from the loosest level to a primary and go
on with operators and suffixes on the way back, each as far as it can.
`Reads` says of words that the rules of every level that is loose enough
arrive at the expression, before what may follow an expression of the level
(`Ends`); where the expression is an operand of its own level, the rule
goes on from there with the operators behind it. Each way of building an
expression has one lemma that puts its words together from those of its
parts. Every rule has fuel for the words in front of it: each word costs
less than twelve steps, as no two rules that go down to a primary start at
the same word without a parenthesis between them.

  §1 What may follow an expression
  §2 Single rules
  §3 Words that are read as an expression
  §4 Primaries and suffixes
  §5 Operators
  §6 Conditionals and lists
  §7 Expressions
  §8 Texts
-/
import Tabletop.Proofs.Template.Lexing

namespace Tabletop

/-! ## §1 What may follow an expression -/

/-- The next word is no operator of a level of the rank or a tighter one, and begins no suffix. -/
structure Ends (least : Nat) (rest : List Token) : Prop where
  operator : ∀ l : Level, least ≤ l.rank → l.operator? rest = none
  suffix : ∀ s more, rest = .sign s :: more → s ∉ [Sign.dot, .openBracket, .bar, .openParen]

/-- The words end, or a parenthesis or bracket closes, or a comma follows. -/
def Closes (rest : List Token) : Prop :=
  rest = [] ∨ ∃ s more, rest = .sign s :: more ∧ s ∈ [Sign.closeParen, .closeBracket, .comma]

theorem Ends.mono {few more : Nat} {rest : List Token} (h : Ends few rest) (le : few ≤ more) :
    Ends more rest where
  operator l hl := h.operator l (Nat.le_trans le hl)
  suffix := h.suffix

theorem Closes.ends {rest : List Token} (h : Closes rest) (least : Nat) : Ends least rest where
  operator := by
    intro l _
    rcases h with rfl | ⟨s, more, rfl, hs⟩
    · cases l <;> rfl
    · simp only [List.mem_cons, List.not_mem_nil, or_false] at hs
      rcases hs with rfl | rfl | rfl <;> cases l <;> rfl
  suffix := by
    rintro s more rfl
    rcases h with h | ⟨t, others, same, hs⟩
    · cases h
    · cases same
      revert s
      decide

/-- The words that go on with a conditional end everything else. -/
theorem ends_of_conditional {name : String} (h : name = "if" ∨ name = "else") (more : List Token) :
    Ends 1 (.name name :: more) where
  operator := by
    intro l _
    rcases h with rfl | rfl <;> cases l <;> rfl
  suffix := nofun

/-- An operator of a level ends what is tighter. -/
theorem ends_of_operator {l : Level} {ts rest : List Token} {combine : Expr → Expr → Expr}
    (h : l.operator? ts = some (combine, rest)) : Ends (l.rank + 1) ts where
  operator := by
    intro tighter hl
    unfold Level.operator? at h
    split at h <;> cases h
    all_goals
      cases tighter <;> first
        | rfl
        | exact absurd hl (by decide)
  suffix := by
    rintro s more rfl
    unfold Level.operator? at h
    split at h <;> cases h
    all_goals
      rename_i same
      cases same <;> decide

/-! ## §2 Single rules -/

section Rules

variable {fuel : Nat} {l : Level} {ts rest left : List Token} {e e₁ e₂ : Expr}

theorem parseLevel_front {wrap : Expr → Expr} (front : l.front? ts = some (wrap, rest))
    (inner : parseLevel fuel l rest = .ok (e, left)) :
    parseLevel (fuel + 1) l ts = .ok (wrap e, left) := by
  simp only [parseLevel, front, inner]
  rfl

theorem parseLevel_binary (front : l.front? ts = none) (binary : l ≠ .unary)
    (operand : parseLevel fuel l.tighter ts = .ok (e, rest)) :
    parseLevel (fuel + 1) l ts = parseChain fuel l e rest := by
  simp only [parseLevel, front, if_neg binary, operand]
  rfl

theorem parseLevel_unary (front : Level.unary.front? ts = none)
    (primary : parsePrimary fuel ts = .ok (e, rest)) :
    parseLevel (fuel + 1) .unary ts = parseSuffixes fuel e rest := by
  simp only [parseLevel, front, if_true, primary]
  rfl

theorem parseChain_step {combine : Expr → Expr → Expr}
    (operator : l.operator? ts = some (combine, rest))
    (operand : parseLevel fuel l.tighter rest = .ok (e₂, left)) :
    parseChain (fuel + 1) l e₁ ts = parseChain fuel l (combine e₁ e₂) left := by
  simp only [parseChain, operator, operand]
  rfl

theorem parseChain_end (operator : l.operator? ts = none) :
    parseChain (fuel + 1) l e ts = .ok (e, ts) := by
  simp only [parseChain, operator]

theorem parseSuffixes_end (ends : Ends 9 ts) : parseSuffixes (fuel + 1) e ts = .ok (e, ts) := by
  unfold parseSuffixes
  split
  · exact absurd (ends.suffix _ _ rfl) (by decide)
  · exact absurd (ends.suffix _ _ rfl) (by decide)
  · exact absurd (ends.suffix _ _ rfl) (by decide)
  · rfl

theorem parseConditional_value (value : parseLevel fuel .or ts = .ok (e, rest))
    (ends : ∀ more, rest ≠ .name "if" :: more) :
    parseConditional (fuel + 1) ts = .ok (e, rest) := by
  simp only [parseConditional, value, bind, Except.bind]

theorem parseConditional_guarded {value condition : Expr}
    (first : parseLevel fuel .or ts = .ok (value, .name "if" :: rest))
    (second : parseLevel fuel .or rest = .ok (condition, left))
    (ends : ∀ more, left ≠ .name "else" :: more) :
    parseConditional (fuel + 1) ts = .ok (.guarded value condition, left) := by
  simp only [parseConditional, first, bind, Except.bind, second]

theorem parseConditional_choice {value condition otherwise : Expr} {last : List Token}
    (first : parseLevel fuel .or ts = .ok (value, .name "if" :: rest))
    (second : parseLevel fuel .or rest = .ok (condition, .name "else" :: left))
    (third : parseConditional fuel left = .ok (otherwise, last)) :
    parseConditional (fuel + 1) ts = .ok (.choice value condition otherwise, last) := by
  simp only [parseConditional, first, bind, Except.bind, second, third]

end Rules

/-! ## §3 Words that are read as an expression -/

/-- Twelve steps for every word, and those that lead from the level down to a primary. -/
def Enough (ts : List Token) (rank fuel : Nat) : Prop := 12 * ts.length + 10 ≤ fuel + rank

theorem Level.rank_pos (l : Level) : 1 ≤ l.rank := by cases l <;> decide

theorem Level.rank_le (l : Level) : l.rank ≤ 8 := by cases l <;> decide

theorem Level.rank_ne_postfixRank (l : Level) : l.rank ≠ postfixRank := by cases l <;> decide

theorem Level.eq_of_rank {a b : Level} (h : a.rank = b.rank) : a = b := by
  revert h
  cases a <;> cases b <;> decide

theorem Level.rank_tighter {l : Level} (h : l ≠ .unary) : l.tighter.rank = l.rank + 1 := by
  revert h
  cases l <;> decide

theorem Enough.exists_succ {ts : List Token} {rank fuel : Nat} (h : Enough ts rank fuel)
    (le : rank ≤ 8) : ∃ m, fuel = m + 1 ∧ 12 * ts.length + 9 ≤ m + rank := by
  unfold Enough at h
  exact ⟨fuel - 1, by omega, by omega⟩

/-- There is a first word, and it closes nothing. -/
def Begins (ts : List Token) : Prop :=
  ∃ t more, ts = t :: more ∧ t ≠ .sign .closeParen ∧ t ≠ .sign .closeBracket

theorem Begins.append {ts : List Token} (h : Begins ts) (others : List Token) :
    Begins (ts ++ others) := by
  obtain ⟨t, more, rfl, closing⟩ := h
  exact ⟨t, more ++ others, rfl, closing⟩

theorem Begins.length_pos {ts : List Token} (h : Begins ts) : 1 ≤ ts.length := by
  obtain ⟨t, more, rfl, _⟩ := h
  exact Nat.succ_le_succ (Nat.zero_le _)

/-- The rule of the level arrives at the expression and goes on with the operators of the level. -/
def Arrives (l : Level) (ts : List Token) (e : Expr) : Prop :=
  ∀ rest fuel, Ends (l.rank + 1) rest → Enough ts l.rank fuel → ∃ m, fuel ≤ m + 12 * ts.length ∧
    parseLevel fuel l (ts ++ rest) = parseChain m l e rest

/-- The tightest rule arrives at the expression and goes on with suffixes. -/
def TakesSuffixes (ts : List Token) (e : Expr) : Prop :=
  ∀ rest fuel, (∀ more, rest ≠ .sign .openParen :: more) → Enough ts Level.unary.rank fuel →
    ∃ m, fuel ≤ m + 12 * ts.length ∧
      parseLevel fuel .unary (ts ++ rest) = parseSuffixes m e rest

/-- The words are read as the expression at every level of the rank or a looser one. -/
structure Reads (rank : Nat) (ts : List Token) (e : Expr) : Prop where
  begins : Begins ts
  unassigned : .sign .assign ∉ ts
  front : ∀ l : Level, l.rank < rank → ∀ rest, l.front? (ts ++ rest) = none
  chain : ∀ l : Level, l.rank ≤ rank → Arrives l ts e
  suffixes : rank = postfixRank → TakesSuffixes ts e
  whole : ∀ rest fuel, Closes rest → Enough ts 0 fuel →
    parseConditional fuel (ts ++ rest) = .ok (e, rest)

variable {rank : Nat} {ts rest : List Token} {e : Expr} {l : Level} {fuel : Nat}

/-- Where no operator of the level follows, the expression is all that is read. -/
theorem parseLevel_of_chain {m : Nat} (ends : Ends l.rank rest) (enough : Enough ts l.rank fuel)
    (kept : fuel ≤ m + 12 * ts.length)
    (reached : parseLevel fuel l (ts ++ rest) = parseChain m l e rest) :
    parseLevel fuel l (ts ++ rest) = .ok (e, rest) := by
  have highest := l.rank_le
  unfold Enough at enough
  obtain ⟨m, rfl⟩ : ∃ k, m = k + 1 := ⟨m - 1, by omega⟩
  rw [reached, parseChain_end (ends.operator l (Nat.le_refl _))]

theorem Reads.level (h : Reads rank ts e) (hl : l.rank ≤ rank) (ends : Ends l.rank rest)
    (enough : Enough ts l.rank fuel) : parseLevel fuel l (ts ++ rest) = .ok (e, rest) := by
  obtain ⟨m, kept, reached⟩ := h.chain l hl rest fuel (ends.mono (Nat.le_succ _)) enough
  exact parseLevel_of_chain ends enough kept reached

/-- What the rule of a level arrives at, those of the looser ones arrive at. -/
theorem Arrives.descend {top : Level} (begins : Begins ts)
    (front : ∀ l : Level, l.rank < top.rank → ∀ rest, l.front? (ts ++ rest) = none)
    (arrives : Arrives top ts e) (steps : Nat) (l : Level) (hl : l.rank + steps = top.rank) :
    Arrives l ts e := by
  induction steps generalizing l with
  | zero =>
    rw [Level.eq_of_rank hl]
    exact arrives
  | succ steps ih =>
    intro rest fuel ends enough
    have highest := top.rank_le
    have binary : l ≠ .unary := by
      rintro rfl
      change 8 + (steps + 1) = top.rank at hl
      omega
    have next := Level.rank_tighter binary
    obtain ⟨fuel, rfl, left⟩ := enough.exists_succ l.rank_le
    have enough_there : Enough ts l.tighter.rank fuel := by
      unfold Enough
      omega
    have ends_there : Ends l.tighter.rank rest := by rwa [next]
    obtain ⟨m, kept, reached⟩ := ih l.tighter (by omega) rest fuel
      (ends_there.mono (Nat.le_succ _)) enough_there
    have operand := parseLevel_of_chain ends_there enough_there kept reached
    have words := begins.length_pos
    exact ⟨fuel, by omega, parseLevel_binary (front l (by omega) rest) binary operand⟩

/-- What is read at a level is read at every looser one. -/
theorem Reads.of_level (top : Level) (top_most : ∀ l : Level, l.rank ≤ rank → l.rank ≤ top.rank)
    (le : top.rank ≤ rank) (begins : Begins ts) (unassigned : .sign .assign ∉ ts)
    (front : ∀ l : Level, l.rank < rank → ∀ rest, l.front? (ts ++ rest) = none)
    (top_chain : Arrives top ts e) (suffixes : rank = postfixRank → TakesSuffixes ts e) :
    Reads rank ts e := by
  have chain : ∀ l : Level, l.rank ≤ rank → Arrives l ts e := by
    intro l hl
    have looser := top_most l hl
    exact .descend begins (fun k hk => front k (by omega)) top_chain (top.rank - l.rank) l
      (by omega)
  refine ⟨begins, unassigned, front, chain, suffixes, ?_⟩
  intro rest fuel closes enough
  obtain ⟨fuel, rfl, left⟩ := enough.exists_succ (Nat.zero_le 8)
  have loosest : Level.or.rank ≤ top.rank := top.rank_pos
  have enough_there : Enough ts Level.or.rank fuel := Nat.succ_le_succ left
  obtain ⟨m, kept, reached⟩ := chain .or (by omega) rest fuel (closes.ends _) enough_there
  have value := parseLevel_of_chain (closes.ends _) enough_there kept reached
  refine parseConditional_value value ?_
  rintro more rfl
  rcases closes with closes | ⟨s, others, closes, _⟩ <;> cases closes

/-! ## §4 Primaries and suffixes -/

/-- What goes on with suffixes is read at every level. -/
theorem Reads.of_suffixes (begins : Begins ts) (unassigned : .sign .assign ∉ ts)
    (front : ∀ l : Level, ∀ rest, l.front? (ts ++ rest) = none)
    (suffixes : TakesSuffixes ts e) : Reads postfixRank ts e := by
  refine .of_level .unary (fun l _ => l.rank_le) (by decide) begins unassigned
    (fun l _ => front l) ?_ fun _ => suffixes
  intro rest fuel ends enough
  have closed : ∀ more, rest ≠ .sign .openParen :: more :=
    fun more same => ends.suffix _ _ same (by decide)
  obtain ⟨m, kept, reached⟩ := suffixes rest fuel closed enough
  obtain ⟨fuel, rfl, left⟩ := enough.exists_succ (Level.rank_le _)
  obtain ⟨m, rfl⟩ : ∃ k, m = k + 1 := ⟨m - 1, by simp only [Level.rank] at left; omega⟩
  refine ⟨m + 1, kept, ?_⟩
  rw [reached, parseSuffixes_end ends, parseChain_end rfl]

/-- A primary is read at every level. -/
theorem Reads.of_primary (begins : Begins ts) (unassigned : .sign .assign ∉ ts)
    (front : ∀ l : Level, ∀ rest, l.front? (ts ++ rest) = none)
    (primary : ∀ rest fuel, 12 * ts.length ≤ fuel →
      parsePrimary (fuel + 1) (ts ++ rest) = .ok (e, rest)) : Reads postfixRank ts e := by
  refine .of_suffixes begins unassigned front ?_
  intro rest fuel _ enough
  obtain ⟨fuel, rfl, left⟩ := enough.exists_succ (Level.rank_le _)
  simp only [Level.rank] at left
  obtain ⟨fuel, rfl⟩ : ∃ k, fuel = k + 1 := ⟨fuel - 1, by omega⟩
  have words := begins.length_pos
  exact ⟨fuel + 1, by omega, parseLevel_unary (front _ rest) (primary rest fuel (by omega))⟩

/-- A suffix behind an expression that takes suffixes. -/
theorem Reads.with_suffix {base : Expr} {s : Sign} {behind : List Token}
    (h : Reads postfixRank ts base) (opens : s ≠ .openParen ∧ s ≠ .assign)
    (unassigned : .sign .assign ∉ behind)
    (step : ∀ rest fuel, (∀ more, rest ≠ .sign .openParen :: more) → 12 * behind.length ≤ fuel →
      parseSuffixes (fuel + 1) base (.sign s :: (behind ++ rest)) = parseSuffixes fuel e rest) :
    Reads postfixRank (ts ++ .sign s :: behind) e := by
  have joined : ∀ rest, (ts ++ .sign s :: behind) ++ rest = ts ++ .sign s :: (behind ++ rest) := by
    intro rest
    rw [List.append_assoc, List.cons_append]
  refine .of_suffixes (h.begins.append _) ?_ ?_ ?_
  · simp only [List.mem_append, List.mem_cons, Token.sign.injEq, not_or]
    exact ⟨h.unassigned, opens.2.symm, unassigned⟩
  · intro l rest
    rw [joined]
    exact h.front l (Nat.lt_succ_of_le l.rank_le) _
  · intro rest fuel closed enough
    unfold Enough at enough
    rw [List.length_append, List.length_cons] at enough ⊢
    obtain ⟨m, kept, reached⟩ := h.suffixes rfl (.sign s :: (behind ++ rest)) fuel
      (fun more same => by cases same; exact opens.1 rfl) (by unfold Enough; omega)
    simp only [Level.rank] at enough
    obtain ⟨m, rfl⟩ : ∃ k, m = k + 1 := ⟨m - 1, by omega⟩
    refine ⟨m, by omega, ?_⟩
    rw [joined, reached, step rest m closed (by omega)]

theorem expectSign_same (s : Sign) (rest : List Token) :
    expectSign s (.sign s :: rest) = .ok rest := by
  rw [expectSign, if_pos rfl]

/-- An expression in parentheses. -/
theorem Reads.in_parens (h : Reads rank ts e) : Reads postfixRank (inParens ts) e := by
  refine .of_primary ⟨_, _, rfl, by decide, by decide⟩ ?_ ?_ ?_
  · simp [inParens, h.unassigned]
  · intro l rest
    cases l <;> rfl
  · intro rest fuel enough
    have inside : inParens ts ++ rest = .sign .openParen :: (ts ++ .sign .closeParen :: rest) := by
      simp [inParens]
    have length : (inParens ts).length = ts.length + 2 := by simp [inParens]
    have whole := h.whole (.sign .closeParen :: rest) fuel (Or.inr ⟨_, _, rfl, by decide⟩)
      (by unfold Enough; omega)
    rw [inside]
    simp only [parsePrimary, whole]
    simp only [bind, Except.bind, expectSign_same]

/-- An operand in its place. -/
theorem Reads.operand (h : Reads rank ts e) (least : Nat) (le : least ≤ postfixRank) :
    ∃ r, least ≤ r ∧ Reads r (operand least rank ts) e := by
  unfold Tabletop.operand
  by_cases tight : rank < least
  · rw [if_pos tight]
    exact ⟨postfixRank, le, h.in_parens⟩
  · rw [if_neg tight]
    exact ⟨rank, Nat.le_of_not_lt tight, h⟩

/-- The operand of a suffix. -/
theorem Reads.base (h : Reads rank ts e) (le : rank ≤ postfixRank) :
    Reads postfixRank (Tabletop.operand postfixRank rank ts) e := by
  unfold Tabletop.operand
  by_cases tight : rank < postfixRank
  · rw [if_pos tight]
    exact h.in_parens
  · rw [if_neg tight]
    rwa [Nat.le_antisymm le (Nat.le_of_not_lt tight)] at h

/-! ## §5 Operators -/

/-- An operator in front of an operand of its level. -/
theorem Reads.behind_operator {op : Token} {wrap : Expr → Expr} (h : Reads rank ts e)
    (le : l.rank ≤ rank) (front : ∀ more, l.front? (op :: more) = some (wrap, more))
    (looser : ∀ k : Level, k.rank < l.rank → ∀ more, k.front? (op :: more) = none)
    (alone : ∀ more, l.operator? more = none)
    (open_sign : op ≠ .sign .closeParen ∧ op ≠ .sign .closeBracket ∧ op ≠ .sign .assign) :
    Reads l.rank (op :: ts) (wrap e) := by
  refine .of_level l (fun _ le => le) (Nat.le_refl _)
    ⟨op, ts, rfl, open_sign.1, open_sign.2.1⟩ ?_ (fun k hk rest => looser k hk _) ?_ ?_
  · rw [List.mem_cons, not_or]
    exact ⟨open_sign.2.2.symm, h.unassigned⟩
  · intro rest fuel ends enough
    obtain ⟨fuel, rfl, left⟩ := enough.exists_succ l.rank_le
    rw [List.length_cons] at left ⊢
    have here : Ends l.rank rest := by
      refine ⟨?_, ends.suffix⟩
      intro k hk
      rcases Nat.eq_or_lt_of_le hk with same | tighter
      · rw [← Level.eq_of_rank same]
        exact alone rest
      · exact ends.operator k tighter
    have inner := h.level le here (by unfold Enough; omega : Enough ts l.rank fuel)
    refine ⟨fuel, by omega, ?_⟩
    have highest := l.rank_le
    obtain ⟨fuel, rfl⟩ : ∃ k, fuel = k + 1 := ⟨fuel - 1, by omega⟩
    rw [List.cons_append, parseLevel_front (front _) inner, parseChain_end (alone rest)]
  · exact fun top => absurd top l.rank_ne_postfixRank

/-- An operator between operands, the right one of a tighter level. -/
theorem Reads.between {r₁ r₂ : Nat} {ts₁ ts₂ : List Token} {e₁ e₂ : Expr}
    {combine : Expr → Expr → Expr} (h₁ : Reads r₁ ts₁ e₁) (op : List Token) (le₁ : l.rank ≤ r₁)
    (h₂ : Reads r₂ ts₂ e₂) (le₂ : l.rank + 1 ≤ r₂) (binary : l ≠ .unary)
    (operator : ∀ more, l.operator? (op ++ more) = some (combine, more))
    (unassigned : .sign .assign ∉ op) (nonempty : 1 ≤ op.length) :
    Reads l.rank (ts₁ ++ (op ++ ts₂)) (combine e₁ e₂) := by
  have joined : ∀ rest, (ts₁ ++ (op ++ ts₂)) ++ rest = ts₁ ++ (op ++ (ts₂ ++ rest)) := by
    intro rest
    rw [List.append_assoc, List.append_assoc]
  refine .of_level l (fun _ le => le) (Nat.le_refl _) (h₁.begins.append _) ?_ ?_ ?_ ?_
  · simp only [List.mem_append, not_or]
    exact ⟨h₁.unassigned, unassigned, h₂.unassigned⟩
  · intro k hk rest
    rw [joined]
    exact h₁.front k (Nat.lt_of_lt_of_le hk le₁) _
  · intro rest fuel ends enough
    have highest := l.rank_le
    unfold Enough at enough
    rw [List.length_append, List.length_append] at enough ⊢
    obtain ⟨m, kept, reached⟩ := h₁.chain l le₁ (op ++ (ts₂ ++ rest)) fuel
      (ends_of_operator (operator _)) (by unfold Enough; omega)
    obtain ⟨m, rfl⟩ : ∃ k, m = k + 1 := ⟨m - 1, by omega⟩
    have next := Level.rank_tighter binary
    have right := h₂.level (l := l.tighter) (by omega) (by rwa [next])
      (by unfold Enough; omega : Enough ts₂ l.tighter.rank m)
    refine ⟨m, by omega, ?_⟩
    rw [joined, reached, parseChain_step (operator _) right]
  · exact fun top => absurd top l.rank_ne_postfixRank

/-! ## §6 Conditionals and lists -/

/-- A conditional is read where no level is asked for. -/
theorem Reads.of_conditional
    (begins : Begins ts) (unassigned : .sign .assign ∉ ts)
    (whole : ∀ rest fuel, Closes rest → Enough ts 0 fuel →
      parseConditional fuel (ts ++ rest) = .ok (e, rest)) : Reads 0 ts e where
  begins := begins
  unassigned := unassigned
  front l hl := absurd hl (Nat.not_lt_zero _)
  chain l hl := absurd (Nat.le_trans l.rank_pos hl) (by decide)
  suffixes := nofun
  whole := whole

theorem Closes.ne_name {name : String} {more : List Token} (h : Closes rest) :
    rest ≠ .name name :: more := by
  rintro rfl
  rcases h with h | ⟨s, others, h, _⟩ <;> cases h

/-- A value with a condition. -/
theorem Reads.guarded {r₁ r₂ : Nat} {ts₁ ts₂ : List Token} {value condition : Expr}
    (h₁ : Reads r₁ ts₁ value) (le₁ : 1 ≤ r₁) (h₂ : Reads r₂ ts₂ condition) (le₂ : 1 ≤ r₂) :
    Reads 0 (ts₁ ++ .name "if" :: ts₂) (.guarded value condition) := by
  refine .of_conditional (h₁.begins.append _) ?_ ?_
  · simp [h₁.unassigned, h₂.unassigned]
  · intro rest fuel closes enough
    obtain ⟨fuel, rfl, left⟩ := enough.exists_succ (Nat.zero_le 8)
    rw [List.length_append, List.length_cons] at left
    have first := h₁.level (l := .or) le₁ (ends_of_conditional (Or.inl rfl) (ts₂ ++ rest))
      (by unfold Enough; omega : Enough ts₁ 1 fuel)
    have second := h₂.level (l := .or) le₂ (closes.ends 1)
      (by unfold Enough; omega : Enough ts₂ 1 fuel)
    rw [List.append_assoc, List.cons_append]
    exact parseConditional_guarded first second fun _ => closes.ne_name

/-- A value with a condition and another value. -/
theorem Reads.choice {r₁ r₂ r₃ : Nat} {ts₁ ts₂ ts₃ : List Token}
    {value condition otherwise : Expr} (h₁ : Reads r₁ ts₁ value) (le₁ : 1 ≤ r₁)
    (h₂ : Reads r₂ ts₂ condition) (le₂ : 1 ≤ r₂) (h₃ : Reads r₃ ts₃ otherwise) :
    Reads 0 (ts₁ ++ .name "if" :: (ts₂ ++ .name "else" :: ts₃))
      (.choice value condition otherwise) := by
  refine .of_conditional (h₁.begins.append _) ?_ ?_
  · simp [h₁.unassigned, h₂.unassigned, h₃.unassigned]
  · intro rest fuel closes enough
    obtain ⟨fuel, rfl, left⟩ := enough.exists_succ (Nat.zero_le 8)
    rw [List.length_append, List.length_cons, List.length_append, List.length_cons] at left
    have first := h₁.level (l := .or) le₁
      (ends_of_conditional (Or.inl rfl) (ts₂ ++ .name "else" :: (ts₃ ++ rest)))
      (by unfold Enough; omega : Enough ts₁ 1 fuel)
    have second := h₂.level (l := .or) le₂ (ends_of_conditional (Or.inr rfl) (ts₃ ++ rest))
      (by unfold Enough; omega : Enough ts₂ 1 fuel)
    have third := h₃.whole rest fuel closes (by unfold Enough; omega)
    rw [List.append_assoc, List.cons_append, List.append_assoc, List.cons_append]
    exact parseConditional_choice first second third

/-- The words of the expressions are read as them. -/
def AllRead (items : List Expr) : Prop := ∀ e ∈ items, Reads e.rank e.words e

/-- No argument is named. -/
theorem dropKeyword_of_unassigned (unassigned : .sign .assign ∉ ts)
    (begins : Begins ts) (closes : Closes rest) : dropKeyword (ts ++ rest) = ts ++ rest := by
  obtain ⟨t, more, rfl, _⟩ := begins
  unfold dropKeyword
  split
  · rename_i name after same
    exfalso
    cases more with
    | nil =>
      rw [List.singleton_append, List.cons.injEq] at same
      rcases closes with rfl | ⟨s, others, rfl, hs⟩
      · cases same.2
      · rw [List.cons.injEq, Token.sign.injEq] at same
        rw [same.2.1] at hs
        exact absurd hs (by decide)
    | cons second more =>
      rw [List.cons_append, List.cons_append, List.cons.injEq, List.cons.injEq] at same
      rw [same.2.1] at unassigned
      exact unassigned (by simp)
  · rfl

/-- The sign closes arguments or items. -/
def Sign.IsClosing (s : Sign) : Prop := s = .closeParen ∨ s = .closeBracket

theorem Sign.IsClosing.closes {s : Sign} (h : s.IsClosing) (rest : List Token) :
    Closes (.sign s :: rest) := by
  rcases h with rfl | rfl <;> exact Or.inr ⟨_, _, rfl, by decide⟩

theorem expectSign_of_comma {s : Sign} (h : s.IsClosing) (rest : List Token) :
    ∃ fault, expectSign s (.sign .comma :: rest) = .error fault := by
  refine ⟨.expectedSign s (some (.sign .comma)), ?_⟩
  rcases h with rfl | rfl <;> rfl

/-- Expressions with commas between them are read up to the closing sign. -/
theorem parseMoreArguments_words {closing : Sign} (hc : closing.IsClosing) :
    ∀ {items : List Expr}, items ≠ [] → AllRead items → ∀ (rest : List Token) (fuel : Nat),
      12 * (listWords items).length + 11 ≤ fuel →
        parseMoreArguments fuel closing (listWords items ++ .sign closing :: rest)
          = .ok (items, rest)
  | [], nonempty, _, _, _, _ => absurd rfl nonempty
  | [e], _, read, rest, fuel, enough => by
    have h := read e List.mem_cons_self
    obtain ⟨fuel, rfl⟩ : ∃ k, fuel = k + 1 := ⟨fuel - 1, by omega⟩
    simp only [listWords] at enough ⊢
    have argument := h.whole (.sign closing :: rest) fuel (hc.closes rest)
      (by unfold Enough; omega)
    simp only [parseMoreArguments, bind, Except.bind, expectSign_same, argument,
      dropKeyword_of_unassigned h.unassigned h.begins (hc.closes rest)]
  | e :: next :: items, _, read, rest, fuel, enough => by
    have h := read e List.mem_cons_self
    obtain ⟨fuel, rfl⟩ : ∃ k, fuel = k + 1 := ⟨fuel - 1, by omega⟩
    rw [listWords, List.length_append, List.length_cons] at enough
    rw [listWords, List.append_assoc, List.cons_append]
    generalize after : listWords (next :: items) ++ .sign closing :: rest = more
    have comma : Closes (.sign .comma :: more) := Or.inr ⟨_, _, rfl, by decide⟩
    have argument := h.whole (.sign .comma :: more) fuel comma (by unfold Enough; omega)
    have others : parseMoreArguments fuel closing more = .ok (next :: items, rest) := by
      rw [← after]
      exact parseMoreArguments_words hc (List.cons_ne_nil _ _)
        (fun x hx => read x (List.mem_cons_of_mem _ hx)) rest fuel (by omega)
    obtain ⟨fault, goes_on⟩ := expectSign_of_comma hc more
    simp only [parseMoreArguments, bind, Except.bind, argument, goes_on, expectSign_same, others,
      dropKeyword_of_unassigned h.unassigned h.begins comma]

theorem begins_listWords {items : List Expr} (nonempty : items ≠ []) (read : AllRead items) :
    Begins (listWords items) := by
  match items with
  | [] => exact absurd rfl nonempty
  | [e] => exact (read e List.mem_cons_self).begins
  | e :: next :: items =>
    rw [listWords]
    exact (read e List.mem_cons_self).begins.append _

theorem parseArguments_words {closing : Sign} (hc : closing.IsClosing) {items : List Expr}
    (read : AllRead items) (rest : List Token) (fuel : Nat)
    (enough : 12 * (listWords items).length + 12 ≤ fuel) :
    parseArguments fuel closing (listWords items ++ .sign closing :: rest) = .ok (items, rest) := by
  obtain ⟨fuel, rfl⟩ : ∃ k, fuel = k + 1 := ⟨fuel - 1, by omega⟩
  by_cases empty : items = []
  · subst empty
    simp only [listWords, List.nil_append, parseArguments, expectSign_same]
  · have others := parseMoreArguments_words hc empty read rest fuel (by omega)
    obtain ⟨t, more, words, not_paren, not_bracket⟩ := begins_listWords empty read
    have opens : ∀ after, expectSign closing (t :: after)
        = .error (.expectedSign closing (some t)) := by
      intro after
      rw [expectSign, if_neg]
      rcases hc with rfl | rfl
      · exact not_paren
      · exact not_bracket
    rw [words] at others ⊢
    simp only [parseArguments, List.cons_append, opens] at others ⊢
    exact others

theorem unassigned_listWords : ∀ {items : List Expr}, AllRead items →
    .sign .assign ∉ listWords items
  | [], _ => by simp [listWords]
  | [e], read => (read e List.mem_cons_self).unassigned
  | e :: next :: items, read => by
    have others := unassigned_listWords fun x hx => read x (List.mem_cons_of_mem _ hx)
    simp [listWords, (read e List.mem_cons_self).unassigned, others]

/-! ## §7 Expressions -/

theorem Expr.rank_le (e : Expr) : e.rank ≤ postfixRank := by
  cases e with
  | binary op left right => exact Nat.le_succ_of_le op.level.rank_le
  | _ => simp [Expr.rank, Level.rank, postfixRank]

theorem ofName_variable {name : String} (h : isVariableName name = true) :
    Expr.ofName name = .variable name := by
  unfold isVariableName at h
  rw [Bool.and_eq_true, Bool.not_eq_true', literalWords] at h
  have other := h.2
  simp only [List.contains_cons, List.contains_nil, Bool.or_false, Bool.or_eq_false_iff,
    beq_eq_false_iff_ne] at other
  obtain ⟨not_true, not_false, not_none, not_null⟩ := other
  simp only [Expr.ofName, not_true, not_false, not_none, not_null, if_false, decide_false,
    Bool.or_self, Bool.false_eq_true]

/-- A name that is no operator in front is read as a primary. -/
theorem Reads.of_name {name : String} (not_front : name ≠ "not") {e : Expr}
    (read : Expr.ofName name = e) : Reads postfixRank [.name name] e := by
  refine .of_primary ⟨_, _, rfl, nofun, nofun⟩ (by simp) ?_ ?_
  · intro l rest
    cases l with
    | not => simp [Level.front?, not_front]
    | _ => rfl
  · intro rest fuel _
    simp only [List.singleton_append, parsePrimary, read]

theorem reads_literal {value : Literal} (h : (Expr.literal value).isPrintable = true) :
    Reads postfixRank [value.word] (.literal value) := by
  cases value with
  | null => exact .of_name (by decide) (by rfl)
  | bool flag => cases flag <;> exact .of_name (by decide) (by rfl)
  | float x => simp [Expr.isPrintable] at h
  | int n =>
    refine .of_primary ⟨_, _, rfl, nofun, nofun⟩ (by simp [Literal.word]) ?_ ?_
    · intro l rest
      cases l <;> rfl
    · intro rest fuel _
      simp only [Literal.word, List.singleton_append, parsePrimary]
  | text s =>
    refine .of_primary ⟨_, _, rfl, nofun, nofun⟩ (by simp [Literal.word]) ?_ ?_
    · intro l rest
      cases l <;> rfl
    · intro rest fuel _
      simp only [Literal.word, List.singleton_append, parsePrimary]

/-- The name of an attribute is read as it was, whether as a name or as a number. -/
theorem attributeWord_cases {name : String}
    (h : (isIdentifier name || isPosition name) = true) :
    attributeWord name = .name name ∧ isIdentifier name = true
      ∨ ∃ n : Nat, attributeWord name = .int n ∧ natText n = name ∧ fitsInt64 n = true := by
  rw [Bool.or_eq_true] at h
  rcases h with identifier | position
  · refine Or.inl ⟨?_, identifier⟩
    have no_number : readDigits name.toList = none := by
      obtain ⟨c, tail, hs, starts, _⟩ := isIdentifier_cases identifier
      have not_digit := isDigit_of_startsName starts
      simp [readDigits, hs, not_digit]
    rw [attributeWord, no_number]
  · unfold isPosition at position
    rw [Option.any_eq_true] at position
    obtain ⟨n, number, canonical⟩ := position
    rw [Bool.and_eq_true, beq_iff_eq] at canonical
    exact Or.inr ⟨n, by rw [attributeWord, number], canonical.2, canonical.1⟩

theorem Reads.attribute {ts : List Token} {base : Expr} {name : String}
    (h : Reads postfixRank ts base) (named : (isIdentifier name || isPosition name) = true) :
    Reads postfixRank (ts ++ [.sign .dot, attributeWord name]) (.attribute base name) := by
  rcases attributeWord_cases named with ⟨word, _⟩ | ⟨n, word, text, _⟩
  · rw [word]
    refine h.with_suffix (by decide) (by simp) ?_
    intro rest fuel _ _
    simp only [List.singleton_append, parseSuffixes]
  · rw [word]
    refine h.with_suffix (by decide) (by simp) ?_
    intro rest fuel _ _
    simp only [List.singleton_append, parseSuffixes, text]

theorem Reads.index {rank : Nat} {ts ts' : List Token} {base position : Expr}
    (h : Reads postfixRank ts base) (h' : Reads rank ts' position) :
    Reads postfixRank (ts ++ inBrackets ts') (.index base position) := by
  refine h.with_suffix (by decide) (by simp [h'.unassigned]) ?_
  intro rest fuel _ enough
  rw [List.length_append, List.length_singleton] at enough
  have inside := h'.whole (.sign .closeBracket :: rest) fuel (Or.inr ⟨_, _, rfl, by decide⟩)
    (by unfold Enough; omega)
  rw [List.append_assoc, List.singleton_append]
  simp only [parseSuffixes, inside, bind, Except.bind, expectSign_same]

theorem Reads.filter {ts : List Token} {target : Expr} (h : Reads postfixRank ts target)
    (name : String) {arguments : List Expr} (read : AllRead arguments) :
    Reads postfixRank (ts ++ .sign .bar :: .name name ::
      (if arguments.isEmpty then [] else inParens (listWords arguments)))
      (.filter target name arguments) := by
  cases arguments with
  | nil =>
    refine h.with_suffix (by decide) (by simp) ?_
    intro rest fuel closed _
    rw [List.isEmpty_nil, if_pos rfl, List.singleton_append]
    simp only [parseSuffixes]
  | cons e items =>
    have unassigned := unassigned_listWords read
    refine h.with_suffix (by decide) (by simp [inParens, unassigned]) ?_
    intro rest fuel _ enough
    simp only [List.isEmpty_cons, Bool.false_eq_true, if_false, List.length_cons, inParens,
      List.length_append, List.length_nil, List.cons_append, List.append_assoc, List.nil_append]
      at enough ⊢
    have inside := parseArguments_words (Or.inl rfl) read rest fuel (by omega)
    simp only [parseSuffixes, inside, bind, Except.bind]

theorem reads_list {items : List Expr} (read : AllRead items) :
    Reads postfixRank (inBrackets (listWords items)) (.list items) := by
  refine .of_primary ⟨_, _, rfl, nofun, nofun⟩ ?_ ?_ ?_
  · simp [inBrackets, unassigned_listWords read]
  · intro l rest
    cases l <;> rfl
  · intro rest fuel enough
    simp only [inBrackets, List.length_cons, List.length_append, List.length_nil, List.cons_append,
      List.append_assoc, List.nil_append] at enough ⊢
    have inside := parseArguments_words (Or.inr rfl) read rest fuel (by omega)
    simp only [parsePrimary, inside, bind, Except.bind]

/-- The words of an operator are found at its level. -/
theorem operator?_words (op : BinaryOp) (more : List Token) :
    op.level.operator? (op.words ++ more) = some (.binary op, more) := by
  cases op <;> rfl

theorem unassigned_words (op : BinaryOp) : .sign .assign ∉ op.words := by
  cases op <;> simp [BinaryOp.words]

mutual

/-- The words of an expression are read as it, at its rank. -/
theorem reads_words : (e : Expr) → e.isPrintable = true → Reads e.rank e.words e
  | .literal value, h => by
    rw [Expr.words]
    exact reads_literal h
  | .list items, h => by
    rw [Expr.isPrintable] at h
    rw [Expr.words]
    exact reads_list (reads_items items h)
  | .variable name, h => by
    rw [Expr.isPrintable] at h
    rw [Expr.words]
    have not_front : name ≠ "not" := by
      rintro rfl
      revert h
      decide
    exact .of_name not_front (ofName_variable h)
  | .attribute base name, h => by
    rw [Expr.isPrintable, Bool.and_eq_true] at h
    rw [Expr.words]
    exact ((reads_words base h.1).base base.rank_le).attribute h.2
  | .index base position, h => by
    rw [Expr.isPrintable, Bool.and_eq_true] at h
    rw [Expr.words]
    exact ((reads_words base h.1).base base.rank_le).index (reads_words position h.2)
  | .filter target name arguments, h => by
    rw [Expr.isPrintable, Bool.and_eq_true, Bool.and_eq_true] at h
    rw [Expr.words]
    exact ((reads_words target h.1.1).base target.rank_le).filter name (reads_items arguments h.2)
  | .not inner, h => by
    rw [Expr.isPrintable] at h
    rw [Expr.words]
    obtain ⟨r, le, operand⟩ := (reads_words inner h).operand Level.not.rank (by decide)
    refine operand.behind_operator le (fun _ => rfl) ?_ (fun _ => rfl) ⟨nofun, nofun, nofun⟩
    intro k hk more
    cases k <;> first | rfl | exact absurd hk (by decide)
  | .negate inner, h => by
    rw [Expr.isPrintable] at h
    rw [Expr.words]
    obtain ⟨r, le, operand⟩ := (reads_words inner h).operand Level.unary.rank (by decide)
    refine operand.behind_operator le (fun _ => rfl) ?_ (fun _ => rfl)
      ⟨by decide, by decide, by decide⟩
    intro k hk more
    cases k <;> first | rfl | exact absurd hk (by decide)
  | .and left right, h => by
    rw [Expr.isPrintable, Bool.and_eq_true] at h
    rw [Expr.words]
    obtain ⟨_, le₁, h₁⟩ := (reads_words left h.1).operand Level.and.rank (by decide)
    obtain ⟨_, le₂, h₂⟩ :=
      (reads_words right h.2).operand (Level.and.rank + 1) (by decide)
    exact h₁.between [.name "and"] le₁ h₂ le₂ (by decide) (fun _ => rfl) (by simp)
      (by decide)
  | .or left right, h => by
    rw [Expr.isPrintable, Bool.and_eq_true] at h
    rw [Expr.words]
    obtain ⟨_, le₁, h₁⟩ := (reads_words left h.1).operand Level.or.rank (by decide)
    obtain ⟨_, le₂, h₂⟩ :=
      (reads_words right h.2).operand (Level.or.rank + 1) (by decide)
    exact h₁.between [.name "or"] le₁ h₂ le₂ (by decide) (fun _ => rfl) (by simp)
      (by decide)
  | .binary op left right, h => by
    rw [Expr.isPrintable, Bool.and_eq_true] at h
    rw [Expr.words]
    have highest := op.level.rank_le
    obtain ⟨_, le₁, h₁⟩ := (reads_words left h.1).operand _ (Nat.le_succ_of_le highest)
    obtain ⟨_, le₂, h₂⟩ := (reads_words right h.2).operand _ (Nat.succ_le_succ highest)
    exact h₁.between op.words le₁ h₂ le₂ (by cases op <;> decide) (operator?_words op)
      (unassigned_words op) (by cases op <;> decide)
  | .guarded value condition, h => by
    rw [Expr.isPrintable, Bool.and_eq_true] at h
    rw [Expr.words]
    obtain ⟨_, le₁, h₁⟩ := (reads_words value h.1).operand Level.or.rank (by decide)
    obtain ⟨_, le₂, h₂⟩ := (reads_words condition h.2).operand Level.or.rank (by decide)
    exact h₁.guarded le₁ h₂ le₂
  | .choice value condition otherwise, h => by
    rw [Expr.isPrintable, Bool.and_eq_true, Bool.and_eq_true] at h
    rw [Expr.words]
    obtain ⟨_, le₁, h₁⟩ := (reads_words value h.1.1).operand Level.or.rank (by decide)
    obtain ⟨_, le₂, h₂⟩ :=
      (reads_words condition h.1.2).operand Level.or.rank (by decide)
    exact h₁.choice le₁ h₂ le₂ (reads_words otherwise h.2)

theorem reads_items : (items : List Expr) → arePrintable items = true → AllRead items
  | [], _ => fun _ h => absurd h List.not_mem_nil
  | e :: rest, h => by
    rw [arePrintable, Bool.and_eq_true] at h
    intro x hx
    rcases List.mem_cons.mp hx with same | hx
    · rw [same]
      exact reads_words e h.1
    · exact reads_items rest h.2 x hx

end

/-! ## §8 Texts -/

theorem legible_operand {least rank : Nat} {ts : List Token}
    (h : ∀ t ∈ ts, t.isLegible = true) : ∀ t ∈ operand least rank ts, t.isLegible = true := by
  intro t ht
  unfold operand inParens at ht
  split at ht
  · simp only [List.mem_cons, List.mem_append, List.not_mem_nil, or_false] at ht
    rcases ht with rfl | ht | rfl
    · rfl
    · exact h t ht
    · rfl
  · exact h t ht

theorem legible_attributeWord {name : String}
    (h : (isIdentifier name || isPosition name) = true) :
    (attributeWord name).isLegible = true := by
  rcases attributeWord_cases h with ⟨word, identifier⟩ | ⟨n, word, _, fits⟩
  · rw [word]
    exact identifier
  · rw [word]
    exact fits

theorem legible_literal {value : Literal} (h : (Expr.literal value).isPrintable = true) :
    value.word.isLegible = true := by
  cases value with
  | null => decide
  | bool flag => cases flag <;> decide
  | int n => simpa [Expr.isPrintable, Literal.word, Token.isLegible] using h
  | float x => simp [Expr.isPrintable] at h
  | text s => rfl

theorem legible_op (op : BinaryOp) : ∀ t ∈ op.words, t.isLegible = true := by
  cases op <;> decide

/-- Words are legible if those are that they are put together from. -/
theorem legible_append {few more : List Token} (h : ∀ t ∈ few, t.isLegible = true)
    (h' : ∀ t ∈ more, t.isLegible = true) : ∀ t ∈ few ++ more, t.isLegible = true := by
  intro t ht
  rcases List.mem_append.mp ht with ht | ht
  · exact h t ht
  · exact h' t ht

theorem legible_cons {t : Token} {more : List Token} (h : t.isLegible = true)
    (h' : ∀ t ∈ more, t.isLegible = true) : ∀ u ∈ t :: more, u.isLegible = true :=
  List.forall_mem_cons.mpr ⟨h, h'⟩

theorem legible_nil : ∀ t ∈ ([] : List Token), t.isLegible = true :=
  fun _ h => absurd h List.not_mem_nil

mutual

theorem legible_words : (e : Expr) → e.isPrintable = true → ∀ t ∈ e.words, t.isLegible = true
  | .literal value, h => by
    rw [Expr.words]
    exact legible_cons (legible_literal h) legible_nil
  | .list items, h => by
    rw [Expr.isPrintable] at h
    rw [Expr.words]
    exact legible_cons rfl
      (legible_append (legible_listWords items h) (legible_cons rfl legible_nil))
  | .variable name, h => by
    rw [Expr.isPrintable, isVariableName, Bool.and_eq_true, Bool.and_eq_true] at h
    rw [Expr.words]
    exact legible_cons h.1.1 legible_nil
  | .attribute base name, h => by
    rw [Expr.isPrintable, Bool.and_eq_true] at h
    rw [Expr.words]
    exact legible_append (legible_operand (legible_words base h.1))
      (legible_cons rfl (legible_cons (legible_attributeWord h.2) legible_nil))
  | .index base position, h => by
    rw [Expr.isPrintable, Bool.and_eq_true] at h
    rw [Expr.words]
    exact legible_append (legible_operand (legible_words base h.1))
      (legible_cons rfl
        (legible_append (legible_words position h.2) (legible_cons rfl legible_nil)))
  | .filter target name arguments, h => by
    rw [Expr.isPrintable, Bool.and_eq_true, Bool.and_eq_true] at h
    rw [Expr.words]
    refine legible_append (legible_operand (legible_words target h.1.1))
      (legible_cons rfl (legible_cons h.1.2 ?_))
    split
    · exact legible_nil
    · exact legible_cons rfl
        (legible_append (legible_listWords arguments h.2) (legible_cons rfl legible_nil))
  | .not inner, h => by
    rw [Expr.isPrintable] at h
    rw [Expr.words]
    exact legible_cons (by decide) (legible_operand (legible_words inner h))
  | .negate inner, h => by
    rw [Expr.isPrintable] at h
    rw [Expr.words]
    exact legible_cons rfl (legible_operand (legible_words inner h))
  | .and left right, h => by
    rw [Expr.isPrintable, Bool.and_eq_true] at h
    rw [Expr.words]
    exact legible_append (legible_operand (legible_words left h.1))
      (legible_cons (by decide) (legible_operand (legible_words right h.2)))
  | .or left right, h => by
    rw [Expr.isPrintable, Bool.and_eq_true] at h
    rw [Expr.words]
    exact legible_append (legible_operand (legible_words left h.1))
      (legible_cons (by decide) (legible_operand (legible_words right h.2)))
  | .binary op left right, h => by
    rw [Expr.isPrintable, Bool.and_eq_true] at h
    rw [Expr.words]
    exact legible_append (legible_operand (legible_words left h.1))
      (legible_append (legible_op op) (legible_operand (legible_words right h.2)))
  | .guarded value condition, h => by
    rw [Expr.isPrintable, Bool.and_eq_true] at h
    rw [Expr.words]
    exact legible_append (legible_operand (legible_words value h.1))
      (legible_cons (by decide) (legible_operand (legible_words condition h.2)))
  | .choice value condition otherwise, h => by
    rw [Expr.isPrintable, Bool.and_eq_true, Bool.and_eq_true] at h
    rw [Expr.words]
    exact legible_append (legible_operand (legible_words value h.1.1))
      (legible_cons (by decide) (legible_append (legible_operand (legible_words condition h.1.2))
        (legible_cons (by decide) (legible_words otherwise h.2))))

theorem legible_listWords : (items : List Expr) → arePrintable items = true →
    ∀ t ∈ listWords items, t.isLegible = true
  | [], _ => by
    rw [listWords]
    exact legible_nil
  | [e], h => by
    rw [arePrintable, Bool.and_eq_true] at h
    rw [listWords]
    exact legible_words e h.1
  | e :: next :: rest, h => by
    rw [arePrintable, Bool.and_eq_true] at h
    rw [listWords]
    exact legible_append (legible_words e h.1)
      (legible_cons rfl (legible_listWords (next :: rest) h.2))

end

/-- Parsing undoes printing: an expression without decimals, with numbers in range and names that
can be names, is read back from its text, in quotes of either kind. -/
theorem parse_printed {quote : Char} (hq : opensQuote quote = true) {e : Expr}
    (printable : e.isPrintable = true) : Expr.parse (e.printed quote).toList = .ok e := by
  have read := reads_words e printable
  obtain ⟨t, more, words, _⟩ := read.begins
  have nonempty : e.words.isEmpty = false := by rw [words]; rfl
  have whole : parseConditional (parseFuel e.words.length) (e.words ++ []) = .ok (e, []) :=
    read.whole [] _ (Or.inl rfl) (by unfold Enough parseFuel; omega)
  rw [List.append_nil] at whole
  rw [Expr.parse, Expr.printed, String.toList_ofList, tokens_spell hq (legible_words e printable)]
  simp only [Expr.ofTokens, nonempty, Bool.false_eq_true, if_false, whole, bind, Except.bind]

/-- Operands of most kinds, with parentheses where they have to stand. -/
def passesGate : Expr :=
  .choice
    (.binary .notIn (.attribute (.filter (.variable "gates") "sort" []) "0")
      (.list [.literal (.text "the king's"), .negate (.literal (.int 3))]))
    (.not (.and (.or (.variable "Open") (.literal (.bool true)))
      (.binary .less (.binary .subtract (.variable "purse")
        (.binary .subtract (.variable "toll") (.literal .null))) (.literal (.int 5)))))
    (.guarded (.index (.binary .concat (.variable "a") (.variable "b")) (.literal (.text "\n")))
      (.filter (.variable "hero") "default" [.literal (.int 0), .variable "iff"]))

theorem passesGate_reads_back :
    opensQuote '\'' = true ∧ passesGate.isPrintable = true
      ∧ passesGate.printed '\'' = "gates | sort . 0 not in [ 'the king\\'s' , - 3 ] "
        ++ "if not ( ( Open or true ) and purse - ( toll - null ) < 5 ) "
        ++ "else ( a ~ b ) [ '\\n' ] if hero | default ( 0 , iff )"
      ∧ Expr.parse (passesGate.printed '\'').toList = .ok passesGate := by
  have printable : passesGate.isPrintable = true := by decide +kernel
  exact ⟨rfl, printable, by decide +kernel, parse_printed rfl printable⟩

end Tabletop
