/-
Tabletop.Proofs.Machine.Grammar — reading an expression at positions.

The machine reads an expression with a position in the list of tokens: it
looks at the token there or behind it, and goes on one by one, also past
the end when it asks for a token that is not there. The rules call one
another as those of the grammar do, and stop without a result if they run
out of rounds. They never do, and what they read is what the grammar reads.

  §1 Tables of operators
  §2 The machine
  §3 Looking and eating
  §4 Rules
  §5 Expressions
-/
import Tabletop.Proofs.Machine.Token
import Tabletop.Proofs.Template.RoundTrip

namespace Tabletop

/-! ## §1 Tables of operators -/

/-- The binary operators of a level. -/
def Level.operators : Level → List (List Token × (Expr → Expr → Expr))
  | .or => [([.name "or"], .or), ([.sign .doubleBar], .or)]
  | .and => [([.name "and"], .and), ([.sign .doubleAnd], .and)]
  | .comparison =>
      [([.sign .equal], .binary .equal), ([.sign .notEqual], .binary .notEqual),
        ([.sign .less], .binary .less), ([.sign .lessEqual], .binary .lessEqual),
        ([.sign .greater], .binary .greater), ([.sign .greaterEqual], .binary .greaterEqual),
        ([.name "in"], .binary .isIn), ([.name "not", .name "in"], .binary .notIn)]
  | .concat => [([.sign .tilde], .binary .concat)]
  | .sum => [([.sign .plus], .binary .add), ([.sign .minus], .binary .subtract)]
  | .product =>
      [([.sign .star], .binary .multiply), ([.sign .doubleSlash], .binary .floorDivide),
        ([.sign .slash], .binary .divide), ([.sign .percent], .binary .modulo)]
  | .not => []
  | .unary => []

/-- The operators of a level that stand in front of their operand. -/
def Level.fronts : Level → List (List Token × (Expr → Expr))
  | .not => [([.name "not"], .not), ([.sign .bang], .not)]
  | .unary => [([.sign .minus], .negate), ([.sign .plus], id)]
  | .or => []
  | .and => []
  | .comparison => []
  | .concat => []
  | .sum => []
  | .product => []

/-- The first entry of a table whose words stand at the head of the tokens, and what follows
them. -/
def fitting? {β : Type} : (table : List (List Token × β)) → List Token → Option (β × List Token)
  | [], _ => none
  | (words, b) :: more, ahead =>
      if words <+: ahead then some (b, ahead.drop words.length) else fitting? more ahead

theorem operator?_eq_fitting? (l : Level) (ahead : List Token) :
    l.operator? ahead = fitting? l.operators ahead := by
  unfold Level.operator?
  split
  -- no operator stands there
  case h_20 =>
    cases l <;> simp_all [Level.operators, fitting?, List.cons_prefix_iff, eq_comm]
  all_goals simp [Level.operators, fitting?]

theorem front?_eq_fitting? (l : Level) (ahead : List Token) :
    l.front? ahead = fitting? l.fronts ahead := by
  unfold Level.front?
  split
  case h_5 =>
    cases l <;> simp_all [Level.fronts, fitting?, List.cons_prefix_iff, eq_comm]
  all_goals simp [Level.fronts, fitting?]

namespace Machine

/-! ## §2 The machine -/

/-- The position behind the words if they stand at the position. -/
def eat (ts : List Token) : (words : List Token) → (position : Nat) → Machine (Option Nat)
  | [], position => .ok (some position)
  | t :: more, position =>
      if ts[position]? = some t then do
        let next ← word (position + 1)
        eat ts more next
      else .ok none

/-- The first entry of a table whose words stand at the position, and the position behind them. -/
def choose {β : Type} (ts : List Token) :
    (table : List (List Token × β)) → (position : Nat) → Machine (Option (β × Nat))
  | [], _ => .ok none
  | (words, b) :: more, position => do
      match ← eat ts words position with
      | some next => .ok (some (b, next))
      | none => choose ts more position

/-- The token at the position, and the next position, even where there is no token. -/
def advance (ts : List Token) (position : Nat) : Machine (Option Token × Nat) := do
  let next ← word (position + 1)
  .ok (ts[position]?, next)

/-- The position behind `name =` if that stands at the position, or else the position. -/
def skipKeyword (ts : List Token) (position : Nat) : Machine Nat :=
  match ts[position]? with
  | some (.name _) => do
      let next ← word (position + 1)
      if ts[next]? = some (.sign .assign) then word (position + 2) else .ok position
  | _ => .ok position

/-- The position behind the expected sign. -/
def expect (ts : List Token) (sign : Sign) (position : Nat) : Attempt GrammarFault Nat := do
  match ← eat ts [.sign sign] position with
  | some next => pure next
  | none => throw (.expectedSign sign ts[position]?)

mutual

/-- A whole expression. -/
def conditional (ts : List Token) : (rounds : Nat) → (position : Nat) →
    Attempt GrammarFault (Expr × Nat)
  | 0, _ => liftM (throw .endless : Machine (Expr × Nat))
  | rounds + 1, position => do
      let (value, position) ← level ts rounds .or position
      match ← eat ts [.name "if"] position with
      | some position => do
          let (condition, position) ← level ts rounds .or position
          match ← eat ts [.name "else"] position with
          | some position => do
              let (otherwise, position) ← conditional ts rounds position
              pure (.choice value condition otherwise, position)
          | none => pure (.guarded value condition, position)
      | none => pure (value, position)

/-- An expression of a level. -/
def level (ts : List Token) : (rounds : Nat) → Level → (position : Nat) →
    Attempt GrammarFault (Expr × Nat)
  | 0, _, _ => liftM (throw .endless : Machine (Expr × Nat))
  | rounds + 1, l, position => do
      match ← choose ts l.fronts position with
      | some (wrap, position) => do
          let (inner, position) ← level ts rounds l position
          pure (wrap inner, position)
      | none =>
          if l = .unary then do
            let (base, position) ← primary ts rounds position
            suffixes ts rounds base position
          else do
            let (left, position) ← level ts rounds l.tighter position
            chain ts rounds l left position

/-- The operators of the level and their operands that follow `left`. -/
def chain (ts : List Token) : (rounds : Nat) → Level → (left : Expr) → (position : Nat) →
    Attempt GrammarFault (Expr × Nat)
  | 0, _, _, _ => liftM (throw .endless : Machine (Expr × Nat))
  | rounds + 1, l, left, position => do
      match ← choose ts l.operators position with
      | none => pure (left, position)
      | some (combine, position) => do
          let (right, position) ← level ts rounds l.tighter position
          chain ts rounds l (combine left right) position

/-- The attributes, positions and filters that follow `base`. -/
def suffixes (ts : List Token) : (rounds : Nat) → (base : Expr) → (position : Nat) →
    Attempt GrammarFault (Expr × Nat)
  | 0, _, _ => liftM (throw .endless : Machine (Expr × Nat))
  | rounds + 1, base, position => do
      match ← eat ts [.sign .dot] position with
      | some position => do
          let (found, position) ← advance ts position
          match found with
          | some (.name n) => suffixes ts rounds (.attribute base n) position
          | some (.int n) => suffixes ts rounds (.attribute base (natText n)) position
          | some t => throw (.expectedAttribute (some t))
          | none => throw (.expectedAttribute none)
      | none => do
      match ← eat ts [.sign .openBracket] position with
      | some position => do
          let (index, position) ← conditional ts rounds position
          let position ← expect ts .closeBracket position
          suffixes ts rounds (.index base index) position
      | none => do
      match ← eat ts [.sign .bar] position with
      | some position => do
          let (found, position) ← advance ts position
          match found with
          | some (.name n) => do
              match ← eat ts [.sign .openParen] position with
              | some position => do
                  let (values, position) ← arguments ts rounds .closeParen position
                  suffixes ts rounds (.filter base n values) position
              | none => suffixes ts rounds (.filter base n []) position
          | _ => throw .expectedFilter
      | none => pure (base, position)

/-- The arguments up to the closing sign, possibly none. -/
def arguments (ts : List Token) : (rounds : Nat) → (closing : Sign) → (position : Nat) →
    Attempt GrammarFault (List Expr × Nat)
  | 0, _, _ => liftM (throw .endless : Machine (List Expr × Nat))
  | rounds + 1, closing, position => do
      match ← eat ts [.sign closing] position with
      | some position => pure ([], position)
      | none => moreArguments ts rounds closing position

/-- At least one argument, and the others up to the closing sign. -/
def moreArguments (ts : List Token) : (rounds : Nat) → (closing : Sign) → (position : Nat) →
    Attempt GrammarFault (List Expr × Nat)
  | 0, _, _ => liftM (throw .endless : Machine (List Expr × Nat))
  | rounds + 1, closing, position => do
      let position ← skipKeyword ts position
      let (argument, position) ← conditional ts rounds position
      match ← eat ts [.sign closing] position with
      | some position => pure ([argument], position)
      | none => do
          let position ← expect ts .comma position
          let (values, position) ← moreArguments ts rounds closing position
          pure (argument :: values, position)

/-- A literal, a name, a list, or an expression in parentheses. -/
def primary (ts : List Token) : (rounds : Nat) → (position : Nat) →
    Attempt GrammarFault (Expr × Nat)
  | 0, _ => liftM (throw .endless : Machine (Expr × Nat))
  | rounds + 1, position => do
      let (found, position) ← advance ts position
      match found with
      | some (.int n) => pure (.literal (.int n), position)
      | some (.float x) => pure (.literal (.ofFloat x), position)
      | some (.text s) => pure (.literal (.text s), position)
      | some (.name n) => pure (.ofName n, position)
      | some (.sign .openParen) => do
          let (inner, position) ← conditional ts rounds position
          let position ← expect ts .closeParen position
          pure (inner, position)
      | some (.sign .openBracket) => do
          let (items, position) ← arguments ts rounds .closeBracket position
          pure (.list items, position)
      | some t => throw (.unexpectedToken t)
      | none => throw .unexpectedEnd

end

/-- The expression that the tokens make up. -/
def ofTokens (ts : List Token) : Attempt GrammarFault Expr :=
  if ts.isEmpty then throw .emptyExpression
  else do
    let (e, position) ← conditional ts (parseFuel ts.length) 0
    match ts[position]? with
    | none => pure e
    | some t => throw (.unexpectedToken t)

/-- The expression that a text denotes. -/
def parse (source : List Char) : Attempt GrammarFault Expr := do
  match ← tokens source with
  | .error fault => throw (.lexical fault)
  | .ok ts => ofTokens ts

/-! ## §3 Looking and eating -/

section Eating

variable {β : Type} {ts ahead rest words : List Token}

/-- Words that stand there are eaten. -/
theorem eat_eq (small : ts.length < wordBound) (h : words ++ rest <:+ ts) :
    eat ts words (startOf ts (words ++ rest)) = .ok (some (startOf ts rest)) := by
  induction words with
  | nil => rfl
  | cons t more ih =>
    rw [List.cons_append] at h
    have inside := startOf_lt h
    rw [eat, List.cons_append, getElem?_startOf h, if_pos List.head?_cons,
      bind_eq (word_eq (by omega)), startOf_succ h, ih (tail_suffix h)]

theorem eat_one {t : Token} (small : ts.length < wordBound) (h : t :: rest <:+ ts) :
    eat ts [t] (startOf ts (t :: rest)) = .ok (some (startOf ts rest)) :=
  @eat_eq ts rest [t] small h

/-- Other words are left. -/
theorem eat_none (small : ts.length < wordBound) (h : ahead <:+ ts)
    (other : ∀ more, ahead = words ++ more → False) :
    eat ts words (startOf ts ahead) = .ok none := by
  induction words generalizing ahead with
  | nil => exact (other ahead rfl).elim
  | cons t more ih =>
    rw [eat, getElem?_startOf h]
    cases ahead with
    | nil => exact if_neg (by simp)
    | cons u rest =>
      by_cases same : u = t
      · have inside := startOf_lt h
        rw [if_pos (by simp [same]), bind_eq (word_eq (by omega)), startOf_succ h]
        refine ih (tail_suffix h) fun behind e => other behind ?_
        rw [same, e, List.cons_append]
      · exact if_neg (by simp [same])

/-- The entry that is chosen is the first one whose words stand there. -/
theorem choose_eq (small : ts.length < wordBound) (table : List (List Token × β))
    (h : ahead <:+ ts) :
    choose ts table (startOf ts ahead)
      = .ok ((fitting? table ahead).map fun p => (p.1, startOf ts p.2)) := by
  induction table with
  | nil => rfl
  | cons entry table ih =>
    obtain ⟨words, b⟩ := entry
    rw [choose, fitting?]
    by_cases fits : words <+: ahead
    · obtain ⟨behind, rfl⟩ := fits
      rw [bind_eq (eat_eq small h), if_pos (List.prefix_append words behind), List.drop_left]
      rfl
    · have left : eat ts words (startOf ts ahead) = .ok none :=
        eat_none small h fun behind e => fits ⟨behind, e.symm⟩
      rw [bind_eq left, if_neg fits]
      exact ih

theorem advance_eq {t : Token} (small : ts.length < wordBound) (h : t :: rest <:+ ts) :
    advance ts (startOf ts (t :: rest)) = .ok (some t, startOf ts rest) := by
  have inside := startOf_lt h
  rw [advance, bind_eq (word_eq (by omega)), startOf_succ h, getElem?_startOf h]
  rfl

/-- The machine goes on past the end too. -/
theorem advance_end (small : ts.length + 1 < wordBound) :
    advance ts (startOf ts []) = .ok (none, ts.length + 1) := by
  rw [advance, startOf_nil, bind_eq (word_eq small), List.getElem?_length]

theorem suffix_dropKeyword (ahead : List Token) : dropKeyword ahead <:+ ahead := by
  unfold dropKeyword
  split
  · exact (List.suffix_cons _ _).trans (List.suffix_cons _ _)
  · exact List.suffix_refl _

theorem dropKeyword_name (n : String) (rest : List Token) :
    dropKeyword (.name n :: rest)
      = if rest.head? = some (.sign .assign) then rest.tail else .name n :: rest := by
  unfold dropKeyword
  split
  · rename_i heq
    cases heq
    rfl
  · rename_i other
    refine (if_neg fun assigned => ?_).symm
    obtain ⟨more, rfl⟩ := List.head?_eq_some_iff.mp assigned
    exact other n more rfl

/-- The name of an argument is skipped where it is dropped. -/
theorem skipKeyword_eq (small : ts.length + 1 < wordBound) (h : ahead <:+ ts) :
    skipKeyword ts (startOf ts ahead) = .ok (startOf ts (dropKeyword ahead)) := by
  rw [skipKeyword, getElem?_startOf h]
  cases ahead with
  | nil => rfl
  | cons t rest =>
    rw [List.head?_cons]
    cases t with
    | name n =>
      have inside := startOf_lt h
      have behind := startOf_succ h
      dsimp only
      rw [bind_eq (word_eq (by omega)), behind, getElem?_startOf (tail_suffix h), dropKeyword_name]
      by_cases assigned : rest.head? = some (.sign .assign)
      · obtain ⟨more, rfl⟩ := List.head?_eq_some_iff.mp assigned
        have last := startOf_lt (tail_suffix h)
        rw [if_pos assigned, if_pos assigned, List.tail_cons, word_eq (by omega),
          ← startOf_succ (tail_suffix h), ← behind]
      · rw [if_neg assigned, if_neg assigned]
    | int n => rfl
    | float x => rfl
    | text s => rfl
    | sign s => rfl

end Eating

/-! ## §4 Rules -/

/-- The value is read, and the position is where the other tokens begin, of which there are less
than the bound. -/
inductive Lands {α : Type} (ts : List Token) (bound : Nat) : α × List Token → α × Nat → Prop
  | intro (a : α) {rest : List Token} (tail : rest <:+ ts) (shorter : rest.length < bound) :
      Lands ts bound (a, rest) (a, startOf ts rest)

/-- The machine reads what the grammar reads, and leaves less tokens than the bound. -/
abbrev Follows {α : Type} (ts : List Token) (bound : Nat)
    (rule : Except GrammarFault (α × List Token)) (machine : Attempt GrammarFault (α × Nat)) :
    Prop :=
  Answers False (Lands ts bound) rule machine

theorem Lands.mono {α : Type} {ts : List Token} {few more : Nat} (le : few ≤ more)
    (p : α × List Token) (q : α × Nat) (h : Lands ts few p q) : Lands ts more p q := by
  cases h with
  | intro a tail shorter => exact .intro a tail (Nat.lt_of_lt_of_le shorter le)

theorem Follows.mono {α : Type} {ts : List Token} {few more : Nat}
    {rule : Except GrammarFault (α × List Token)} {machine : Attempt GrammarFault (α × Nat)}
    (h : Follows ts few rule machine) (le : few ≤ more) : Follows ts more rule machine :=
  Answers.mono h id (Lands.mono le)

/-- So many rounds are enough for every rule on a tail of the tokens. What a rule needs falls with
the number of tokens that are left and, on the same tokens, from each rule to the ones it calls. -/
structure Suffices (ts : List Token) (rounds : Nat) : Prop where
  conditional : ∀ ahead, ahead <:+ ts → Enough ahead 0 rounds →
    Follows ts ahead.length (parseConditional rounds ahead)
      (conditional ts rounds (startOf ts ahead))
  level : ∀ l ahead, ahead <:+ ts → Enough ahead l.rank rounds →
    Follows ts ahead.length (parseLevel rounds l ahead) (level ts rounds l (startOf ts ahead))
  chain : ∀ l left ahead, ahead <:+ ts → Enough ahead postfixRank rounds →
    Follows ts (ahead.length + 1) (parseChain rounds l left ahead)
      (chain ts rounds l left (startOf ts ahead))
  suffixes : ∀ base ahead, ahead <:+ ts → Enough ahead postfixRank rounds →
    Follows ts (ahead.length + 1) (parseSuffixes rounds base ahead)
      (suffixes ts rounds base (startOf ts ahead))
  arguments : ∀ closing ahead, ahead <:+ ts → 12 * ahead.length + 12 ≤ rounds →
    Follows ts ahead.length (parseArguments rounds closing ahead)
      (arguments ts rounds closing (startOf ts ahead))
  moreArguments : ∀ closing ahead, ahead <:+ ts → 12 * ahead.length + 11 ≤ rounds →
    Follows ts ahead.length (parseMoreArguments rounds closing ahead)
      (moreArguments ts rounds closing (startOf ts ahead))
  primary : ∀ ahead, ahead <:+ ts → Enough ahead postfixRank rounds →
    Follows ts ahead.length (parsePrimary rounds ahead) (primary ts rounds (startOf ts ahead))

section Rules

variable {ts ahead : List Token} {rounds : Nat}

/-- The sign stands there and is dropped, or else there is a fault. -/
theorem closed_or_open (sign : Sign) (ahead : List Token) :
    (∃ rest, ahead = .sign sign :: rest) ∨ ∃ fault, expectSign sign ahead = .error fault
      ∧ ∀ more, ahead = [.sign sign] ++ more → False := by
  cases ahead with
  | nil => exact .inr ⟨_, rfl, by simp⟩
  | cons t rest =>
    by_cases same : t = .sign sign
    · exact .inl ⟨rest, by rw [same]⟩
    · exact .inr ⟨_, if_neg same, fun more e => same (List.cons.inj e).1⟩

/-- The expected sign is eaten, or else the fault names what stands in its place. -/
theorem expect_eq (small : ts.length < wordBound) (sign : Sign) (h : ahead <:+ ts) :
    Answers False (fun rest position => rest <:+ ts ∧ rest.length < ahead.length
        ∧ position = startOf ts rest)
      (expectSign sign ahead) (expect ts sign (startOf ts ahead)) := by
  rw [expect]
  rcases closed_or_open sign ahead with ⟨rest, rfl⟩ | ⟨fault, failed, other⟩
  · rw [expectSign_same, lift_bind (eat_one small h)]
    exact .value ⟨tail_suffix h, Nat.lt_succ_self _, rfl⟩
  · rw [lift_bind (eat_none small h other), getElem?_startOf h]
    cases ahead with
    | nil => exact .fault _
    | cons t rest =>
      rw [expectSign, if_neg fun same => other rest (by rw [same]; rfl)]
      exact .fault _

theorem Suffices.conditional_step (ih : Suffices ts rounds) (small : ts.length + 1 < wordBound)
    (h : ahead <:+ ts) (enough : Enough ahead 0 (rounds + 1)) :
    Follows ts ahead.length (parseConditional (rounds + 1) ahead)
      (Machine.conditional ts (rounds + 1) (startOf ts ahead)) := by
  unfold Enough at enough
  rw [parseConditional, Machine.conditional]
  refine (ih.level .or ahead h (by unfold Enough Level.rank; omega)).bind ?_
  rintro _ _ ⟨value, tail, shorter⟩
  dsimp only
  split
  · rename_i rest
    rw [List.length_cons] at shorter
    rw [lift_bind (eat_one (by omega) tail)]
    refine (ih.level .or rest (tail_suffix tail) (by unfold Enough Level.rank; omega)).bind ?_
    rintro _ _ ⟨condition, tail, shorter⟩
    dsimp only
    split
    · rename_i rest
      rw [List.length_cons] at shorter
      rw [lift_bind (eat_one (by omega) tail)]
      refine (ih.conditional rest (tail_suffix tail) (by unfold Enough; omega)).bind ?_
      rintro _ _ ⟨otherwise, tail, shorter⟩
      dsimp only
      exact .value (.intro (Expr.choice value condition otherwise) tail (by omega))
    · rename_i other
      rw [lift_bind (eat_none (by omega) tail other)]
      exact .value (.intro (Expr.guarded value condition) tail (by omega))
  · rename_i other
    rw [lift_bind (eat_none (by omega) tail other)]
    exact .value (.intro value tail shorter)

/-- What stands behind an operator is a shorter tail. -/
theorem tail_of_front? {l : Level} {wrap : Expr → Expr} {rest : List Token}
    (front : l.front? ahead = some (wrap, rest)) : ∃ t, ahead = t :: rest := by
  unfold Level.front? at front
  split at front <;> cases front <;> exact ⟨_, rfl⟩

theorem tail_of_operator? {l : Level} {combine : Expr → Expr → Expr} {rest : List Token}
    (operator : l.operator? ahead = some (combine, rest)) :
    rest <:+ ahead ∧ rest.length < ahead.length := by
  unfold Level.operator? at operator
  split at operator <;> cases operator
  case h_12 =>
    exact ⟨(List.suffix_cons _ _).trans (List.suffix_cons _ _),
      (Nat.lt_succ_self _).trans (Nat.lt_succ_self _)⟩
  all_goals exact ⟨List.suffix_cons _ _, by simp⟩

theorem Suffices.level_step (ih : Suffices ts rounds) (small : ts.length + 1 < wordBound)
    (l : Level) (h : ahead <:+ ts) (enough : Enough ahead l.rank (rounds + 1)) :
    Follows ts ahead.length (parseLevel (rounds + 1) l ahead)
      (Machine.level ts (rounds + 1) l (startOf ts ahead)) := by
  unfold Enough at enough
  have chosen := choose_eq (by omega) l.fronts h
  rw [← front?_eq_fitting?] at chosen
  rw [parseLevel, Machine.level, lift_bind chosen]
  cases front : l.front? ahead with
  | some found =>
    obtain ⟨wrap, rest⟩ := found
    obtain ⟨t, rfl⟩ := tail_of_front? front
    rw [List.length_cons] at enough
    refine (ih.level l rest (tail_suffix h) (by unfold Enough; omega)).bind ?_
    rintro _ _ ⟨inner, tail, shorter⟩
    exact .value (.intro _ tail (by rw [List.length_cons]; omega))
  | none =>
    dsimp only [Option.map_none]
    by_cases unary : l = .unary
    · subst unary
      rw [if_pos rfl, if_pos rfl]
      have rank : Level.unary.rank = 8 := rfl
      refine (ih.primary ahead h (by unfold Enough postfixRank; omega)).bind ?_
      rintro _ _ ⟨base, tail, shorter⟩
      exact (ih.suffixes base _ tail (by unfold Enough postfixRank; omega)).mono shorter
    · rw [if_neg unary, if_neg unary]
      have rank := Level.rank_tighter unary
      have low := l.rank_le
      refine (ih.level l.tighter ahead h (by unfold Enough; omega)).bind ?_
      rintro _ _ ⟨left, tail, shorter⟩
      exact (ih.chain l left _ tail (by unfold Enough postfixRank; omega)).mono shorter

theorem Suffices.chain_step (ih : Suffices ts rounds) (small : ts.length + 1 < wordBound)
    (l : Level) (left : Expr) (h : ahead <:+ ts) (enough : Enough ahead postfixRank (rounds + 1)) :
    Follows ts (ahead.length + 1) (parseChain (rounds + 1) l left ahead)
      (Machine.chain ts (rounds + 1) l left (startOf ts ahead)) := by
  unfold Enough postfixRank at enough
  have chosen := choose_eq (by omega) l.operators h
  rw [← operator?_eq_fitting?] at chosen
  rw [parseChain, Machine.chain, lift_bind chosen]
  cases operator : l.operator? ahead with
  | none => exact .value (.intro left h (Nat.lt_succ_self _))
  | some found =>
    obtain ⟨combine, rest⟩ := found
    obtain ⟨behind, fewer⟩ := tail_of_operator? operator
    refine (ih.level l.tighter rest (behind.trans h) (by unfold Enough; omega)).bind ?_
    rintro _ _ ⟨right, tail, shorter⟩
    exact (ih.chain l (combine left right) _ tail (by unfold Enough postfixRank; omega)).mono
      (by omega)

/-- The suffixes behind a name that stands behind a dot or a bar. -/
theorem Suffices.suffixes_behind (ih : Suffices ts rounds) (base : Expr) {rest : List Token}
    (tail : rest <:+ ts) (fewer : rest.length < ahead.length)
    (enough : Enough ahead postfixRank (rounds + 1)) :
    Follows ts (ahead.length + 1) (parseSuffixes rounds base rest)
      (Machine.suffixes ts rounds base (startOf ts rest)) := by
  unfold Enough at enough
  exact (ih.suffixes base rest tail (by unfold Enough; omega)).mono (by omega)

theorem Suffices.suffixes_step (ih : Suffices ts rounds) (small : ts.length + 1 < wordBound)
    (base : Expr) (h : ahead <:+ ts) (enough : Enough ahead postfixRank (rounds + 1)) :
    Follows ts (ahead.length + 1) (parseSuffixes (rounds + 1) base ahead)
      (Machine.suffixes ts (rounds + 1) base (startOf ts ahead)) := by
  have counted : 12 * ahead.length + 10 ≤ rounds + 1 + 9 := enough
  rw [parseSuffixes.eq_def, Machine.suffixes]
  dsimp only
  split
  · rename_i rest
    rw [lift_bind (eat_one (by omega) h)]
    dsimp only
    cases rest with
    | nil =>
      rw [lift_bind (advance_end small)]
      exact .fault _
    | cons t rest =>
      have tail := tail_suffix h
      rw [lift_bind (advance_eq (by omega) tail)]
      have behind (e : Expr) := ih.suffixes_behind e (tail_suffix tail)
        ((Nat.lt_succ_self _).trans (Nat.lt_succ_self _)) enough
      cases t with
      | name n => exact behind _
      | int n => exact behind _
      | float x => exact .fault _
      | text s => exact .fault _
      | sign s => exact .fault _
  · rename_i rest
    rw [List.length_cons] at counted
    rw [lift_bind (eat_none (by omega) h (by simp)), lift_bind (eat_one (by omega) h)]
    refine (ih.conditional rest (tail_suffix h) (by unfold Enough; omega)).bind ?_
    rintro _ _ ⟨position, tail, shorter⟩
    refine (expect_eq (by omega) .closeBracket tail).bind ?_
    rintro rest _ ⟨tail, fewer, rfl⟩
    exact ih.suffixes_behind _ tail (by rw [List.length_cons]; omega) enough
  · rename_i rest
    have tail := tail_suffix h
    rw [lift_bind (eat_none (by omega) h (by simp)), lift_bind (eat_none (by omega) h (by simp)),
      lift_bind (eat_one (by omega) h)]
    dsimp only
    split
    · rename_i n more
      have opened := tail_suffix tail
      simp only [List.length_cons] at counted
      rw [lift_bind (advance_eq (by omega) tail)]
      dsimp only
      rw [lift_bind (eat_one (by omega) opened)]
      refine (ih.arguments .closeParen more (tail_suffix opened) (by omega)).bind ?_
      rintro _ _ ⟨values, tail, shorter⟩
      exact ih.suffixes_behind _ tail (by simp only [List.length_cons]; omega) enough
    · rename_i n more plain
      rw [lift_bind (advance_eq (by omega) tail)]
      dsimp only
      rw [lift_bind (eat_none (by omega) (tail_suffix tail) plain)]
      exact ih.suffixes_behind _ (tail_suffix tail)
        ((Nat.lt_succ_self _).trans (Nat.lt_succ_self _)) enough
    · rename_i called named
      cases rest with
      | nil =>
        rw [lift_bind (advance_end small)]
        exact .fault _
      | cons t more =>
        rw [lift_bind (advance_eq (by omega) tail)]
        cases t with
        | name n => exact (named n more rfl).elim
        | int n => exact .fault _
        | float x => exact .fault _
        | text s => exact .fault _
        | sign s => exact .fault _
  · rename_i no_dot no_bracket no_bar
    rw [lift_bind (eat_none (by omega) h no_dot), lift_bind (eat_none (by omega) h no_bracket),
      lift_bind (eat_none (by omega) h no_bar)]
    exact .value (.intro base h (Nat.lt_succ_self _))

theorem Suffices.arguments_step (ih : Suffices ts rounds) (small : ts.length + 1 < wordBound)
    (closing : Sign) (h : ahead <:+ ts) (enough : 12 * ahead.length + 12 ≤ rounds + 1) :
    Follows ts ahead.length (parseArguments (rounds + 1) closing ahead)
      (Machine.arguments ts (rounds + 1) closing (startOf ts ahead)) := by
  rw [parseArguments, Machine.arguments]
  rcases closed_or_open closing ahead with ⟨rest, rfl⟩ | ⟨fault, other⟩
  · rw [expectSign_same, lift_bind (eat_one (by omega) h)]
    exact .value (.intro [] (tail_suffix h) (Nat.lt_succ_self _))
  · rw [other.1, lift_bind (eat_none (by omega) h other.2)]
    exact ih.moreArguments closing ahead h (by omega)

theorem Suffices.moreArguments_step (ih : Suffices ts rounds) (small : ts.length + 1 < wordBound)
    (closing : Sign) (h : ahead <:+ ts) (enough : 12 * ahead.length + 11 ≤ rounds + 1) :
    Follows ts ahead.length (parseMoreArguments (rounds + 1) closing ahead)
      (Machine.moreArguments ts (rounds + 1) closing (startOf ts ahead)) := by
  have dropped := suffix_dropKeyword ahead
  have fewer := dropped.length_le
  rw [parseMoreArguments, Machine.moreArguments, lift_bind (skipKeyword_eq small h)]
  refine (ih.conditional _ (dropped.trans h) (by unfold Enough; omega)).bind ?_
  rintro _ _ ⟨argument, tail, shorter⟩
  rename_i rest
  dsimp only
  rcases closed_or_open closing rest with ⟨rest, rfl⟩ | ⟨fault, other⟩
  · rw [List.length_cons] at shorter
    rw [expectSign_same, lift_bind (eat_one (by omega) tail)]
    exact .value (.intro [argument] (tail_suffix tail) (by omega))
  · rw [other.1, lift_bind (eat_none (by omega) tail other.2)]
    refine (expect_eq (by omega) .comma tail).bind ?_
    rintro rest _ ⟨tail, fewer, rfl⟩
    refine (ih.moreArguments closing rest tail (by omega)).bind ?_
    rintro _ _ ⟨values, tail, shorter⟩
    dsimp only
    exact .value (.intro (argument :: values) tail (by omega))

theorem Suffices.primary_step (ih : Suffices ts rounds) (small : ts.length + 1 < wordBound)
    (h : ahead <:+ ts) (enough : Enough ahead postfixRank (rounds + 1)) :
    Follows ts ahead.length (parsePrimary (rounds + 1) ahead)
      (Machine.primary ts (rounds + 1) (startOf ts ahead)) := by
  have counted : 12 * ahead.length + 10 ≤ rounds + 1 + 9 := enough
  have one {t : Token} {rest : List Token} (e : Expr) (behind : rest <:+ ts) :
      Lands ts (t :: rest).length (e, rest) (e, startOf ts rest) :=
    .intro e behind (Nat.lt_succ_self _)
  rw [parsePrimary.eq_def, Machine.primary]
  dsimp only
  split
  · rw [lift_bind (advance_eq (by omega) h)]
    exact .value (one _ (tail_suffix h))
  · rw [lift_bind (advance_eq (by omega) h)]
    exact .value (one _ (tail_suffix h))
  · rw [lift_bind (advance_eq (by omega) h)]
    exact .value (one _ (tail_suffix h))
  · rw [lift_bind (advance_eq (by omega) h)]
    exact .value (one _ (tail_suffix h))
  · rename_i rest
    rw [List.length_cons] at counted
    rw [lift_bind (advance_eq (by omega) h)]
    refine (ih.conditional rest (tail_suffix h) (by unfold Enough; omega)).bind ?_
    rintro _ _ ⟨inner, tail, shorter⟩
    refine (expect_eq (by omega) .closeParen tail).bind ?_
    rintro rest _ ⟨tail, fewer, rfl⟩
    exact .value (.intro inner tail (by rw [List.length_cons]; omega))
  · rename_i rest
    rw [List.length_cons] at counted
    rw [lift_bind (advance_eq (by omega) h)]
    refine (ih.arguments .closeBracket rest (tail_suffix h) (by omega)).bind ?_
    rintro _ _ ⟨items, tail, shorter⟩
    dsimp only
    exact .value (.intro (Expr.list items) tail (by rw [List.length_cons]; omega))
  · rename_i t rest no_int no_float no_text no_name no_paren no_bracket
    rw [lift_bind (advance_eq (by omega) h)]
    cases t with
    | int n => exact (no_int n rfl).elim
    | float x => exact (no_float x rfl).elim
    | text s => exact (no_text s rfl).elim
    | name n => exact (no_name n rfl).elim
    | sign s =>
      cases s with
      | openParen => exact (no_paren rfl).elim
      | openBracket => exact (no_bracket rfl).elim
      | _ => exact .fault _
  · rw [lift_bind (advance_end small)]
    exact .fault _

/-- So many rounds are enough, whatever their number. -/
theorem suffices_all (small : ts.length + 1 < wordBound) : ∀ rounds, Suffices ts rounds := by
  intro rounds
  induction rounds with
  | zero =>
    -- every rule needs at least one round
    exact
      { conditional := fun ahead _ enough => by unfold Enough at enough; omega
        level := fun l ahead _ enough => by
          have := l.rank_le
          unfold Enough at enough
          omega
        chain := fun l left ahead _ enough => by unfold Enough postfixRank at enough; omega
        suffixes := fun base ahead _ enough => by unfold Enough postfixRank at enough; omega
        arguments := fun closing ahead _ enough => by omega
        moreArguments := fun closing ahead _ enough => by omega
        primary := fun ahead _ enough => by unfold Enough postfixRank at enough; omega }
  | succ rounds ih =>
    exact
      { conditional := fun ahead => ih.conditional_step small
        level := fun l ahead => ih.level_step small l
        chain := fun l left ahead => ih.chain_step small l left
        suffixes := fun base ahead => ih.suffixes_step small base
        arguments := fun closing ahead => ih.arguments_step small closing
        moreArguments := fun closing ahead => ih.moreArguments_step small closing
        primary := fun ahead => ih.primary_step small }

end Rules

/-! ## §5 Expressions -/

/-- The machine reads the expression that the tokens make up. -/
theorem ofTokens_eq {ts : List Token} (small : ts.length + 1 < wordBound) :
    Answers False Eq (Expr.ofTokens ts) (ofTokens ts) := by
  rw [Expr.ofTokens, ofTokens]
  by_cases empty : ts.isEmpty = true
  · rw [if_pos empty, if_pos empty]
    exact .fault _
  · rw [if_neg empty, if_neg empty]
    have all := (suffices_all small (parseFuel ts.length)).conditional ts (List.suffix_refl ts)
      (by unfold Enough parseFuel; omega)
    rw [startOf_self] at all
    refine all.bind ?_
    rintro _ _ ⟨e, tail, shorter⟩
    rename_i rest
    dsimp only
    rw [getElem?_startOf tail]
    cases rest with
    | nil => exact .value rfl
    | cons t rest => exact .fault _

/-- There are no more tokens than characters. -/
theorem length_of_tokens {cs : List Char} {ts : List Token} (h : Tabletop.tokens cs = .ok ts) :
    ts.length ≤ cs.length := by
  refine words_induction (P := fun cs ts => ts.length ≤ cs.length) (Nat.le_refl _) ?_ ?_ h
  · exact fun _ fewer => fewer.trans (Nat.le_succ _)
  · exact fun _ read fewer => Nat.succ_le_succ (fewer.trans (suffix_of_read read).length_le)

/-- The machine reads the expression that a text denotes. -/
theorem parse_eq {source : List Char} (small : source.length + 1 < wordBound) :
    Answers False Eq (Expr.parse source) (parse source) := by
  rw [Expr.parse, parse, lift_bind (tokens_eq small)]
  cases read : Tabletop.tokens source with
  | error fault => exact .fault _
  | ok ts =>
    have fewer := length_of_tokens read
    exact ofTokens_eq (by omega)

end Machine

end Tabletop
