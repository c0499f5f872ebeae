/-
Tabletop.Proofs.Value.Split — where written paths lead.

A path that begins with a plain word and a dot has the word as its first
segment, whatever follows. So the paths that a run makes for its own data
lead into the namespaces of runs, whatever the ids in them are. Whether an
id is a segment of its own there depends on its characters: `IsBare` ids are,
and all others are not.

  §1 Trimming
  §2 The first segment of a path
  §3 Segments that are read as they are written
  §4 Joined segments
-/
import Mathlib.Data.List.DropRight
import Tabletop.Value.Path

namespace Tabletop

/-! ## §1 Trimming -/

/-- Trimming leaves what stands before a character that is not trimmed, up to there. -/
theorem trimWhile_append_cons {p : Char → Bool} {first c : Char} (hf : p first = false)
    (hc : p c = false) (root rest : List Char) :
    trimWhile p (first :: root ++ c :: rest) = first :: root ++ c :: rest.rdropWhile p := by
  have front : ((first :: root) ++ c :: rest).dropWhile p = (first :: root) ++ c :: rest := by
    rw [List.cons_append, List.dropWhile_cons, hf]
    simp
  have back : ∀ xs ys : List Char, (xs ++ c :: ys).dropWhile p = xs.dropWhile p ++ c :: ys := by
    intro xs ys
    induction xs with
    | nil => simp [hc]
    | cons x xs ih =>
      rw [List.cons_append, List.dropWhile_cons, List.dropWhile_cons]
      by_cases hx : p x = true
      · rw [if_pos hx, if_pos hx, ih]
      · rw [if_neg hx, if_neg hx]
        rfl
  unfold trimWhile List.rdropWhile
  rw [front, List.reverse_append, List.reverse_cons, List.append_assoc, List.singleton_append,
    back, List.reverse_append, List.reverse_cons, List.reverse_reverse]
  simp

theorem trimWhile_eq_self {p : Char → Bool} {cs : List Char} (h : ∀ c ∈ cs, p c = false) :
    trimWhile p cs = cs := by
  have keep : ∀ xs : List Char, (∀ c ∈ xs, p c = false) → xs.dropWhile p = xs := by
    intro xs hx
    cases xs with
    | nil => rfl
    | cons x xs => rw [List.dropWhile_cons, hx x List.mem_cons_self, if_neg Bool.false_ne_true]
  unfold trimWhile
  rw [keep cs h, keep cs.reverse fun c hc => h c (List.mem_reverse.mp hc), List.reverse_reverse]

/-- Trimming drops what stands around characters of another kind. -/
theorem trimWhile_between {p : Char → Bool} {before core after : List Char}
    (front : ∀ c ∈ before, p c = true) (back : ∀ c ∈ after, p c = true) (filled : core ≠ [])
    (first : ∀ c ∈ core.head?, p c = false) (last : ∀ c ∈ core.getLast?, p c = false) :
    trimWhile p (before ++ core ++ after) = core := by
  have keep : ∀ xs ys : List Char, xs ≠ [] → (∀ c ∈ xs.head?, p c = false) →
      (xs ++ ys).dropWhile p = xs ++ ys := by
    intro xs ys hne head
    obtain ⟨x, xs, rfl⟩ := List.exists_cons_of_ne_nil hne
    rw [List.cons_append, List.dropWhile_cons_of_neg (by simp [head x rfl])]
  have reversed := keep core.reverse [] (by simpa using filled) (by simpa using last)
  unfold trimWhile
  rw [List.append_assoc, List.dropWhile_append_of_pos front, keep core after filled first,
    List.reverse_append,
    List.dropWhile_append_of_pos fun c hc => back c (List.mem_reverse.mp hc)]
  rw [List.append_nil] at reversed
  rw [reversed, List.reverse_reverse]

/-- Trimming drops characters from the ends only. -/
theorem trimWhile_sublist (p : Char → Bool) (cs : List Char) : (trimWhile p cs).Sublist cs :=
  (List.rdropWhile_prefix p _).sublist.trans (List.dropWhile_sublist p)

/-- What trimming leaves as it is has no trimmed character at its end. -/
theorem rdropWhile_eq_self_of_trimWhile {p : Char → Bool} {cs : List Char}
    (h : trimWhile p cs = cs) : cs.rdropWhile p = cs := by
  have again : (trimWhile p cs).rdropWhile p = trimWhile p cs :=
    List.rdropWhile_idempotent p (cs.dropWhile p)
  rwa [h] at again

/-! ## §2 The first segment of a path -/

/-- The character stands for itself in a segment outside brackets. -/
def Path.isPlain (c : Char) : Bool := !isBlank c && c != '.' && c != '['

/-- Characters that separate nothing are, up to a dot, a segment of their own. -/
theorem Path.splitFrom_dot {root : List Char} (whole : ∀ c ∈ root, c ≠ '.' ∧ c ≠ '[')
    (pending rest : List Char) :
    Path.splitFrom false pending (root ++ '.' :: rest)
      = Path.dottedSegment (pending.reverse ++ root) ++ Path.splitFrom false [] rest := by
  induction root generalizing pending with
  | nil => simp [Path.splitFrom]
  | cons c root ih =>
    rw [List.forall_mem_cons] at whole
    rw [List.cons_append, Path.splitFrom, if_neg whole.1.1, if_neg whole.1.2, ih whole.2]
    simp

/-- A path that begins with a plain segment and a dot has that segment as its first one. -/
theorem Path.split_root {root : List Char} (plain : root.all Path.isPlain = true)
    (hne : root ≠ []) {path : String} {rest : List Char} (h : path.toList = root ++ '.' :: rest) :
    Path.split path
      = String.ofList root :: Path.splitFrom false [] (rest.rdropWhile isBlank) := by
  have each : ∀ c ∈ root, isBlank c = false ∧ c ≠ '.' ∧ c ≠ '[' := by
    intro c hc
    have := List.all_eq_true.mp plain c hc
    simp only [Path.isPlain, Bool.and_eq_true, Bool.not_eq_true', bne_iff_ne] at this
    exact ⟨this.1.1, this.1.2, this.2⟩
  have unblank : ∀ c ∈ root, isBlank c = false := fun c hc => (each c hc).1
  have whole : ∀ c ∈ root, c ≠ '.' ∧ c ≠ '[' := fun c hc => (each c hc).2
  obtain ⟨first, root', rfl⟩ := List.exists_cons_of_ne_nil hne
  have dot : isBlank '.' = false := by decide
  have trimmed := trimWhile_append_cons (unblank first List.mem_cons_self) dot root' rest
  unfold Path.split trimChars
  rw [h, trimmed, Path.splitFrom_dot whole, List.reverse_nil, List.nil_append]
  unfold Path.dottedSegment trimChars
  rw [trimWhile_eq_self unblank]
  rfl

/-! ## §3 Segments that are read as they are written -/

namespace Path

/-- After a dot the segment is read as it is written. -/
structure IsBare (segment : String) : Prop where
  nonempty : segment.toList ≠ []
  trimmed : trimChars segment.toList = segment.toList
  whole : ∀ c ∈ segment.toList, c ≠ '.' ∧ c ≠ '['

instance (segment : String) : Decidable (IsBare segment) :=
  decidable_of_iff (segment.toList ≠ [] ∧ trimChars segment.toList = segment.toList
      ∧ (segment.toList.all fun c => c != '.' && c != '[') = true)
    ⟨fun h => ⟨h.1, h.2.1, by simpa using h.2.2⟩,
      fun h => ⟨h.nonempty, h.trimmed, by simpa using h.whole⟩⟩

/-- The characters of a path without those that separate its segments. -/
def size : Path → Nat
  | [] => 0
  | segment :: rest => segment.length + size rest

theorem size_append (p q : Path) : size (p ++ q) = size p + size q := by
  induction p with
  | nil => simp [size]
  | cons segment rest ih => simp [size, ih, Nat.add_assoc]

theorem size_dottedSegment_le (cs : List Char) : size (dottedSegment cs) ≤ cs.length := by
  have shorter : (trimChars cs).length ≤ cs.length := (trimWhile_sublist isBlank cs).length_le
  simp only [dottedSegment]
  split <;> simp [size, shorter]

theorem size_bracketSegment_le (cs : List Char) : size (bracketSegment cs) ≤ cs.length := by
  have shorter : (trimWhile isQuote (trimChars cs)).length ≤ cs.length :=
    ((trimWhile_sublist isQuote _).trans (trimWhile_sublist isBlank cs)).length_le
  simp only [bracketSegment]
  split <;> simp [size, shorter]

/-- Splitting adds no characters. -/
theorem size_splitFrom_le (inside : Bool) (pending cs : List Char) :
    size (splitFrom inside pending cs) ≤ pending.length + cs.length := by
  induction cs generalizing inside pending with
  | nil =>
    cases inside with
    | false => simpa [splitFrom] using size_dottedSegment_le pending.reverse
    | true => simpa [splitFrom] using size_bracketSegment_le pending.reverse
  | cons c rest ih =>
    cases inside with
    | false =>
      have now := size_dottedSegment_le pending.reverse
      rw [List.length_reverse] at now
      have dotted := ih false []
      have opened := ih true []
      have longer := ih false (c :: pending)
      simp only [List.length_nil, List.length_cons] at dotted opened longer ⊢
      unfold splitFrom
      split
      · rw [size_append]
        omega
      split
      · rw [size_append]
        omega
      · omega
    | true =>
      have now := size_bracketSegment_le pending.reverse
      rw [List.length_reverse] at now
      have closed := ih false []
      have longer := ih true (c :: pending)
      simp only [List.length_nil, List.length_cons] at closed longer ⊢
      unfold splitFrom
      split
      · rw [size_append]
        omega
      · omega

/-- A separator is not part of any segment. -/
theorem size_splitFrom_lt (pending : List Char) {cs : List Char} (h : ∃ c ∈ cs, c = '.' ∨ c = '[') :
    size (splitFrom false pending cs) < pending.length + cs.length := by
  induction cs generalizing pending with
  | nil =>
    obtain ⟨c, hc, _⟩ := h
    exact absurd hc List.not_mem_nil
  | cons c rest ih =>
    have now := size_dottedSegment_le pending.reverse
    rw [List.length_reverse] at now
    have dotted := size_splitFrom_le false [] rest
    have opened := size_splitFrom_le true [] rest
    simp only [List.length_nil, List.length_cons] at dotted opened ⊢
    unfold splitFrom
    split
    · rw [size_append]
      omega
    split
    · rw [size_append]
      omega
    · rename_i hdot hopen
      have later : ∃ x ∈ rest, x = '.' ∨ x = '[' := by
        obtain ⟨x, hx, sep⟩ := h
        rcases List.mem_cons.mp hx with rfl | hx
        · exact absurd sep (not_or.mpr ⟨hdot, hopen⟩)
        · exact ⟨x, hx, sep⟩
      have further := ih (c :: pending) later
      rw [List.length_cons] at further
      omega

/-- Without a separator there is one segment. -/
theorem splitFrom_of_whole {pending cs : List Char} (whole : ∀ c ∈ cs, c ≠ '.' ∧ c ≠ '[') :
    splitFrom false pending cs = dottedSegment (pending.reverse ++ cs) := by
  induction cs generalizing pending with
  | nil => simp [splitFrom]
  | cons c rest ih =>
    rw [List.forall_mem_cons] at whole
    rw [splitFrom, if_neg whole.1.1, if_neg whole.1.2, ih whole.2]
    simp

/-- An id stands for itself after a plain segment and a dot if it is bare, and only then. -/
theorem split_below_eq_iff {root : List Char} (plain : root.all isPlain = true) (hne : root ≠ [])
    {path id : String} (h : path.toList = root ++ '.' :: id.toList) :
    split path = [String.ofList root, id] ↔ IsBare id := by
  rw [split_root plain hne h, List.cons.injEq, and_iff_right rfl]
  constructor
  · intro alone
    -- No character of the id may be lost on the way, neither to trimming nor as a separator.
    have shorter := (List.rdropWhile_prefix isBlank id.toList).length_le
    have total : id.toList.length ≤ size (splitFrom false [] (id.toList.rdropWhile isBlank)) := by
      simp [alone, size, String.length_toList]
    have whole : ∀ c ∈ id.toList.rdropWhile isBlank, c ≠ '.' ∧ c ≠ '[' := by
      intro c hc
      by_contra separates
      have lost := size_splitFrom_lt [] ⟨c, hc, by tauto⟩
      rw [List.length_nil] at lost
      omega
    rw [splitFrom_of_whole whole, List.reverse_nil, List.nil_append] at alone
    simp only [dottedSegment] at alone
    split at alone
    · cases alone
    · rename_i left
      have trimmed : trimChars (id.toList.rdropWhile isBlank) = id.toList := by
        have same := congrArg String.toList (List.cons.inj alone).1
        rwa [String.toList_ofList] at same
      have kept : id.toList.rdropWhile isBlank = id.toList := by
        refine (List.rdropWhile_prefix isBlank id.toList).eq_of_length (le_antisymm shorter ?_)
        calc id.toList.length = (trimChars (id.toList.rdropWhile isBlank)).length := by
              rw [trimmed]
          _ ≤ (id.toList.rdropWhile isBlank).length := (trimWhile_sublist _ _).length_le
      rw [kept] at trimmed whole left
      refine ⟨?_, trimmed, whole⟩
      rintro nothing
      rw [trimmed, nothing] at left
      exact left rfl
  · intro bare
    rw [rdropWhile_eq_self_of_trimWhile bare.trimmed, splitFrom_of_whole bare.whole,
      List.reverse_nil, List.nil_append, dottedSegment, bare.trimmed]
    simp [bare.nonempty]

/-! ## §4 Joined segments -/

/-- Segments written behind dots. -/
def dotted (segments : Path) : List Char := segments.flatMap fun s => '.' :: s.toList

theorem dotted_cons (s : String) (rest : Path) :
    dotted (s :: rest) = '.' :: (s.toList ++ dotted rest) := by
  simp [dotted]

/-- A joined path is its first segment with the others behind dots. -/
theorem toList_join_cons (s : String) (rest : Path) :
    (join (s :: rest)).toList = s.toList ++ dotted rest := by
  rw [join, String.toList_intercalate]
  induction rest generalizing s with
  | nil => simp [dotted]
  | cons t rest ih =>
    have dot : ".".toList = ['.'] := by decide
    simp only [List.map_cons] at ih ⊢
    rw [List.intercalate_cons_cons, ih t, dotted_cons, dot, List.append_assoc]
    rfl

/-- What trimming leaves as it is has no trimmed character at its start. -/
theorem dropWhile_eq_self_of_trimWhile {p : Char → Bool} {cs : List Char}
    (h : trimWhile p cs = cs) : cs.dropWhile p = cs := by
  have front : (trimWhile p cs).length ≤ (cs.dropWhile p).length :=
    (List.rdropWhile_prefix p _).length_le
  rw [h] at front
  exact (List.dropWhile_suffix p).eq_of_length_le front

theorem trimWhile_of_ends {p : Char → Bool} {cs : List Char} (front : cs.dropWhile p = cs)
    (back : cs.rdropWhile p = cs) : trimWhile p cs = cs := by
  change (cs.dropWhile p).rdropWhile p = cs
  rw [front, back]

/-- Bare segments joined have no blanks around them. -/
theorem trimChars_join {s : String} {rest : Path} (bare : ∀ t ∈ s :: rest, IsBare t) :
    trimChars (s.toList ++ dotted rest) = s.toList ++ dotted rest := by
  have starts : ∀ {cs more : List Char}, cs ≠ [] → cs.dropWhile isBlank = cs →
      (cs ++ more).dropWhile isBlank = cs ++ more := by
    intro cs more hne h
    obtain ⟨c, cs, rfl⟩ := List.exists_cons_of_ne_nil hne
    have first : isBlank c = false := by
      cases hc : isBlank c with
      | false => rfl
      | true =>
        have shorter := (List.dropWhile_suffix (l := cs) isBlank).length_le
        rw [List.dropWhile_cons_of_pos hc] at h
        rw [h, List.length_cons] at shorter
        omega
    rw [List.cons_append, List.dropWhile_cons_of_neg (by simp [first])]
  have ends : ∀ {few cs : List Char}, cs ≠ [] → cs.rdropWhile isBlank = cs →
      (few ++ cs).rdropWhile isBlank = few ++ cs := by
    intro few cs hne h
    unfold List.rdropWhile at h ⊢
    have reversed : cs.reverse.dropWhile isBlank = cs.reverse := by
      rw [← List.reverse_reverse (cs.reverse.dropWhile isBlank), h]
    rw [List.reverse_append, starts (by simpa using hne) reversed, List.reverse_append,
      List.reverse_reverse, List.reverse_reverse]
  have last : ∀ (rest : Path) (s : String), (∀ t ∈ s :: rest, IsBare t) →
      (s.toList ++ dotted rest).rdropWhile isBlank = s.toList ++ dotted rest := by
    intro rest
    induction rest with
    | nil =>
      intro s bare
      have here := bare s List.mem_cons_self
      simpa [dotted] using rdropWhile_eq_self_of_trimWhile here.trimmed
    | cons t rest ih =>
      intro s bare
      rw [List.forall_mem_cons] at bare
      have nonempty : t.toList ++ dotted rest ≠ [] := by
        simp [(bare.2 t List.mem_cons_self).nonempty]
      rw [dotted_cons, ← List.singleton_append, ← List.append_assoc]
      exact ends nonempty (ih t bare.2)
  have here := bare s List.mem_cons_self
  exact trimWhile_of_ends (starts here.nonempty (dropWhile_eq_self_of_trimWhile here.trimmed))
    (last rest s bare)

/-- A bare segment before a dot is a segment of its own. -/
theorem splitFrom_bare {s : String} (bare : IsBare s) (rest : List Char) :
    splitFrom false [] (s.toList ++ '.' :: rest) = s :: splitFrom false [] rest := by
  rw [splitFrom_dot bare.whole, List.reverse_nil, List.nil_append, dottedSegment, bare.trimmed]
  simp [bare.nonempty]

theorem splitFrom_join {s : String} {rest : Path} (bare : ∀ t ∈ s :: rest, IsBare t) :
    splitFrom false [] (s.toList ++ dotted rest) = s :: rest := by
  induction rest generalizing s with
  | nil =>
    have here := bare s List.mem_cons_self
    rw [dotted, List.flatMap_nil, List.append_nil, splitFrom_of_whole here.whole, List.reverse_nil,
      List.nil_append, dottedSegment, here.trimmed]
    simp [here.nonempty]
  | cons t rest ih =>
    rw [List.forall_mem_cons] at bare
    rw [dotted_cons, splitFrom_bare bare.1, ih bare.2]

/-- Bare segments that are joined are split again. -/
theorem split_join {p : Path} (bare : ∀ s ∈ p, IsBare s) : split (join p) = p := by
  cases p with
  | nil => rfl
  | cons s rest => rw [split, toList_join_cons, trimChars_join bare, splitFrom_join bare]

end Path

end Tabletop
