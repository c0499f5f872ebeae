/-
Tabletop.Proofs.Template.Access — chains of accesses, at once and step by step.

A chain whose indices are written out is one lookup in the scope, with a
segment for each access; any other chain takes its last access from the
value of its base. On lists, and for names and keys, it makes no difference.
A number behind anything but a list does: a lookup takes its digits for a
key of a mapping, where a single access finds nothing, and a single access
cuts a character out of a text, where a lookup finds nothing. Chains without
such a number have one value, however they are evaluated and whether their
indices are written out or are variables that hold them.

  §1 Scopes of nested values
  §2 Accesses
  §3 One access, as a segment and by itself
  §4 Numbers that are keys and numbers that cut texts
  §5 Chains of accesses in a value
  §6 Chains of accesses in a scope
-/
import Tabletop.Proofs.Context.Agreement
import Tabletop.Proofs.Template.Dotted

namespace Tabletop

/-! ## §1 Scopes of nested values -/

/-- Below a name the scope has what the value of the name has there. -/
def Scope.Nested (s : Scope) : Prop :=
  ∀ name rest, s (name :: rest) = (s [name]).bind fun v => v.at? rest

theorem Value.nested_scope (v : Value) : v.scope.Nested :=
  fun name rest => v.at?_append [name] rest

theorem Fields.nested_scope (fields : Fields) : (Fields.scope fields).Nested := by
  intro name rest
  simp only [Fields.scope]
  cases Entries.get? fields name <;> rfl

theorem Context.nested_scope (c : Context) : c.scope.Nested := by
  intro name rest
  change c.lookup (name :: rest) = (c.lookup [name]).bind fun v => v.at? rest
  cases ha : Entries.get? c.aliases name with
  | some v =>
    rw [lookup_of_alias ha, lookup_of_alias ha]
    rfl
  | none =>
    rw [lookup_space ha]
    cases rest with
    | nil =>
      rw [lookup_space ha]
      cases Entries.get? c.spaces name <;> rfl
    | cons entry rest =>
      rw [lookup_entry ha, stored?_entry, slot?]
      cases Entries.get? c.spaces name with
      | none => rfl
      | some slots =>
        change _ = ((slotsValue slots).child? entry).bind fun v => v.at? rest
        rw [show (slotsValue slots).child? entry = (Entries.get? slots entry).map Slot.value from
          Entries.get?_map Slot.value slots entry, Option.bind_map]
        rfl

theorem Scope.Nested.append {s : Scope} (h : s.Nested) (name : String) (p q : Path) :
    s (name :: p ++ q) = (s (name :: p)).bind fun v => v.at? q := by
  rw [List.cons_append, h name (p ++ q), h name p, Option.bind_assoc]
  congr 1
  funext v
  exact v.at?_append p q

/-! ## §2 Accesses -/

/-- An access behind an expression: an attribute, or an index that is a text or a number. -/
inductive Access where
  | field (name : String)
  | key (text : String)
  | position (n : Nat)
  deriving DecidableEq

namespace Access

/-- The access as a segment of a path. -/
def segment : Access → String
  | .field name => name
  | .key text => text
  | .position n => natText n

/-- The value between the brackets. -/
def index? : Access → Option Value
  | .field _ => none
  | .key text => some (.text text)
  | .position n => some (.int n)

/-- What the access finds in a value, by itself. -/
def find? (v : Value) : Access → Option Value
  | .field name => v.child? name
  | .key text => v.atPosition? (.text text)
  | .position n => v.atPosition? (.int n)

/-- The access behind an expression, with its index written out. -/
def behind (base : Expr) : Access → Expr
  | .field name => .attribute base name
  | .key text => .index base (.literal (.text text))
  | .position n => .index base (.literal (.int n))

end Access

/-- The path of accesses. -/
def segmentsOf (accesses : List Access) : Path := accesses.map Access.segment

/-- The value behind an access; null if there is none. -/
def Value.step (v : Value) (a : Access) : Value := (a.find? v).getD .null

/-- The value behind accesses, one after the other. -/
def Value.walk (v : Value) (accesses : List Access) : Value := accesses.foldl Value.step v

/-- An access as it is written: with its index written out, or with a variable for it. -/
structure Spelling where
  access : Access
  holder : Option String

namespace Spelling

/-- The access behind an expression, as it is written. -/
def behind (base : Expr) (w : Spelling) : Expr :=
  match w.holder with
  | none => w.access.behind base
  | some i => .index base (.variable i)

/-- The variable, if there is one, holds the index. -/
def Holds (s : Scope) (w : Spelling) : Prop :=
  ∀ i, w.holder = some i → ∃ v, w.access.index? = some v ∧ s [i] = some v

/-- The accesses up to the first index that a variable stands for. -/
def ahead (written : List Spelling) : List Access :=
  (written.takeWhile (·.holder.isNone)).map access

/-- The accesses from the first index that a variable stands for on. -/
def later (written : List Spelling) : List Access :=
  (written.dropWhile (·.holder.isNone)).map access

end Spelling

/-- The accesses with their indices written out. -/
def literally (accesses : List Access) : List Spelling := accesses.map fun a => ⟨a, none⟩

/-- The chain of accesses that starts at a name. -/
def Expr.chain (name : String) (written : List Spelling) : Expr :=
  written.foldl Spelling.behind (.variable name)

section Equations

variable {v : Value} {a : Access} {accesses more : List Access} {name : String}
  {written : List Spelling} {w : Spelling}

@[simp] theorem segmentsOf_append : segmentsOf (accesses ++ more)
    = segmentsOf accesses ++ segmentsOf more := List.map_append

theorem Value.walk_append : v.walk (accesses ++ more) = (v.walk accesses).walk more :=
  List.foldl_append

theorem Value.walk_concat : v.walk (accesses ++ [a]) = (v.walk accesses).step a :=
  Value.walk_append

theorem at?_concat : v.at? (segmentsOf (accesses ++ [a]))
    = (v.at? (segmentsOf accesses)).bind fun w => w.child? a.segment := by
  rw [segmentsOf_append, Value.at?_append]
  congr 1
  funext w
  exact Option.bind_fun_some _

theorem Expr.chain_concat : Expr.chain name (written ++ [w]) = w.behind (Expr.chain name written) :=
  List.foldl_append

end Equations

/-! ## §3 One access, as a segment and by itself -/

section Single

variable {v w : Value} {a : Access}

theorem index?_natText {n : Nat} (h : n < wordBound) : Path.index? (natText n) = some n := by
  have digits : (natText n).toList = natDigits n := String.toList_ofList
  have unsigned : ∀ rest, natDigits n ≠ '+' :: rest := by
    intro rest plus
    have digit : Char.isDigit '+' = true :=
      isDigit_of_mem_natDigits (plus ▸ List.mem_cons_self : '+' ∈ natDigits n)
    exact absurd digit (by decide)
  rw [Path.index?, digits, readWord.eq_2 _ unsigned]
  exact readDigits_natDigits h

/-- A list has the same item under the digits of a position. -/
theorem child?_list {items : List Value} {n : Nat} (fits : fitsInt64 n = true) :
    (Value.list items).child? (natText n) = items[n]? := by
  rw [Value.child?, index?_natText (lt_wordBound fits)]
  rfl

theorem atPosition?_list {items : List Value} {n : Nat} (fits : fitsInt64 n = true) :
    (Value.list items).atPosition? (.int n) = items[n]? := by
  simp only [Value.atPosition?, asInt64, fits, if_true, Option.bind_some]
  rw [if_neg (by omega), if_neg (by omega), Int.toNat_natCast]

theorem atPosition?_beyond {n : Nat} (beyond : fitsInt64 n = false) (v : Value) :
    v.atPosition? (.int n) = none := by
  cases v <;> simp [Value.atPosition?, asInt64, beyond]

/-- A text has a character at a position below its length. -/
theorem atPosition?_text {s : String} {n : Nat} {w : Value}
    (h : (Value.text s).atPosition? (.int n) = some w) :
    ∃ c, s.toList[n]? = some c ∧ w = .text (String.ofList [c]) := by
  cases fits : fitsInt64 n with
  | false =>
    rw [atPosition?_beyond fits] at h
    cases h
  | true =>
    simp only [Value.atPosition?, asInt64, fits, if_true, Option.bind_some] at h
    rw [if_neg (by omega), Int.toNat_natCast] at h
    obtain ⟨c, there, rfl⟩ := Option.map_eq_some_iff.mp h
    exact ⟨c, there, rfl⟩

theorem atPosition?_key (v : Value) (text : String) :
    v.atPosition? (.text text) = v.child? text := by
  cases v <;> rfl

/-- What a lookup finds an access finds by itself, unless it is a number that stands for no item. -/
theorem find?_of_child? (h : v.child? a.segment = some w) :
    a.find? v = some w ∨ a.find? v = none := by
  cases a with
  | field name => exact Or.inl h
  | key text => exact Or.inl ((atPosition?_key v text).trans h)
  | position n =>
    cases fits : fitsInt64 n with
    | false => exact Or.inr (atPosition?_beyond fits v)
    | true =>
      cases v with
      | list items => exact Or.inl ((atPosition?_list fits).trans ((child?_list fits).symm.trans h))
      | mapping fields => exact Or.inr rfl
      | _ => cases h

/-- What an access finds by itself a lookup finds, unless it is a character of a text. -/
theorem child?_of_find? (h : a.find? v = some w) :
    v.child? a.segment = some w ∨ ∃ (n : Nat) (s : String), a = .position n ∧ v = .text s := by
  cases a with
  | field name => exact Or.inl h
  | key text => exact Or.inl ((atPosition?_key v text).symm.trans h)
  | position n =>
    cases v with
    | list items =>
      cases fits : fitsInt64 n with
      | false =>
        rw [Access.find?, atPosition?_beyond fits] at h
        cases h
      | true => exact Or.inl ((child?_list fits).trans ((atPosition?_list fits).symm.trans h))
    | text s => exact Or.inr ⟨n, s, rfl, rfl⟩
    | _ => cases h

theorem step_of_find? (h : a.find? v = some w) : v.step a = w := by
  rw [Value.step, h]
  rfl

theorem step_of_find?_none (h : a.find? v = none) : v.step a = .null := by
  rw [Value.step, h]
  rfl

end Single

/-! ## §4 Numbers that are keys and numbers that cut texts -/

namespace Value

/-- A number of the accesses is a key: the accesses lead to something, and one of them is a number
that stands for no item of the value before it. -/
def KeyedByNumber (v : Value) (accesses : List Access) : Prop :=
  (v.at? (segmentsOf accesses)).getD .null ≠ .null ∧
  ∃ before, ∃ n : Nat, ∃ after base, accesses = before ++ .position n :: after ∧
    v.at? (segmentsOf before) = some base ∧ base.atPosition? (.int n) = none

/-- A number of the accesses cuts a text: one after the other they lead to a text that has a
character there, and every further access takes that character out of itself. -/
def CutsText (v : Value) (accesses : List Access) : Prop :=
  ∃ before, ∃ n : Nat, ∃ after s, accesses = before ++ .position n :: after ∧
    v.walk before = .text s ∧
    ((Value.text s).atPosition? (.int n)).isSome ∧ ∀ a ∈ after, a = .position 0

variable {v w : Value} {a : Access} {accesses before after : List Access}

theorem walk_null (accesses : List Access) : Value.null.walk accesses = .null := by
  induction accesses with
  | nil => rfl
  | cons a rest ih => cases a <;> exact ih

/-- Where a lookup leads, single accesses lead too, or to nothing. -/
theorem walk_of_at? (h : v.at? (segmentsOf accesses) = some w) :
    v.walk accesses = w ∨ v.walk accesses = .null := by
  induction accesses using List.reverseRecOn generalizing w with
  | nil =>
    cases h
    exact Or.inl rfl
  | append_singleton accesses a ih =>
    rw [at?_concat] at h
    obtain ⟨u, reached, found⟩ := Option.bind_eq_some_iff.mp h
    rw [walk_concat]
    rcases ih reached with same | nothing
    · rw [same]
      exact (find?_of_child? found).imp step_of_find? step_of_find?_none
    · rw [nothing]
      exact Or.inr (walk_null [a])

/-- The character of a text of one character is that text. -/
theorem step_character {c : Char} (h : a.find? (.text (String.ofList [c])) = some w) :
    a = .position 0 ∧ w = .text (String.ofList [c]) := by
  cases a with
  | field name => cases h
  | key text => cases h
  | position n =>
    obtain ⟨d, there, rfl⟩ := atPosition?_text h
    rw [String.toList_ofList] at there
    cases n with
    | zero =>
      cases there
      exact ⟨rfl, rfl⟩
    | succ n => cases there

theorem walk_character {c : Char} (zeros : ∀ a ∈ after, a = .position 0) :
    (Value.text (String.ofList [c])).walk after = .text (String.ofList [c]) := by
  induction after with
  | nil => rfl
  | cons a rest ih =>
    rw [List.forall_mem_cons] at zeros
    obtain ⟨rfl, zeros⟩ := zeros
    have again :
        (Value.text (String.ofList [c])).step (.position 0) = .text (String.ofList [c]) := by
      refine step_of_find? ?_
      simp only [Access.find?, Value.atPosition?, String.toList_ofList]
      rfl
    change ((Value.text (String.ofList [c])).step (.position 0)).walk rest = _
    rw [again]
    exact ih zeros

/-- A text that is cut leaves a character. -/
theorem CutsText.walk (h : v.CutsText accesses) :
    ∃ c : Char, v.walk accesses = .text (String.ofList [c]) := by
  obtain ⟨before, n, after, s, rfl, reached, cut, zeros⟩ := h
  obtain ⟨w, found⟩ := Option.isSome_iff_exists.mp cut
  obtain ⟨c, _, rfl⟩ := atPosition?_text found
  refine ⟨c, ?_⟩
  rw [walk_append, reached]
  change ((Value.text s).step (.position n)).walk after = _
  rw [step_of_find? (show (Access.position n).find? (.text s) = _ from found)]
  exact walk_character zeros

/-- No lookup leads into a text. -/
theorem CutsText.at? (h : v.CutsText accesses) : v.at? (segmentsOf accesses) = none := by
  obtain ⟨before, n, after, s, rfl, reached, _, _⟩ := h
  rw [segmentsOf_append, at?_append]
  cases there : v.at? (segmentsOf before) with
  | none => rfl
  | some base =>
    rcases walk_of_at? there with same | nothing
    · rw [reached] at same
      subst same
      rfl
    · rw [reached] at nothing
      cases nothing

/-- By single accesses, a number that stands for no item leads to nothing. -/
theorem KeyedByNumber.walk (h : v.KeyedByNumber accesses) : v.walk accesses = .null := by
  obtain ⟨_, before, n, after, base, rfl, reached, missing⟩ := h
  have nothing : (v.walk before).step (.position n) = .null := by
    rcases walk_of_at? reached with same | null
    · rw [same]
      exact step_of_find?_none missing
    · rw [null]
      rfl
  rw [walk_append]
  change ((v.walk before).step (.position n)).walk after = .null
  rw [nothing, walk_null]

/-! ## §5 Chains of accesses in a value -/

/-- Where single accesses lead to something, a lookup leads there too, or a text is cut. -/
theorem at?_of_walk (something : v.walk accesses ≠ .null) :
    v.at? (segmentsOf accesses) = some (v.walk accesses) ∨ v.CutsText accesses := by
  induction accesses using List.reverseRecOn with
  | nil => exact Or.inl rfl
  | append_singleton accesses a ih =>
    rw [walk_concat] at something ⊢
    have before : v.walk accesses ≠ .null := by
      intro nothing
      rw [nothing] at something
      exact something (walk_null [a])
    obtain ⟨w, found⟩ : ∃ w, a.find? (v.walk accesses) = some w := by
      cases found : a.find? (v.walk accesses) with
      | none => exact absurd (step_of_find?_none found) something
      | some w => exact ⟨w, rfl⟩
    rw [step_of_find? found]
    rcases ih before with reached | cut
    · rcases child?_of_find? found with there | ⟨n, s, rfl, text⟩
      · left
        rw [at?_concat, reached]
        exact there
      · right
        rw [text] at found
        exact ⟨accesses, n, [], s, rfl, text, Option.isSome_iff_exists.mpr ⟨w, found⟩,
          fun _ h => absurd h List.not_mem_nil⟩
    · obtain ⟨c, character⟩ := cut.walk
      rw [character] at found
      obtain ⟨rfl, rfl⟩ := step_character found
      obtain ⟨front, n, after, s, rfl, reached, there, zeros⟩ := cut
      refine Or.inr ⟨front, n, after ++ [.position 0], s, by simp, reached, there, ?_⟩
      intro b hb
      rcases List.mem_append.mp hb with hb | hb
      · exact zeros b hb
      · exact List.mem_singleton.mp hb

/-- If every number stands for an item, single accesses lead where a lookup leads. -/
theorem walk_of_items (reached : v.at? (segmentsOf accesses) = some w)
    (items : ∀ before (n : Nat) after base, accesses = before ++ .position n :: after →
      v.at? (segmentsOf before) = some base → base.atPosition? (.int n) ≠ none) :
    v.walk accesses = w := by
  induction accesses using List.reverseRecOn generalizing w with
  | nil => exact Option.some.inj reached
  | append_singleton accesses a ih =>
    rw [at?_concat] at reached
    obtain ⟨u, front, found⟩ := Option.bind_eq_some_iff.mp reached
    have same : v.walk accesses = u := by
      refine ih front fun before n after base split => ?_
      exact items before n (after ++ [a]) base (by rw [split]; simp)
    rw [walk_concat, same]
    rcases find?_of_child? found with there | missing
    · exact step_of_find? there
    · cases a with
      | field name => exact absurd (found.symm.trans missing) (by simp)
      | key text =>
        exact absurd (found.symm.trans ((atPosition?_key u text).symm.trans missing)) (by simp)
      | position n => exact absurd missing (items accesses n [] u rfl front)

/-- A lookup in a value agrees with single accesses exactly if no number is a key and none cuts a
text. -/
theorem at?_eq_walk_iff (v : Value) (accesses : List Access) :
    (v.at? (segmentsOf accesses)).getD .null = v.walk accesses ↔
      ¬ v.KeyedByNumber accesses ∧ ¬ v.CutsText accesses := by
  constructor
  · intro same
    constructor
    · intro keyed
      exact keyed.1 (same.trans keyed.walk)
    · intro cut
      obtain ⟨c, character⟩ := cut.walk
      rw [cut.at?, character] at same
      cases same
  · rintro ⟨unkeyed, whole⟩
    by_cases nothing : v.walk accesses = .null
    · by_contra different
      rw [nothing] at different
      cases there : v.at? (segmentsOf accesses) with
      | none => exact different (by rw [there]; rfl)
      | some w =>
        refine different ?_
        have items : ∀ before (n : Nat) after base, accesses = before ++ .position n :: after →
            v.at? (segmentsOf before) = some base → base.atPosition? (.int n) ≠ none :=
          fun before n after base split reached missing =>
            unkeyed ⟨different, before, n, after, base, split, reached, missing⟩
        rw [← nothing, walk_of_items there items, there]
        rfl
    · rcases at?_of_walk nothing with reached | cut
      · rw [reached]
        rfl
      · exact absurd cut whole

end Value

/-! ## §6 Chains of accesses in a scope -/

section Chains

variable {s : Scope} {base e : Expr} {v : Value} {a : Access} {name : String} {p : Path}

theorem Access.staticPath?_behind (base : Expr) (a : Access) :
    (a.behind base).staticPath? = base.staticPath?.map (· ++ [a.segment]) := by
  cases a <;> rfl

theorem Expr.chain_literally_concat (name : String) (accesses : List Access) (a : Access) :
    Expr.chain name (literally (accesses ++ [a]))
      = a.behind (Expr.chain name (literally accesses)) := by
  rw [literally, List.map_append, List.map_singleton, chain_concat]
  rfl

theorem Expr.staticPath?_literally (name : String) (accesses : List Access) :
    (Expr.chain name (literally accesses)).staticPath? = some (name :: segmentsOf accesses) := by
  induction accesses using List.reverseRecOn with
  | nil => rfl
  | append_singleton accesses a ih =>
    rw [chain_literally_concat, a.staticPath?_behind, ih]
    simp [segmentsOf]

theorem Expr.exists_chain_behind
    (ih : ∀ {q}, base.staticPath? = some q →
      ∃ name accesses, base = Expr.chain name (literally accesses) ∧ q = name :: segmentsOf accesses)
    (h : (a.behind base).staticPath? = some p) :
    ∃ name accesses, a.behind base = Expr.chain name (literally accesses) ∧
      p = name :: segmentsOf accesses := by
  rw [a.staticPath?_behind] at h
  obtain ⟨front, reached, rfl⟩ := Option.map_eq_some_iff.mp h
  obtain ⟨name, accesses, rfl, rfl⟩ := ih reached
  exact ⟨name, accesses ++ [a], (chain_literally_concat name accesses a).symm,
    by simp [segmentsOf]⟩

/-- The chains that are one lookup are those with all their indices written out. -/
theorem Expr.staticPath?_eq_some_iff : e.staticPath? = some p ↔
    ∃ name accesses, e = Expr.chain name (literally accesses) ∧ p = name :: segmentsOf accesses := by
  constructor
  · intro h
    fun_induction Expr.staticPath? e generalizing p with
    | case1 name =>
      cases h
      exact ⟨name, [], rfl, rfl⟩
    | case2 base name ih => exact exists_chain_behind (a := .field name) ih h
    | case3 base text ih => exact exists_chain_behind (a := .key text) ih h
    | case4 base n ih => exact exists_chain_behind (a := .position n) ih h
    | case5 => cases h
  · rintro ⟨name, accesses, rfl, rfl⟩
    exact staticPath?_literally name accesses

/-- A chain with a variable for an index is no lookup. -/
theorem Expr.staticPath?_of_holder {written : List Spelling} {w : Spelling} (hw : w ∈ written)
    (held : w.holder.isSome) : (Expr.chain name written).staticPath? = none := by
  induction written using List.reverseRecOn with
  | nil => cases hw
  | append_singleton written last ih =>
    rw [chain_concat, Spelling.behind]
    cases hl : last.holder with
    | some i => rfl
    | none =>
      have earlier : w ∈ written := by
        rcases List.mem_append.mp hw with hw | hw
        · exact hw
        · rw [List.mem_singleton.mp hw, hl] at held
          cases held
      change (last.access.behind _).staticPath? = none
      rw [Access.staticPath?_behind, ih earlier]
      rfl

/-- A chain that is no lookup takes its last access from the value of its base. -/
theorem Access.eval_behind (single : (a.behind base).staticPath? = none)
    (value : base.eval s = .ok v) : (a.behind base).eval s = .ok (v.step a) := by
  cases a with
  | field name =>
    change (Expr.attribute base name).staticPath? = none at single
    change (Expr.attribute base name).eval s = _
    simp only [Expr.eval, single, value]
    rfl
  | key text =>
    change (Expr.index base (.literal (.text text))).staticPath? = none at single
    change (Expr.index base (.literal (.text text))).eval s = _
    simp only [Expr.eval, single, value]
    rfl
  | position n =>
    change (Expr.index base (.literal (.int n))).staticPath? = none at single
    change (Expr.index base (.literal (.int n))).eval s = _
    simp only [Expr.eval, single, value]
    rfl

theorem Access.eval_held {i : String} {index : Value} (is_index : a.index? = some index)
    (held : s [i] = some index) (value : base.eval s = .ok v) :
    (Expr.index base (.variable i)).eval s = .ok (v.step a) := by
  have computed : (Expr.index base (.variable i)).staticPath? = none := rfl
  simp only [Expr.eval, computed, value, held]
  cases a with
  | field name => cases is_index
  | key text | position n =>
    cases is_index
    rfl

/-- A chain is looked up until a variable stands for an index; from there on it is walked. -/
theorem Expr.eval_chain_append (front : List Access) {back : List Spelling}
    (first : ∀ w ∈ back.head?, w.holder.isSome) (held : ∀ w ∈ back, w.Holds s) :
    (Expr.chain name (literally front ++ back)).eval s
      = .ok (((s (name :: segmentsOf front)).getD .null).walk (back.map Spelling.access)) := by
  induction back using List.reverseRecOn with
  | nil =>
    rw [List.append_nil, Expr.eval_of_staticPath? (Expr.staticPath?_literally name front)]
    rfl
  | append_singleton back w ih =>
    have before := ih (fun u hu => first u (by rw [List.head?_append, hu]; rfl))
      fun u hu => held u (List.mem_append_left _ hu)
    rw [← List.append_assoc, chain_concat, List.map_append, List.map_singleton,
      Value.walk_concat, Spelling.behind]
    cases holder : w.holder with
    | some i =>
      obtain ⟨index, is_index, there⟩ := held w (List.mem_append_right _ List.mem_cons_self) i holder
      exact Access.eval_held is_index there before
    | none =>
      refine Access.eval_behind ?_ before
      rw [Access.staticPath?_behind]
      cases back with
      | nil =>
        have := first w rfl
        rw [holder] at this
        cases this
      | cons u rest =>
        rw [Expr.staticPath?_of_holder (List.mem_append_right _ List.mem_cons_self) (first u rfl)]
        rfl

theorem Spelling.literally_ahead (written : List Spelling) :
    literally (ahead written) ++ written.dropWhile (·.holder.isNone) = written := by
  have plain : literally (ahead written) = written.takeWhile (·.holder.isNone) := by
    rw [literally, ahead, List.map_map]
    conv_rhs => rw [← List.map_id (written.takeWhile _)]
    refine List.map_congr_left fun w hw => ?_
    have none := List.mem_takeWhile_imp hw
    rw [Option.isNone_iff_eq_none] at none
    obtain ⟨access, holder⟩ := w
    subst none
    rfl
  rw [plain, List.takeWhile_append_dropWhile]

theorem Spelling.ahead_append_later (written : List Spelling) :
    ahead written ++ later written = written.map access := by
  rw [ahead, later, ← List.map_append, List.takeWhile_append_dropWhile]

theorem Expr.eval_chain {written : List Spelling} (held : ∀ w ∈ written, w.Holds s) :
    (Expr.chain name written).eval s
      = .ok (((s (name :: segmentsOf (Spelling.ahead written))).getD .null).walk
          (Spelling.later written)) := by
  conv_lhs => rw [← Spelling.literally_ahead written]
  refine Expr.eval_chain_append _ ?_ fun w hw =>
    held w ((List.dropWhile_sublist _).subset hw)
  intro w hw
  have := List.head?_dropWhile_not (·.holder.isNone) written
  rw [Option.mem_def.mp hw] at this
  simpa using this

/-- Below nothing there is nothing, and below null there is null or nothing. -/
theorem getD_bind_at? (found : Option Value) (p : Path) :
    (found.bind fun v => v.at? p).getD .null = ((found.getD .null).at? p).getD .null := by
  cases found with
  | some v => rfl
  | none => cases p <;> rfl

/-- One-pass lookup. The chains that are one lookup are a name and accesses whose indices are
written out. The lookup agrees with taking the accesses one after the other exactly if no number is
a key and none cuts a text. And if variables that hold them stand for some of its indices, the
chain keeps its value exactly if that is so from the first such index on. -/
theorem Scope.Nested.lookup_agrees_iff (nested : s.Nested) :
    (∀ e p, e.staticPath? = some p ↔
      ∃ name accesses, e = Expr.chain name (literally accesses) ∧
        p = name :: segmentsOf accesses) ∧
    ∀ name accesses,
      let lookup := (s (name :: segmentsOf accesses)).getD .null
      let root := (s [name]).getD .null
      (Expr.chain name (literally accesses)).eval s = .ok lookup ∧
      (lookup = root.walk accesses ↔
        ¬ root.KeyedByNumber accesses ∧ ¬ root.CutsText accesses) ∧
      ∀ written : List Spelling, written.map Spelling.access = accesses →
        (∀ w ∈ written, w.Holds s) →
        let base := (s (name :: segmentsOf (Spelling.ahead written))).getD .null
        let rest := Spelling.later written
        (Expr.chain name written).eval s = .ok (base.walk rest) ∧
        (lookup = base.walk rest ↔ ¬ base.KeyedByNumber rest ∧ ¬ base.CutsText rest) := by
  refine ⟨fun e p => Expr.staticPath?_eq_some_iff, fun name accesses => ?_⟩
  intro lookup root
  refine ⟨Expr.eval_of_staticPath? (Expr.staticPath?_literally name accesses) s, ?_, ?_⟩
  · have below : lookup = (root.at? (segmentsOf accesses)).getD .null := by
      simp only [lookup, root, nested name (segmentsOf accesses), getD_bind_at?]
    rw [below]
    exact root.at?_eq_walk_iff accesses
  · intro written spelled held base rest
    have below : lookup = (base.at? (segmentsOf rest)).getD .null := by
      simp only [lookup, base, rest, ← spelled, ← Spelling.ahead_append_later, segmentsOf_append,
        ← List.cons_append, nested.append, getD_bind_at?]
    rw [below]
    exact ⟨Expr.eval_chain held, base.at?_eq_walk_iff rest⟩

end Chains

/-- A party of two, and the position of its second member. -/
def partyOfTwo : Fields :=
  [("party", .list [.mapping [("name", .text "Ada")], .mapping [("name", .text "Bo")]]),
    ("i", .int 1)]

/-- The name of a second member is the same with a variable for the position. -/
theorem partyOfTwo_names_second :
    let scope := Fields.scope partyOfTwo
    let written : List Spelling := [⟨.position 1, some "i"⟩, ⟨.field "name", none⟩]
    scope.Nested ∧ (∀ w ∈ written, w.Holds scope) ∧
      (Expr.chain "party" written).eval scope
        = (Expr.chain "party" (literally [.position 1, .field "name"])).eval scope ∧
      (Expr.chain "party" written).eval scope = .ok (.text "Bo") := by
  intro scope written
  have nested : scope.Nested := Fields.nested_scope partyOfTwo
  have held : ∀ w ∈ written, w.Holds scope := by
    rw [List.forall_mem_cons, List.forall_mem_singleton]
    constructor
    · intro i hi
      cases hi
      exact ⟨.int 1, rfl, rfl⟩
    · intro i hi
      cases hi
  obtain ⟨lookup, _, respelled⟩ :=
    nested.lookup_agrees_iff.2 "party" [.position 1, .field "name"]
  obtain ⟨value, _⟩ := respelled written rfl held
  refine ⟨nested, held, ?_, ?_⟩
  · rw [value, lookup]
    rfl
  · rw [value]
    rfl

/-- A name, ranks under digits, and a number. -/
def squire : Fields :=
  [("name", .text "Ada"), ("ranks", .mapping [("0", .text "squire")]), ("i", .int 0)]

/-- A number that is written out finds no letter of the name but the rank under its digits; a
variable that holds it finds the letter but no rank. -/
theorem squire_differs_by_spelling :
    let scope := Fields.scope squire
    let letter := Expr.index (.variable "name") (.literal (.int 0))
    let rank := Expr.index (.variable "ranks") (.literal (.int 0))
    (letter.staticPath? = some ["name", "0"] ∧ letter.eval scope = .ok .null ∧
      ((scope ["name"]).getD .null).walk [.position 0] = .text "A" ∧
      (Expr.index (.variable "name") (.variable "i")).eval scope = .ok (.text "A")) ∧
    rank.staticPath? = some ["ranks", "0"] ∧ rank.eval scope = .ok (.text "squire") ∧
      ((scope ["ranks"]).getD .null).walk [.position 0] = .null ∧
      (Expr.index (.variable "ranks") (.variable "i")).eval scope = .ok .null := by
  exact ⟨⟨rfl, rfl, rfl, rfl⟩, rfl, rfl, rfl, rfl⟩

end Tabletop
