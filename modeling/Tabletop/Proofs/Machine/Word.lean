/-
Tabletop.Proofs.Machine.Word — computing with machine words.

A text is addressed by the offsets of its bytes and a list by positions;
both are unsigned 64-bit words, and whole numbers are signed ones. A sum
that is no word, a position that is not there, and a piece of a text that
begins or ends inside a character have no result: they stop the machine. So
does a loop that takes more rounds than it is given, and a value that is too
long for the memory.

  §1 Stops
  §2 Words
  §3 Loops
  §4 Pieces of texts
  §5 Pieces of lists
  §6 Answers
-/
import Mathlib.Data.String.Basic
import Tabletop.Number.Reading

namespace Tabletop

/-! ## §1 Stops -/

/-- Why the machine stops. -/
inductive Halt where
  /-- A piece of a text begins or ends inside a character. -/
  | insideCharacter
  | outOfRange
  | overflow
  /-- A loop has no more rounds left. -/
  | endless
  | outOfMemory
  deriving DecidableEq, Repr

/-- A computation that may stop the machine. -/
abbrev Machine (α : Type) := Except Halt α

namespace Machine

variable {α β σ : Type}

theorem bind_eq {x : Machine α} {a : α} (h : x = .ok a) (k : α → Machine β) :
    (x >>= k) = k a := by
  rw [h]
  rfl

/-! ## §2 Words -/

/-- An unsigned word. -/
def word (n : Nat) : Machine Nat := if n < wordBound then .ok n else .error .overflow

theorem word_eq {n : Nat} (h : n < wordBound) : word n = .ok n := if_pos h

/-- A signed word. -/
def int64 (n : Int) : Machine Int := if fitsInt64 n then .ok n else .error .overflow

theorem int64_eq {n : Int} (h : fitsInt64 n = true) : int64 n = .ok n := if_pos h

/-! ## §3 Loops -/

/-- Goes from state to state until a round has the result. -/
def loop (round : σ → Machine (σ ⊕ α)) : (rounds : Nat) → σ → Machine α
  | 0, _ => .error .endless
  | rounds + 1, s => do
      match ← round s with
      | .inl next => loop round rounds next
      | .inr result => .ok result

theorem loop_next {round : σ → Machine (σ ⊕ α)} {s next : σ} (h : round s = .ok (.inl next))
    (rounds : Nat) : loop round (rounds + 1) s = loop round rounds next := by
  rw [loop, bind_eq h]

theorem loop_done {round : σ → Machine (σ ⊕ α)} {s : σ} {result : α}
    (h : round s = .ok (.inr result)) (rounds : Nat) :
    loop round (rounds + 1) s = .ok result := by
  rw [loop, bind_eq h]

/-! ## §4 Pieces of texts -/

/-- The text from a byte on. -/
def dropBytes : List Char → (count : Nat) → Machine (List Char)
  | cs, 0 => .ok cs
  | [], _ + 1 => .error .outOfRange
  | c :: rest, count + 1 =>
      if c.utf8Size ≤ count + 1 then dropBytes rest (count + 1 - c.utf8Size)
      else .error .insideCharacter

/-- The text up to a byte. -/
def takeBytes : List Char → (count : Nat) → Machine (List Char)
  | _, 0 => .ok []
  | [], _ + 1 => .error .outOfRange
  | c :: rest, count + 1 =>
      if c.utf8Size ≤ count + 1 then do
        let more ← takeBytes rest (count + 1 - c.utf8Size)
        .ok (c :: more)
      else .error .insideCharacter

/-- The text between two bytes. -/
def bytes (cs : List Char) (start stop : Nat) : Machine (List Char) :=
  if stop < start then .error .outOfRange
  else do
    let rest ← dropBytes cs start
    takeBytes rest (stop - start)

open String (utf8Len)

/-- A text has no more characters than bytes. -/
theorem length_le_utf8Len (cs : List Char) : cs.length ≤ utf8Len cs := by
  induction cs with
  | nil => exact Nat.le_refl _
  | cons c cs ih =>
    have := c.utf8Size_pos
    rw [List.length_cons, String.utf8Len_cons]
    omega

theorem utf8Len_toList (s : String) : utf8Len s.toList = s.utf8ByteSize := by
  rw [← String.utf8ByteSize_ofList, String.ofList_toList]

theorem exists_utf8Len_cons (c : Char) (cs : List Char) :
    ∃ count, utf8Len (c :: cs) = count + 1 := by
  refine Nat.exists_eq_succ_of_ne_zero ?_
  have := c.utf8Size_pos
  rw [String.utf8Len_cons]
  omega

theorem dropBytes_append (few more : List Char) :
    dropBytes (few ++ more) (utf8Len few) = .ok more := by
  induction few with
  | nil => cases more <;> rfl
  | cons c few ih =>
    obtain ⟨count, hc⟩ := exists_utf8Len_cons c few
    rw [hc, List.cons_append, dropBytes, ← hc, String.utf8Len_cons, if_pos (Nat.le_add_left _ _),
      Nat.add_sub_cancel, ih]

theorem takeBytes_append (few more : List Char) :
    takeBytes (few ++ more) (utf8Len few) = .ok few := by
  induction few with
  | nil => cases more <;> rfl
  | cons c few ih =>
    obtain ⟨count, hc⟩ := exists_utf8Len_cons c few
    rw [hc, List.cons_append, takeBytes, ← hc, String.utf8Len_cons, if_pos (Nat.le_add_left _ _),
      Nat.add_sub_cancel, bind_eq ih]

/-- The piece between the bytes where it begins and ends. -/
theorem bytes_append (before piece after : List Char) :
    bytes (before ++ piece ++ after) (utf8Len before) (utf8Len before + utf8Len piece)
      = .ok piece := by
  rw [bytes, if_neg (by omega), List.append_assoc, bind_eq (dropBytes_append before _),
    Nat.add_sub_cancel_left, takeBytes_append]

example : bytes ['é', 'a'] 1 3 = .error .insideCharacter := by decide

/-! ## §5 Pieces of lists -/

/-- The item at a position. -/
def item (items : List α) (position : Nat) : Machine α :=
  match items[position]? with
  | some a => .ok a
  | none => .error .outOfRange

/-- The items between two positions. -/
def slice (items : List α) (start stop : Nat) : Machine (List α) :=
  if start ≤ stop ∧ stop ≤ items.length then .ok ((items.drop start).take (stop - start))
  else .error .outOfRange

/-- The position at which a tail of the items begins. -/
def startOf (items tail : List α) : Nat := items.length - tail.length

section Tails

variable {items piece tail : List α} {a : α}

theorem startOf_self (items : List α) : startOf items items = 0 := Nat.sub_self _

theorem startOf_nil (items : List α) : startOf items [] = items.length := rfl

theorem drop_startOf (h : tail <:+ items) : items.drop (startOf items tail) = tail :=
  (List.suffix_iff_eq_drop.mp h).symm

theorem startOf_le (items tail : List α) : startOf items tail ≤ items.length := Nat.sub_le _ _

/-- Behind a piece begins the tail that is left. -/
theorem startOf_append (h : piece ++ tail <:+ items) :
    startOf items (piece ++ tail) + piece.length = startOf items tail := by
  have := h.length_le
  rw [List.length_append] at this
  rw [startOf, startOf, List.length_append]
  omega

theorem startOf_succ (h : a :: tail <:+ items) :
    startOf items (a :: tail) + 1 = startOf items tail :=
  @startOf_append _ items [a] tail h

theorem startOf_lt (h : a :: tail <:+ items) : startOf items (a :: tail) < items.length := by
  have := startOf_succ h
  have := startOf_le items tail
  omega

theorem tail_suffix (h : a :: tail <:+ items) : tail <:+ items := (List.suffix_cons a tail).trans h

theorem getElem?_startOf (h : tail <:+ items) : items[startOf items tail]? = tail.head? := by
  rw [← Nat.add_zero (startOf items tail), ← List.getElem?_drop, drop_startOf h,
    List.head?_eq_getElem?]

theorem item_startOf (h : a :: tail <:+ items) :
    item items (startOf items (a :: tail)) = .ok a := by
  rw [item, getElem?_startOf h]
  rfl

/-- The piece between the positions where it begins and ends. -/
theorem slice_startOf (h : piece ++ tail <:+ items) :
    slice items (startOf items (piece ++ tail)) (startOf items tail) = .ok piece := by
  have behind := startOf_append h
  have inside := startOf_le items tail
  rw [slice, if_pos (by omega), drop_startOf h, ← behind, Nat.add_sub_cancel_left,
    List.take_left]

/-- Some of the items at the head of a tail. -/
theorem slice_take (h : tail <:+ items) (count : Nat) :
    slice items (startOf items tail) (min items.length (startOf items tail + count))
      = .ok (tail.take count) := by
  have split : tail.take count ++ tail.drop count = tail := List.take_append_drop count tail
  have stop : min items.length (startOf items tail + count) = startOf items (tail.drop count) := by
    have := h.length_le
    rw [startOf, startOf, List.length_drop]
    omega
  have cut := slice_startOf (split.symm ▸ h : tail.take count ++ tail.drop count <:+ items)
  rwa [split, ← stop] at cut

end Tails

/-! ## §6 Answers -/

/-- A computation that may come to a fault, on a machine that may stop. -/
abbrev Attempt (ε α : Type) := ExceptT ε Machine α

/-- The machine comes to the same fault, or to a related value. It may be out of memory if `spent`
holds. -/
inductive Answers {ε : Type} (spent : Prop) (R : α → β → Prop) :
    Except ε α → Attempt ε β → Prop
  | value {a : α} {b : β} (related : R a b) : Answers spent R (.ok a) (pure b)
  | fault (e : ε) : Answers spent R (.error e) (throw e)
  | memory (h : spent) (r : Except ε α) :
      Answers spent R r (liftM (throw .outOfMemory : Machine β))

section Attempts

variable {ε γ δ : Type}

/-- The machine comes to the result without a stop. -/
def settle : Except ε α → Attempt ε α
  | .ok a => pure a
  | .error e => throw e

theorem lift_bind {x : Machine α} {a : α} (h : x = .ok a) (k : α → Attempt ε β) :
    ((liftM x : Attempt ε α) >>= k) = k a := by
  rw [h]
  rfl

variable {spent : Prop} {R : α → β → Prop} {S : γ → δ → Prop}

/-- What goes on from related values goes on after an answer. -/
theorem Answers.bind_of_eq {x : Except ε α} {m : Attempt ε β} {k : α → Except ε γ}
    {n : β → Attempt ε δ} (h : Answers spent R x m)
    (next : ∀ a b, x = .ok a → R a b → Answers spent S (k a) (n b)) :
    Answers spent S (x >>= k) (m >>= n) := by
  cases h with
  | value related => exact next _ _ rfl related
  | fault e => exact .fault e
  | memory short => exact .memory short _

theorem Answers.bind {x : Except ε α} {m : Attempt ε β} {k : α → Except ε γ} {n : β → Attempt ε δ}
    (h : Answers spent R x m) (next : ∀ a b, R a b → Answers spent S (k a) (n b)) :
    Answers spent S (x >>= k) (m >>= n) :=
  h.bind_of_eq fun a b _ => next a b

theorem Answers.mono {few more : Prop} {x : Except ε α} {m : Attempt ε β} {T : α → β → Prop}
    (h : Answers few R x m) (spent : few → more) (related : ∀ a b, R a b → T a b) :
    Answers more T x m := by
  cases h with
  | value r => exact .value (related _ _ r)
  | fault e => exact .fault e
  | memory short => exact .memory (spent short) _

/-- What is made of the value in the end is made of the machine's. -/
theorem Answers.after {x : Except ε α} {m : Attempt ε β} {T : γ → β → Prop}
    (h : Answers spent R x m) (f : α → γ) (related : ∀ a b, R a b → T (f a) b) :
    Answers spent T (x >>= fun a => .ok (f a)) m := by
  cases h with
  | value r => exact .value (related _ _ r)
  | fault e => exact .fault e
  | memory short => exact .memory short _

/-- Faults may be put in other words. -/
theorem Answers.adapt {ε' : Type} {x : Except ε α} {m : Attempt ε β} (h : Answers spent R x m)
    (f : ε → ε') : Answers spent R (x.mapError f) (ExceptT.adapt f m) := by
  cases h with
  | value related => exact .value related
  | fault e => exact .fault (f e)
  | memory short => exact .memory short _

end Attempts

end Machine

end Tabletop
