/-
Tabletop.Proofs.Machine.Eval — the value of an expression on the machine.

The values that the machine computes with lie in its memory, where no text
and no list is longer than the greatest signed word. It puts every value
that it makes there, and is out of memory if the value is too long; apart
from that it never stops, and the value is that of the expression. What is
in memory has a length that is a word, also as a signed one, and so has a
position counted from its end.

  §1 Memory
  §2 The machine
  §3 Values in memory
  §4 Positions and filters
  §5 Expressions
-/
import Tabletop.Proofs.Entries
import Tabletop.Proofs.Machine.Arithmetic
import Tabletop.Template.Eval

namespace Tabletop

mutual

/-- The expression and the expressions in it. -/
def Expr.parts : Expr → List Expr
  | .literal l => [.literal l]
  | .list items => .list items :: Expr.partsOfAll items
  | .variable name => [.variable name]
  | .attribute base name => .attribute base name :: base.parts
  | .index base position => .index base position :: (base.parts ++ position.parts)
  | .filter target name arguments =>
      .filter target name arguments :: (target.parts ++ Expr.partsOfAll arguments)
  | .not inner => .not inner :: inner.parts
  | .negate inner => .negate inner :: inner.parts
  | .and left right => .and left right :: (left.parts ++ right.parts)
  | .or left right => .or left right :: (left.parts ++ right.parts)
  | .binary op left right => .binary op left right :: (left.parts ++ right.parts)
  | .guarded value condition => .guarded value condition :: (condition.parts ++ value.parts)
  | .choice value condition otherwise =>
      .choice value condition otherwise :: (condition.parts ++ value.parts ++ otherwise.parts)

/-- The expressions and those in them. -/
def Expr.partsOfAll : List Expr → List Expr
  | [] => []
  | e :: rest => e.parts ++ Expr.partsOfAll rest

end

theorem Expr.mem_parts (e : Expr) : e ∈ e.parts := by
  cases e <;> exact List.mem_cons_self

namespace Machine

/-! ## §1 Memory -/

/-- The greatest length of a text in bytes, and of a list. -/
def maxLength : Nat := 9223372036854775807

/-- The value itself is not too long. -/
def hasRoom : Value → Bool
  | .text s => s.utf8ByteSize ≤ maxLength
  | .list items => items.length ≤ maxLength
  | .mapping fields => fields.length ≤ maxLength
  | .null => true
  | .bool _ => true
  | .int _ => true
  | .float _ => true

/-- Neither the value nor any value in it is too long. -/
inductive Fits : Value → Prop
  | plain {v : Value} (h : Plain v) : Fits v
  | text {s : String} (short : s.utf8ByteSize ≤ maxLength) : Fits (.text s)
  | list {items : List Value} (short : items.length ≤ maxLength) (each : ∀ v ∈ items, Fits v) :
      Fits (.list items)
  | mapping {fields : Fields} (short : fields.length ≤ maxLength)
      (each : ∀ f ∈ fields, Fits f.2) : Fits (.mapping fields)

/-- Puts a value into memory. -/
def store (v : Value) : Machine Value := if hasRoom v then .ok v else .error .outOfMemory

/-! ## §2 The machine -/

/-- A length as a signed word, which wraps around where it does not fit. -/
def asSigned (length : Nat) : Int := Int.bmod length wordBound

/-- The place of an item, counted from the end of the list if it is negative. -/
def place (length : Nat) (n : Int) : Machine Int :=
  if n < 0 then int64 (asSigned length + n) else .ok n

/-- The item, character or field at a computed position. -/
def atPosition? (base position : Value) : Machine (Option Value) :=
  match base, position with
  | .list items, .int n =>
      match asInt64 n with
      | some n => do
          let i ← place items.length n
          .ok (if i < 0 then none else items[i.toNat]?)
      | none => .ok none
  | base, position => .ok (base.atPosition? position)

/-- The number of characters, items or fields; null has none. -/
def lengthOf : Value → Attempt Fault Value
  | .text s => do
      let n ← word s.length
      pure (.int n)
  | .list items => do
      let n ← word items.length
      pure (.int n)
  | .mapping fields => do
      let n ← word fields.length
      pure (.int n)
  | .null => pure (.int 0)
  | other => throw (.lengthUndefined other.kind)

/-- The magnitude of a signed word; that of the least one is the greatest. -/
def magnitude (n : Int) : Machine Int :=
  if n = int64Min then .ok int64Max
  else if n < 0 then int64 (-n)
  else .ok n

/-- The magnitude of a number. -/
def absolute (v : Value) : Attempt Fault Value :=
  match v.numeric? with
  | some (.int n) => do
      let k ← magnitude n
      pure (.int k)
  | some (.float x) => pure (.ofFloat x.abs)
  | none => throw (.absoluteNonNumber v.kind)

/-- The value of the filter of a name. -/
def applyFilter (name : String) (v : Value) (arguments : List Value) : Attempt Fault Value :=
  match Filter.named? name with
  | some .length => lengthOf v
  | some .abs => absolute v
  | some f => settle (f.apply v arguments)
  | none => throw (.unknownFilter name)

mutual

/-- The value of an expression in a scope. -/
def eval (scope : Scope) : Expr → Attempt Fault Value
  | .literal l => liftM (store l.value)
  | .list items => do
      let values ← evalEach scope items
      liftM (store (.list values))
  | .variable name => pure ((scope [name]).getD .null)
  | .attribute base name =>
      match (Expr.attribute base name).staticPath? with
      | some path => pure ((scope path).getD .null)
      | none => do
          let v ← eval scope base
          pure ((v.child? name).getD .null)
  | .index base position =>
      match (Expr.index base position).staticPath? with
      | some path => pure ((scope path).getD .null)
      | none => do
          let v ← eval scope base
          let p ← eval scope position
          let found ← atPosition? v p
          pure (found.getD .null)
  | .filter target name arguments => do
      let v ← eval scope target
      let values ← evalEach scope arguments
      let w ← applyFilter name v values
      liftM (store w)
  | .not inner => do
      let v ← eval scope inner
      pure (.bool (!v.truthy))
  | .negate inner => do
      let v ← eval scope inner
      negate v
  | .and left right => do
      let v ← eval scope left
      if v.truthy then eval scope right else pure v
  | .or left right => do
      let v ← eval scope left
      if v.truthy then pure v else eval scope right
  | .binary op left right => do
      let l ← eval scope left
      let r ← eval scope right
      let v ← applyBinary op l r
      liftM (store v)
  | .guarded value condition => do
      let c ← eval scope condition
      if c.truthy then eval scope value else pure .null
  | .choice value condition otherwise => do
      let c ← eval scope condition
      if c.truthy then eval scope value else eval scope otherwise

/-- The values of expressions, left to right. -/
def evalEach (scope : Scope) : List Expr → Attempt Fault (List Value)
  | [] => pure []
  | e :: rest => do
      let v ← eval scope e
      let vs ← evalEach scope rest
      pure (v :: vs)

end

/-! ## §3 Values in memory -/

section Memory

variable {v w : Value}

theorem fits_text {s : String} (room : Machine.hasRoom (.text s) = true) : Fits (.text s) :=
  .text (of_decide_eq_true room)

theorem Fits.of_mem {items : List Value} (h : Fits (.list items)) (mem : w ∈ items) : Fits w := by
  cases h with
  | plain h => cases h
  | list short each => exact each w mem

/-- The children of a value in memory are there too. -/
theorem Fits.child? (h : Fits v) {segment : String} (child : v.child? segment = some w) :
    Fits w := by
  cases h with
  | plain h => cases h <;> cases child
  | text short => cases child
  | list short each =>
    obtain ⟨i, -, found⟩ := Option.bind_eq_some_iff.mp child
    exact each w (List.mem_of_getElem? found)
  | mapping short each => exact each (segment, w) (Entries.mem_of_get? child)

theorem Fits.getD_null {found : Option Value} (h : ∀ w, found = some w → Fits w) :
    Fits (found.getD .null) := by
  cases found with
  | none => exact .plain .null
  | some w => exact h w rfl

/-- What stands at a position of a value in memory fits, if it has room itself. -/
theorem Fits.atPosition? (h : Fits v) {position : Value}
    (found : v.atPosition? position = some w) : Fits w := by
  unfold Value.atPosition? at found
  split at found
  · obtain ⟨n, -, found⟩ := Option.bind_eq_some_iff.mp found
    dsimp only at found
    generalize (if n < 0 then _ else _ : Int) = i at found
    split at found
    · cases found
    · exact h.of_mem (List.mem_of_getElem? found)
  · obtain ⟨n, -, found⟩ := Option.bind_eq_some_iff.mp found
    split at found
    · cases found
    · obtain ⟨c, -, rfl⟩ := Option.map_eq_some_iff.mp found
      have small := c.utf8Size_le_four
      refine .text ?_
      rw [String.utf8ByteSize_ofList, String.utf8Len_cons, String.utf8Len_nil]
      unfold maxLength
      omega
  · exact h.child? found
  · cases found

/-- The value of an operator fits if it has room itself: what is in it was in the operands. -/
theorem fits_applyBinary {op : BinaryOp} {l r : Value} (hl : Fits l) (hr : Fits r)
    (h : Tabletop.applyBinary op l r = .ok v) (room : Machine.hasRoom v = true) : Fits v := by
  obtain plain | ⟨text, rfl⟩ | ⟨a, b, rfl, rfl, rfl⟩ := applyBinary_cases h
  · exact .plain plain
  · exact fits_text room
  · refine .list (of_decide_eq_true room) fun w mem => ?_
    obtain left | right := List.mem_append.mp mem
    · exact hl.of_mem left
    · exact hr.of_mem right

theorem fits_getD {arguments : List Value} (each : ∀ a ∈ arguments, Fits a) (i : Nat)
    (other : Fits w) : Fits (arguments[i]?.getD w) := by
  cases found : arguments[i]? with
  | none => exact other
  | some a => exact each a (List.mem_of_getElem? found)

theorem fits_charValue (c : Option Char) (room : Machine.hasRoom (charValue c) = true) :
    Fits (charValue c) := by
  cases c with
  | none => exact .plain .null
  | some c => exact fits_text room

theorem fits_defaulted {arguments : List Value} (hv : Fits v) (each : ∀ a ∈ arguments, Fits a) :
    Fits (defaulted v arguments) := by
  have blank : Fits (.text "") := .text (by decide)
  unfold defaulted
  cases arguments[1]? with
  | none =>
    dsimp only
    split
    · exact fits_getD each 0 blank
    · exact hv
  | some flag =>
    dsimp only
    split
    · exact fits_getD each 0 blank
    · exact hv

theorem fits_joined (separator : String) (room : Machine.hasRoom (joined v separator) = true) :
    Fits (joined v separator) := by
  unfold joined at room ⊢
  cases v <;> exact fits_text room

theorem fits_firstOf (hv : Fits v) (room : Machine.hasRoom (firstOf v) = true) :
    Fits (firstOf v) := by
  unfold firstOf at room ⊢
  cases v with
  | list items => exact Fits.getD_null fun w found => hv.of_mem (List.mem_of_head? found)
  | text s => exact fits_charValue _ room
  | _ => exact .plain .null

theorem fits_lastOf (hv : Fits v) (room : Machine.hasRoom (lastOf v) = true) :
    Fits (lastOf v) := by
  unfold lastOf at room ⊢
  cases v with
  | list items => exact Fits.getD_null fun w found => hv.of_mem (List.mem_of_getLast? found)
  | text s => exact fits_charValue _ room
  | _ => exact .plain .null

/-- The value of a filter fits if it has room itself: it is an argument, or in the value, or is new
and has nothing in it. -/
theorem fits_applyFilter {name : String} {arguments : List Value} (hv : Fits v)
    (each : ∀ a ∈ arguments, Fits a) (h : Tabletop.applyFilter name v arguments = .ok w)
    (room : Machine.hasRoom w = true) : Fits w := by
  unfold Tabletop.applyFilter at h
  cases named : Filter.named? name with
  | none =>
    rw [named] at h
    cases h
  | some f =>
    rw [named] at h
    cases f with
    | upper => cases h; exact fits_text room
    | lower => cases h; exact fits_text room
    | title => cases h; exact fits_text room
    | capitalize => cases h; exact fits_text room
    | trim => cases h; exact fits_text room
    | string => cases h; exact fits_text room
    | length =>
      change Tabletop.lengthOf v = .ok w at h
      unfold Tabletop.lengthOf at h
      split at h <;> cases h <;> exact .plain (.int _)
    | default => cases h; exact fits_defaulted hv each
    | int =>
      cases h
      split
      · exact .plain (.int _)
      · exact fits_getD each 0 (.plain (.int 0))
    | float =>
      cases h
      split
      · exact .plain (plain_ofFloat _)
      · exact fits_getD each 0 (.plain (.float 0))
    | bool => cases h; exact .plain (.bool _)
    | round =>
      change roundedTo v _ = .ok w at h
      unfold roundedTo at h
      split at h
      · cases h
      · cases h
        exact .plain (plain_ofFloat _)
    | abs =>
      change Tabletop.absolute v = .ok w at h
      unfold Tabletop.absolute at h
      split at h
      · cases h; exact .plain (.int _)
      · cases h; exact .plain (plain_ofFloat _)
      · cases h
    | join => cases h; exact fits_joined _ room
    | first => cases h; exact fits_firstOf hv room
    | last => cases h; exact fits_lastOf hv room
    | replace =>
      unfold Filter.apply at h
      dsimp only at h
      split at h
      · cases h
        exact fits_text room
      · cases h

end Memory

/-! ## §4 Positions and filters -/

section Access

variable {v : Value}

theorem asSigned_eq {length : Nat} (short : length ≤ maxLength) : asSigned length = length := by
  unfold maxLength at short
  unfold asSigned wordBound
  exact Int.bmod_eq_of_le (by omega) (by omega)

/-- The place of an item is a signed word. -/
theorem place_eq {length : Nat} {n : Int} (short : length ≤ maxLength)
    (fits : fitsInt64 n = true) : place length n = .ok (if n < 0 then length + n else n) := by
  unfold place
  split
  · rw [asSigned_eq short, int64_eq]
    rw [fitsInt64_iff] at fits ⊢
    unfold maxLength at short
    omega
  · rfl

theorem atPosition?_eq (h : Fits v) (position : Value) :
    atPosition? v position = .ok (v.atPosition? position) := by
  unfold atPosition?
  split
  · rename_i items n
    cases h with
    | plain h => cases h
    | list short each =>
      rw [Value.atPosition?]
      cases fits : asInt64 n with
      | none => rfl
      | some m =>
        dsimp only
        rw [bind_eq (place_eq short (fitsInt64_of_asInt64 fits))]
        rfl
  · rfl

theorem word_of_short {n : Nat} (short : n ≤ maxLength) : word n = .ok n :=
  word_eq (Nat.lt_of_le_of_lt short (by decide))

theorem lengthOf_eq (h : Fits v) : lengthOf v = settle (Tabletop.lengthOf v) := by
  cases h with
  | plain h => cases h <;> rfl
  | @text s short =>
    have fewer : s.length ≤ maxLength := by
      rw [← String.length_toList]
      exact (length_le_utf8Len s.toList).trans ((utf8Len_toList s).trans_le short)
    rw [lengthOf, lift_bind (word_of_short fewer)]
    rfl
  | list short each =>
    rw [lengthOf, lift_bind (word_of_short short)]
    rfl
  | mapping short each =>
    rw [lengthOf, lift_bind (word_of_short short)]
    rfl

theorem magnitude_eq {n : Int} (fits : fitsInt64 n = true) :
    magnitude n = .ok (clampInt int64Min int64Max n.natAbs) := by
  rw [fitsInt64_iff] at fits
  unfold magnitude clampInt int64Min int64Max
  split
  · rename_i least
    rw [least]
    rfl
  · split
    · rw [int64_eq (fitsInt64_iff.mpr (by omega)), if_neg (by omega), if_neg (by omega)]
      congr 1
      omega
    · rw [if_neg (by omega), if_neg (by omega)]
      congr 1
      omega

theorem absolute_eq (v : Value) : absolute v = settle (Tabletop.absolute v) := by
  unfold absolute Tabletop.absolute
  cases numeric : v.numeric? with
  | none => rfl
  | some a =>
    cases a with
    | int n =>
      dsimp only
      rw [lift_bind (magnitude_eq (fits_of_numeric? numeric))]
      rfl
    | float x => rfl

theorem applyFilter_eq (h : Fits v) (name : String) (arguments : List Value) :
    applyFilter name v arguments = settle (Tabletop.applyFilter name v arguments) := by
  unfold applyFilter Tabletop.applyFilter
  cases Filter.named? name with
  | none => rfl
  | some f =>
    cases f with
    | length => exact lengthOf_eq h
    | abs => exact absolute_eq v
    | _ => rfl

end Access

/-! ## §5 Expressions -/

/-- One of the expressions has a value that is too long for the memory. -/
def Crowded (scope : Scope) (parts : List Expr) : Prop :=
  ∃ part ∈ parts, ∃ v, part.eval scope = .ok v ∧ hasRoom v = false

/-- The machine has the value in its memory. -/
inductive Held : Value → Value → Prop
  | intro {v : Value} (fits : Fits v) : Held v v

/-- The machine has the values in its memory. -/
inductive HeldEach : List Value → List Value → Prop
  | intro {vs : List Value} (each : ∀ v ∈ vs, Fits v) : HeldEach vs vs

section Storing

variable {spent : Prop} {v : Value}

/-- A value is stored if it has room. -/
theorem store_held (fits : hasRoom v = true → Fits v) (crowded : hasRoom v = false → spent) :
    Answers spent Held (.ok v : Except Fault Value) (liftM (store v)) := by
  unfold store
  by_cases room : hasRoom v = true
  · rw [if_pos room]
    exact .value ⟨fits room⟩
  · rw [if_neg room]
    exact .memory (crowded (Bool.not_eq_true _ ▸ room)) _

theorem settle_held {x : Except Fault Value} (fits : ∀ v, x = .ok v → hasRoom v = true → Fits v)
    (crowded : ∀ v, x = .ok v → hasRoom v = false → spent) :
    Answers spent Held x (settle x >>= fun v => liftM (store v)) := by
  cases x with
  | error fault => exact .fault fault
  | ok v => exact store_held (fits v rfl) (crowded v rfl)

theorem crowded_self {scope : Scope} (e : Expr) (value : e.eval scope = .ok v)
    (full : hasRoom v = false) : Crowded scope e.parts :=
  ⟨e, e.mem_parts, v, value, full⟩

/-- What is too long for a part is too long for the whole. -/
theorem Answers.within {α β ε : Type} {few more : List Expr} {scope : Scope} {R : α → β → Prop}
    {x : Except ε α} {m : Attempt ε β} (h : Answers (Crowded scope few) R x m)
    (sub : ∀ part ∈ few, part ∈ more) : Answers (Crowded scope more) R x m :=
  h.mono (fun ⟨part, mem, crowded⟩ => ⟨part, sub part mem, crowded⟩) fun _ _ => id

end Storing

section Expressions

variable {scope : Scope}

mutual

/-- The machine computes the value of an expression, or has no room for the value of a part of
it. -/
theorem eval_held (fits : ∀ path v, scope path = some v → Fits v) (e : Expr) :
    Answers (Crowded scope e.parts) Held (e.eval scope) (eval scope e) := by
  have found : ∀ path, Held ((scope path).getD .null) ((scope path).getD .null) := fun path =>
    ⟨Fits.getD_null (fits path)⟩
  match e with
  | .literal l =>
    rw [Expr.eval, eval]
    refine store_held (fun room => ?_) (crowded_self (.literal l) (by rw [Expr.eval]))
    cases l with
    | null => exact .plain .null
    | bool flag => exact .plain (.bool flag)
    | int n => exact .plain (.int n)
    | float x => exact .plain (.float x)
    | text s => exact fits_text room
  | .list items =>
    rw [Expr.eval, eval]
    refine ((evalEach_held fits items).within fun p mem => by simp [Expr.parts, mem]).bind_of_eq ?_
    rintro values _ computed ⟨each⟩
    refine store_held (fun room => .list (of_decide_eq_true room) each)
      (crowded_self (.list items) ?_)
    rw [Expr.eval, computed]
    rfl
  | .variable name =>
    rw [Expr.eval, eval]
    exact .value (found _)
  | .attribute base name =>
    rw [Expr.eval, eval]
    cases (Expr.attribute base name).staticPath? with
    | some path => exact .value (found path)
    | none =>
      refine ((eval_held fits base).within fun p mem => by simp [Expr.parts, mem]).bind ?_
      rintro v _ ⟨hv⟩
      exact .value ⟨Fits.getD_null fun w child => hv.child? child⟩
  | .index base position =>
    rw [Expr.eval, eval]
    cases (Expr.index base position).staticPath? with
    | some path => exact .value (found path)
    | none =>
      refine ((eval_held fits base).within fun p mem => by simp [Expr.parts, mem]).bind ?_
      rintro v _ ⟨hv⟩
      refine ((eval_held fits position).within fun p mem => by simp [Expr.parts, mem]).bind ?_
      rintro q _ ⟨hq⟩
      rw [lift_bind (atPosition?_eq hv q)]
      exact .value ⟨Fits.getD_null fun w item => hv.atPosition? item⟩
  | .filter target name arguments =>
    rw [Expr.eval, eval]
    refine ((eval_held fits target).within fun p mem => by simp [Expr.parts, mem]).bind_of_eq ?_
    rintro v _ first ⟨hv⟩
    refine ((evalEach_held fits arguments).within fun p mem => by
      simp [Expr.parts, mem]).bind_of_eq ?_
    rintro values _ others ⟨each⟩
    rw [applyFilter_eq hv]
    refine settle_held (fun w => fits_applyFilter hv each) fun w result =>
      crowded_self (.filter target name arguments) ?_
    rw [Expr.eval, first, others]
    exact result
  | .not inner =>
    rw [Expr.eval, eval]
    refine ((eval_held fits inner).within fun p mem => by simp [Expr.parts, mem]).bind ?_
    rintro v _ ⟨hv⟩
    exact .value ⟨.plain (.bool _)⟩
  | .negate inner =>
    rw [Expr.eval, eval]
    refine ((eval_held fits inner).within fun p mem => by simp [Expr.parts, mem]).bind ?_
    rintro v _ ⟨hv⟩
    rw [negate_eq]
    cases result : Tabletop.negate v with
    | error fault => exact .fault fault
    | ok w => exact .value ⟨.plain (plain_negate result)⟩
  | .and left right =>
    rw [Expr.eval, eval]
    refine ((eval_held fits left).within fun p mem => by simp [Expr.parts, mem]).bind ?_
    rintro v _ ⟨hv⟩
    split
    · exact (eval_held fits right).within fun p mem => by simp [Expr.parts, mem]
    · exact .value ⟨hv⟩
  | .or left right =>
    rw [Expr.eval, eval]
    refine ((eval_held fits left).within fun p mem => by simp [Expr.parts, mem]).bind ?_
    rintro v _ ⟨hv⟩
    split
    · exact .value ⟨hv⟩
    · exact (eval_held fits right).within fun p mem => by simp [Expr.parts, mem]
  | .binary op left right =>
    rw [Expr.eval, eval]
    refine ((eval_held fits left).within fun p mem => by simp [Expr.parts, mem]).bind_of_eq ?_
    rintro l _ first ⟨hl⟩
    refine ((eval_held fits right).within fun p mem => by simp [Expr.parts, mem]).bind_of_eq ?_
    rintro r _ second ⟨hr⟩
    rw [applyBinary_eq]
    refine settle_held (fun v => fits_applyBinary hl hr) fun v result =>
      crowded_self (.binary op left right) ?_
    rw [Expr.eval, first, second]
    exact result
  | .guarded value condition =>
    rw [Expr.eval, eval]
    refine ((eval_held fits condition).within fun p mem => by simp [Expr.parts, mem]).bind ?_
    rintro c _ ⟨hc⟩
    split
    · exact (eval_held fits value).within fun p mem => by simp [Expr.parts, mem]
    · exact .value ⟨.plain .null⟩
  | .choice value condition otherwise =>
    rw [Expr.eval, eval]
    refine ((eval_held fits condition).within fun p mem => by simp [Expr.parts, mem]).bind ?_
    rintro c _ ⟨hc⟩
    split
    · exact (eval_held fits value).within fun p mem => by simp [Expr.parts, mem]
    · exact (eval_held fits otherwise).within fun p mem => by simp [Expr.parts, mem]

theorem evalEach_held (fits : ∀ path v, scope path = some v → Fits v) (es : List Expr) :
    Answers (Crowded scope (Expr.partsOfAll es)) HeldEach (evalAll scope es)
      (evalEach scope es) := by
  match es with
  | [] =>
    rw [evalAll, evalEach]
    exact .value ⟨by simp⟩
  | e :: rest =>
    rw [evalAll, evalEach]
    refine ((eval_held fits e).within fun p mem => by simp [Expr.partsOfAll, mem]).bind ?_
    rintro v _ ⟨hv⟩
    refine ((evalEach_held fits rest).within fun p mem => by simp [Expr.partsOfAll, mem]).bind ?_
    rintro vs _ ⟨each⟩
    exact .value ⟨List.forall_mem_cons.mpr ⟨hv, each⟩⟩

end

end Expressions

end Machine

end Tabletop
