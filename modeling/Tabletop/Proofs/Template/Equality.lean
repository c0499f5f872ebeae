/-
Tabletop.Proofs.Template.Equality — equality of values, bare and wrapped.

Two numbers are equal as numbers, but inside a list or a mapping they are
equal only if they are built alike. So wrapping two values in equal lists and
mappings, however deep, changes nothing but for numbers that are equal apart:
a whole number and its double, or two whole numbers beyond the signed words
that share one. These are equal bare and differ in every wrapping, and all
wrappings agree (`equal_wrapped_iff`).

  §1 Numbers    — equal, and equal apart.
  §2 Contexts   — lists and mappings around a value, layer by layer.
  §3 Operators  — equality of what is wrapped.
-/
import Tabletop.Proofs.Number.Digits
import Tabletop.Proofs.Template.Ordering

namespace Tabletop

open Value

variable {a b : Value} {m n : Int}

/-! ## §1 Numbers -/

/-- A whole number is equal to itself as a double, be that an infinity. -/
theorem ofInt_beq_self (n : Int) : (Float.ofInt n == Float.ofInt n) = true := by
  by_cases word : n.natAbs < wordBound
  · exact float_beq_self (modest_ofInt word).isFinite
  · unfold wordBound at word
    have long : 53 ≤ n.natAbs.log2 := (Nat.le_log2 (by omega)).mpr (by omega)
    rcases ofInt_cases_of_long long with ⟨_, e, _, normal⟩ | ⟨large, _⟩
    · exact float_beq_self normal.isFinite
    · cases n with
      | ofNat n =>
        have infinite : Float.ofInt (.ofNat n) = infinity := ofNat_of_overflowBound_le large
        rw [infinite]
        rfl
      | negSucc n =>
        have infinite : Float.ofNat (n + 1) = infinity := ofNat_of_overflowBound_le large
        change (-(Float.ofNat (n + 1)) == -(Float.ofNat (n + 1))) = true
        rw [infinite]
        rfl

/-- The numbers are equal without being built alike. -/
inductive Value.EqualApart : Value → Value → Prop
  | left {n : Int} {x : Float} (equal : (Float.ofInt n == x) = true) :
      EqualApart (.int n) (.float x)
  | right {n : Int} {x : Float} (equal : (x == Float.ofInt n) = true) :
      EqualApart (.float x) (.int n)
  | beyond {m n : Int} (differ : m ≠ n) (outside : (fitsInt64 m && fitsInt64 n) = false)
      (equal : (Float.ofInt m == Float.ofInt n) = true) : EqualApart (.int m) (.int n)

theorem numeric?_float (x : Float) : (Value.float x).numeric? = some (.float x) := rfl

theorem valuesEqual_int (m n : Int) : valuesEqual (.int m) (.int n)
    = if fitsInt64 m && fitsInt64 n then m == n else Float.ofInt m == Float.ofInt n := by
  rcases numeric?_int m with ⟨fitm, hm⟩ | ⟨fitm, hm⟩ <;>
    rcases numeric?_int n with ⟨fitn, hn⟩ | ⟨fitn, hn⟩ <;>
    rw [valuesEqual_of_numbers hm hn nofun nofun, fitm, fitn] <;> rfl

theorem valuesEqual_int_float (n : Int) (x : Float) :
    valuesEqual (.int n) (.float x) = (Float.ofInt n == x) := by
  rcases numeric?_int n with ⟨_, hn⟩ | ⟨_, hn⟩ <;>
    rw [valuesEqual_of_numbers hn (numeric?_float x) nofun nofun] <;> rfl

theorem valuesEqual_float_int (x : Float) (n : Int) :
    valuesEqual (.float x) (.int n) = (x == Float.ofInt n) := by
  rcases numeric?_int n with ⟨_, hn⟩ | ⟨_, hn⟩ <;>
    rw [valuesEqual_of_numbers (numeric?_float x) hn nofun nofun] <;> rfl

/-- Values that are built alike are equal. -/
theorem valuesEqual_of_same (h : same a b = true) : valuesEqual a b = true := by
  cases a with
  | int m =>
    cases b with
    | int n =>
      have equal : m = n := beq_iff_eq.mp h
      rw [valuesEqual_int, equal, ofInt_beq_self, beq_self_eq_true, ite_self]
    | _ => cases h
  | float x =>
    cases b with
    | float y => exact h
    | _ => cases h
  | _ => exact h

/-- Equal values that are not built alike are numbers that are equal apart. -/
theorem equalApart_iff : a.EqualApart b ↔ valuesEqual a b = true ∧ same a b = false := by
  constructor
  · rintro (equal | equal | ⟨differ, outside, equal⟩)
    · exact ⟨by rw [valuesEqual_int_float, equal], rfl⟩
    · exact ⟨by rw [valuesEqual_float_int, equal], rfl⟩
    · refine ⟨by rw [valuesEqual_int, outside, equal]; rfl, ?_⟩
      exact beq_false_of_ne differ
  · rintro ⟨equal, apart⟩
    cases a with
    | int m =>
      cases b with
      | int n =>
        have differ : m ≠ n := ne_of_beq_false apart
        rw [valuesEqual_int, beq_false_of_ne differ] at equal
        cases outside : fitsInt64 m && fitsInt64 n with
        | true =>
          rw [outside] at equal
          cases equal
        | false =>
          rw [outside] at equal
          exact .beyond differ outside equal
      | float y =>
        rw [valuesEqual_int_float] at equal
        exact .left equal
      | _ => cases equal
    | float x =>
      cases b with
      | int n =>
        rw [valuesEqual_float_int] at equal
        exact .right equal
      | float y => exact absurd (equal.symm.trans apart) nofun
      | _ => cases equal
    | _ => exact absurd (equal.symm.trans apart) nofun

/-! ## §2 Contexts -/

/-- One layer of a context: the rest of a list or of a mapping around a place in it. -/
inductive Value.Layer where
  | item (before after : List Value)
  | field (fields : Fields) (key : String)

/-- The list or the mapping with the value in its place. -/
def Value.Layer.around : Layer → Value → Value
  | .item before after, v => .list (before ++ v :: after)
  | .field fields key, v => .mapping (Entries.insert fields key v)

/-- The value in the context; the first layer is the outermost one. -/
def Value.wrap (layers : List Layer) (v : Value) : Value := layers.foldr Layer.around v

/-- The layers are equal: of one kind, with the place at one position, and the same around it. -/
inductive Value.Layer.Same : Layer → Layer → Prop
  | item {before before' after after' : List Value}
      (front : same (.list before) (.list before') = true)
      (back : same (.list after) (.list after') = true) :
      Same (.item before after) (.item before' after')
  | field {fields fields' : Fields} {key : String} (keys : Entries.NodupKeys fields)
      (others : same (.mapping (Entries.insert fields key .null))
        (.mapping (Entries.insert fields' key .null)) = true) :
      Same (.field fields key) (.field fields' key)

/-- Of mappings that are the same but for one field, it is this field that counts. -/
theorem same_insert {fields fields' : Fields} {key : String} (keys : Entries.NodupKeys fields)
    (others : same (.mapping (Entries.insert fields key .null))
      (.mapping (Entries.insert fields' key .null)) = true) :
    same (.mapping (Entries.insert fields key a)) (.mapping (Entries.insert fields' key b))
      = same a b := by
  rw [same_mapping_iff_get? (keys.insert key .null)] at others
  obtain ⟨length, each⟩ := others
  rw [Bool.eq_iff_iff, same_mapping_iff_get? (keys.insert key a)]
  constructor
  · rintro ⟨_, field⟩
    obtain ⟨w, found, same⟩ := field key a (Entries.get?_insert_self fields key a)
    rw [Entries.get?_insert_self] at found
    cases found
    exact same
  · intro same
    rw [Entries.length_insert fields key a .null, Entries.length_insert fields' key b .null]
    refine ⟨length, fun other v found => ?_⟩
    by_cases place : key = other
    · subst place
      rw [Entries.get?_insert_self] at found ⊢
      cases found
      exact ⟨b, rfl, same⟩
    · rw [Entries.get?_insert_ne _ place] at found ⊢
      have field := each other v
      rw [Entries.get?_insert_ne _ place, Entries.get?_insert_ne _ place] at field
      exact field found

/-- In equal layers it is the values that count. -/
theorem Value.Layer.Same.same_around {l l' : Layer} (h : l.Same l') (a b : Value) :
    same (l.around a) (l'.around b) = same a b := by
  cases h with
  | item front back =>
    rw [same] at front back
    rw [around, around, same, sameItems_append front, sameItems, back, Bool.and_true]
  | field keys others => exact same_insert keys others

/-- In equal contexts of any depth it is the values that count. -/
theorem same_wrap {layers layers' : List Layer} (h : List.Forall₂ Layer.Same layers layers') :
    same (wrap layers a) (wrap layers' b) = same a b := by
  induction h with
  | nil => rfl
  | cons layer _ ih => exact (layer.same_around _ _).trans ih

/-- What is in a context is equal if it is built alike. -/
theorem valuesEqual_wrap {layers layers' : List Layer}
    (h : List.Forall₂ Layer.Same layers layers') (inside : layers ≠ []) :
    valuesEqual (wrap layers a) (wrap layers' b) = same a b := by
  rw [← same_wrap h]
  cases h with
  | nil => exact absurd rfl inside
  | cons layer _ => cases layer <;> rfl

/-! ## §3 Operators -/

/-- In a list and in every other wrapping, equality is the same; and it is that of the bare values,
except for numbers that are equal apart, which are equal only bare. -/
theorem equal_wrapped_iff {scope : Scope} {l r : Expr} {layers layers' : List Layer}
    (hl : l.eval scope = .ok a) (hr : r.eval scope = .ok b)
    (h : List.Forall₂ Layer.Same layers layers') (inside : layers ≠ []) :
    ∃ bare wrapped : Bool,
      (Expr.binary .equal l r).eval scope = .ok (.bool bare) ∧
        (Expr.binary .equal (.list [l]) (.list [r])).eval scope = .ok (.bool wrapped) ∧
        applyBinary .equal (wrap layers a) (wrap layers' b) = .ok (.bool wrapped) ∧
        (wrapped = true → bare = true) ∧ (bare = wrapped ↔ ¬ a.EqualApart b) := by
  have listl : (Expr.list [l]).eval scope = .ok (.list [a]) := by
    rw [Expr.eval, evalAll, hl]
    rfl
  have listr : (Expr.list [r]).eval scope = .ok (.list [b]) := by
    rw [Expr.eval, evalAll, hr]
    rfl
  have list : valuesEqual (.list [a]) (.list [b]) = same a b :=
    valuesEqual_wrap (.cons (@Layer.Same.item [] [] [] [] rfl rfl) .nil) (List.cons_ne_nil _ _)
  refine ⟨valuesEqual a b, same a b, eval_binary .equal hl hr, ?_, ?_, valuesEqual_of_same, ?_⟩
  · rw [eval_binary .equal listl listr, applyBinary, list]
  · rw [applyBinary, valuesEqual_wrap h inside]
  · rw [equalApart_iff]
    cases built : same a b with
    | true => simp [valuesEqual_of_same built]
    | false => simp

/-- A pack is what it holds, though one lists its gold first and the other its items. -/
theorem pack_of_torch :
    let layers : List Layer := [.field [("gold", .int 5), ("items", .null)] "items",
      .item [.text "rope"] []]
    let layers' : List Layer := [.field [("items", .null), ("gold", .int 5)] "items",
      .item [.text "rope"] []]
    List.Forall₂ Layer.Same layers layers' ∧
      ∃ bare wrapped : Bool,
        (Expr.binary .equal (.variable "torch") (.literal (.text "torch"))).eval
            (Fields.scope [("torch", .text "torch")]) = .ok (.bool bare) ∧
          applyBinary .equal (wrap layers (.text "torch")) (wrap layers' (.text "torch"))
            = .ok (.bool wrapped) ∧
          bare = wrapped := by
  have equal : List.Forall₂ Layer.Same
      [.field [("gold", .int 5), ("items", .null)] "items", .item [.text "rope"] []]
      [.field [("items", .null), ("gold", .int 5)] "items", .item [.text "rope"] []] :=
    .cons (.field (by decide) rfl) (.cons (.item rfl rfl) .nil)
  obtain ⟨bare, wrapped, hbare, _, hwrapped, _, alike⟩ :=
    @equal_wrapped_iff (.text "torch") (.text "torch") (Fields.scope [("torch", .text "torch")])
      (.variable "torch") (.literal (.text "torch")) _ _ rfl rfl equal (List.cons_ne_nil _ _)
  exact ⟨equal, bare, wrapped, hbare, hwrapped, alike.mpr nofun⟩

/-- One is its double and is found in a list that holds it, but the lists of the two are unequal. -/
theorem one_in_list :
    let one : Expr := .literal (.int 1)
    let double : Expr := .literal (.float (Float.ofInt 1))
    let scope := Fields.scope []
    (Expr.binary .equal one double).eval scope = .ok (.bool true) ∧
      (Expr.binary .isIn double (.list [one])).eval scope = .ok (.bool true) ∧
      (Expr.binary .equal (.list [one]) (.list [double])).eval scope = .ok (.bool false) :=
  ⟨rfl, rfl, rfl⟩

end Tabletop
