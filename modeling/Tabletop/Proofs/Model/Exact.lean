/-
Tabletop.Proofs.Model.Exact — values of the primitive types.

Conversion into a primitive type gives null or a value of exactly that type.
For whole numbers that means a signed 64-bit one: what is read is in range or
refused, and doubles beyond the range go to its ends. What comes out of a
conversion is converted into itself, and so is every value that is the same.

  §1 Values of exactly a type
  §2 Converting twice
  §3 Where a conversion lands
-/
import Tabletop.Model.Primitive
import Tabletop.Proofs.Value.Same

namespace Tabletop

/-! ## §1 Values of exactly a type -/

/-- The value is of exactly the type. Null is of none. -/
def Primitive.isExact : Primitive → Value → Bool
  | .str, .text _ => true
  | .int, .int n => fitsInt64 n
  | .float, .float _ => true
  | .bool, .bool _ => true
  | .roll, .text _ => true
  | _, _ => false

theorem fitsInt64_truncateToInt64 (x : Float) : fitsInt64 (truncateToInt64 x) = true := by
  have clamped : ∀ n, int64Min ≤ clampInt int64Min int64Max n
      ∧ clampInt int64Min int64Max n ≤ int64Max := by
    intro n
    unfold clampInt int64Min int64Max
    split
    · omega
    · split <;> omega
  have bounds : int64Min ≤ truncateToInt64 x ∧ truncateToInt64 x ≤ int64Max := by
    unfold truncateToInt64 truncateFloat
    split
    · exact ⟨by decide, by decide⟩
    · split
      · exact clamped _
      · split <;> exact ⟨by decide, by decide⟩
  simp [fitsInt64, bounds]

theorem fitsInt64_of_readInt64 {cs : List Char} {n : Int} (h : readInt64 cs = some n) :
    fitsInt64 n = true := by
  unfold readInt64 at h
  split at h
  all_goals
    obtain ⟨_, _, h⟩ := Option.bind_eq_some_iff.mp h
    exact fitsInt64_of_asInt64 h

theorem fitsInt64_of_wholeToInt64? {x : Float} {n : Int} (h : wholeToInt64? x = some n) :
    fitsInt64 n = true := by
  unfold wholeToInt64? at h
  split at h
  · cases h
    exact fitsInt64_truncateToInt64 x
  · cases h

/-- A whole number that a value denotes is a signed 64-bit one. -/
theorem fitsInt64_of_toInt? {v : Value} {n : Int} (h : Primitive.toInt? v = some n) :
    fitsInt64 n = true := by
  cases v with
  | int m =>
    simp only [Primitive.toInt?] at h
    by_cases fits : fitsInt64 m = true
    · rw [if_pos fits] at h
      cases h
      exact fits
    · rw [if_neg fits] at h
      exact fitsInt64_of_wholeToInt64? h
  | float x => exact fitsInt64_of_wholeToInt64? h
  | bool flag =>
    cases flag <;> cases h <;> decide
  | text s =>
    simp only [Primitive.toInt?] at h
    cases hr : readInt64 (trimChars s.toList) with
    | some m =>
      simp only [hr] at h
      cases h
      exact fitsInt64_of_readInt64 hr
    | none =>
      simp only [hr] at h
      obtain ⟨_, _, h⟩ := Option.bind_eq_some_iff.mp h
      exact fitsInt64_of_wholeToInt64? h
  | _ => cases h

/-- The counterpart of a value is of exactly the type. -/
theorem Primitive.isExact_of_convert? {p : Primitive} {v w : Value} (h : p.convert? v = some w) :
    p.isExact w = true := by
  cases p with
  | str =>
    cases h
    rfl
  | roll =>
    cases h
    rfl
  | bool =>
    cases h
    rfl
  | int =>
    obtain ⟨n, hn, rfl⟩ := Option.map_eq_some_iff.mp h
    exact fitsInt64_of_toInt? hn
  | float =>
    obtain ⟨x, _, rfl⟩ := Option.map_eq_some_iff.mp h
    rfl

/-- A value converted into a primitive type is null or of exactly that type. -/
theorem isExact_of_coercePrimitive {p : Primitive} {name : String}
    (named : Primitive.named? name = some p) {v w : Value}
    (h : coercePrimitive v name = .ok w) : w = .null ∨ p.isExact w = true := by
  unfold coercePrimitive at h
  split at h
  · cases h
    exact Or.inl rfl
  · simp only [named] at h
    cases hc : p.convert? v with
    | none =>
      simp only [hc] at h
      cases h
    | some u =>
      simp only [hc] at h
      cases h
      exact Or.inr (Primitive.isExact_of_convert? hc)

/-! ## §2 Converting twice -/

/-- The counterpart of a value is its own counterpart. -/
theorem Primitive.convert?_convert? {p : Primitive} {v w : Value} (h : p.convert? v = some w) :
    p.convert? w = some w := by
  cases p with
  | str =>
    cases h
    rfl
  | roll =>
    cases h
    rfl
  | bool =>
    cases h
    rfl
  | int =>
    obtain ⟨n, hn, rfl⟩ := Option.map_eq_some_iff.mp h
    simp only [convert?, toInt?, fitsInt64_of_toInt? hn, if_true, Option.map_some]
  | float =>
    obtain ⟨x, hx, rfl⟩ := Option.map_eq_some_iff.mp h
    have finite : x.isFinite = true := (Option.filter_eq_some_iff.mp hx).2
    simp only [convert?, toFloat?, Value.toFloat?, Option.filter, finite, if_true, Option.map_some]

theorem Value.isNull_eq_false_iff {v : Value} : v.isNull = false ↔ v ≠ .null := by
  cases v <;> simp [Value.isNull]

/-- A value that is not null is converted into its counterpart, or refused if there is none. -/
theorem coercePrimitive_of_ne_null {p : Primitive} {name : String}
    (named : Primitive.named? name = some p) {v : Value} (hv : v ≠ .null) :
    coercePrimitive v name = match p.convert? v with
      | some w => .ok w
      | none => .error (.coercion v.compact name) := by
  have full := Value.isNull_eq_false_iff.mpr hv
  unfold coercePrimitive
  cases found : p.convert? v <;>
    simp only [full, Bool.false_eq_true, if_false, named, found]

theorem coercePrimitive_eq_ok_iff {p : Primitive} {name : String}
    (named : Primitive.named? name = some p) {v w : Value} (hv : v ≠ .null) :
    coercePrimitive v name = .ok w ↔ p.convert? v = some w := by
  rw [coercePrimitive_of_ne_null named hv]
  cases p.convert? v <;> simp

/-- What comes out of a conversion is converted into itself. -/
theorem coercePrimitive_idem {p : Primitive} {name : String}
    (named : Primitive.named? name = some p) {v w : Value}
    (h : coercePrimitive v name = .ok w) : coercePrimitive w name = .ok w := by
  by_cases hw : w = .null
  · rw [hw]
    rfl
  · have hv : v ≠ .null := by
      rintro rfl
      cases h
      exact hw rfl
    rw [coercePrimitive_eq_ok_iff named hv] at h
    exact (coercePrimitive_eq_ok_iff named hw).mpr (Primitive.convert?_convert? h)

/-- What is the same as something that is converted into itself is converted into itself. -/
theorem coercePrimitive_of_same {p : Primitive} {name : String}
    (named : Primitive.named? name = some p) {v w : Value} (same : v.same w = true)
    (h : coercePrimitive w name = .ok w) : coercePrimitive v name = .ok v := by
  cases w with
  | float y =>
    cases v with
    | float x =>
      rw [Value.same] at same
      rw [coercePrimitive_eq_ok_iff named (by simp)] at h ⊢
      cases p with
      | float =>
        obtain ⟨z, hz, equal⟩ := Option.map_eq_some_iff.mp h
        cases equal
        have finite : y.isFinite = true := (Option.filter_eq_some_iff.mp hz).2
        have finite : x.isFinite = true := Value.isFinite_of_float_beq same finite
        simp only [Primitive.convert?, Primitive.toFloat?, Value.toFloat?, Option.filter, finite,
          if_true, Option.map_some]
      | int =>
        obtain ⟨n, _, equal⟩ := Option.map_eq_some_iff.mp h
        cases equal
      | _ => cases h
    | _ => cases same
  | list items =>
    rcases isExact_of_coercePrimitive named h with null | exact_type
    · cases null
    · cases p <;> cases exact_type
  | mapping fields =>
    rcases isExact_of_coercePrimitive named h with null | exact_type
    · cases null
    · cases p <;> cases exact_type
  | _ =>
    -- without doubles and nesting, only equal values are the same
    cases v <;> simp_all [Value.same]

/-! ## §3 Where a conversion lands -/

/-- A double that comes out of a conversion is finite. -/
theorem Primitive.isFinite_of_convert? {p : Primitive} {v : Value} {x : Float}
    (h : p.convert? v = some (.float x)) : x.isFinite = true := by
  cases p with
  | float =>
    obtain ⟨y, found, same⟩ := Option.map_eq_some_iff.mp h
    cases same
    exact (Option.filter_eq_some_iff.mp found).2
  | int =>
    obtain ⟨n, _, other⟩ := Option.map_eq_some_iff.mp h
    cases other
  | _ => cases h

/-- Only a primitive type has counterparts of values other than null. -/
theorem exists_named_of_coercePrimitive {name : String} {v w : Value} (hv : v ≠ .null)
    (h : coercePrimitive v name = .ok w) : ∃ p, Primitive.named? name = some p := by
  cases named : Primitive.named? name with
  | some p => exact ⟨p, rfl⟩
  | none =>
    have full := Value.isNull_eq_false_iff.mpr hv
    simp only [coercePrimitive, full, Bool.false_eq_true, if_false, named] at h
    cases h

/-- A conversion keeps null and gives it for nothing else. Any other value becomes one of exactly
the type, and is converted into itself from then on. -/
theorem coercePrimitive_lands {name : String} {v w : Value} (h : coercePrimitive v name = .ok w) :
    (w = .null ↔ v = .null) ∧
    (v ≠ .null → ∃ p, Primitive.named? name = some p ∧ p.isExact w = true ∧
      (∀ x, w = .float x → x.isFinite = true) ∧ coercePrimitive w name = .ok w) := by
  by_cases hv : v = .null
  · subst hv
    cases h
    exact ⟨Iff.rfl, fun full => absurd rfl full⟩
  · obtain ⟨p, named⟩ := exists_named_of_coercePrimitive hv h
    have found := (coercePrimitive_eq_ok_iff named hv).mp h
    have exactly := Primitive.isExact_of_convert? found
    refine ⟨iff_of_false ?_ hv, fun _ => ⟨p, named, exactly, ?_, coercePrimitive_idem named h⟩⟩
    · rintro rfl
      cases p <;> cases exactly
    · rintro x rfl
      exact Primitive.isFinite_of_convert? found

/-- A text with blanks around a number becomes that number, and stays it. -/
theorem coercePrimitive_lands_on_seven : coercePrimitive (.text " 7 ") "int" = .ok (.int 7) ∧
    coercePrimitive (.int 7) "int" = .ok (.int 7) := by
  have first : coercePrimitive (.text " 7 ") "int" = .ok (.int 7) := rfl
  obtain ⟨_, _, _, _, again⟩ := (coercePrimitive_lands first).2 nofun
  exact ⟨first, again⟩

end Tabletop
