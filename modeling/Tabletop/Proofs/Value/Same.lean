/-
Tabletop.Proofs.Value.Same — when two values are the same.

`same` compares two values by recursion; here it is read through paths. Two
well-formed values that are the same look the same at every path, and two
that look alike at every path are the same. Well-formed is every value that
a document or a computation can give: the keys of a mapping are distinct and
its doubles are finite.

  §1 Well-formed values
  §2 Equality by its parts
  §3 Equality is reflexive
  §4 Equality along paths
-/
import Tabletop.Value.Path
import Tabletop.Proofs.Entries
import Mathlib.Data.List.Forall2

namespace Tabletop

namespace Value

/-! ## §1 Well-formed values -/

/-- Mappings have distinct keys and doubles are finite, at every depth. -/
inductive WellFormed : Value → Prop
  | null : WellFormed .null
  | bool (flag : Bool) : WellFormed (.bool flag)
  | int (n : Int) : WellFormed (.int n)
  | float {x : Float} (finite : x.isFinite = true) : WellFormed (.float x)
  | text (s : String) : WellFormed (.text s)
  | list {items : List Value} (each : ∀ v ∈ items, WellFormed v) : WellFormed (.list items)
  | mapping {fields : Fields} (keys : Entries.NodupKeys fields)
      (each : ∀ e ∈ fields, WellFormed e.2) : WellFormed (.mapping fields)

theorem WellFormed.nodupKeys {fields : Fields} (h : (Value.mapping fields).WellFormed) :
    Entries.NodupKeys fields := by
  cases h with
  | mapping keys _ => exact keys

theorem WellFormed.field {fields : Fields} (h : (Value.mapping fields).WellFormed) {key : String}
    {v : Value} (hv : Entries.get? fields key = some v) : v.WellFormed := by
  cases h with
  | mapping _ each => exact each _ (Entries.mem_of_get? hv)

@[simp] theorem child?_mapping (fields : Fields) (segment : String) :
    (Value.mapping fields).child? segment = Entries.get? fields segment := rfl

@[simp] theorem child?_list (items : List Value) (segment : String) :
    (Value.list items).child? segment = (Path.index? segment).bind fun i => items[i]? := rfl

/-- What is one step below a well-formed value is well-formed. -/
theorem WellFormed.child {v w : Value} (h : v.WellFormed) {segment : String}
    (hw : v.child? segment = some w) : w.WellFormed := by
  cases h with
  | mapping keys each => exact each _ (Entries.mem_of_get? hw)
  | list each =>
    simp only [child?, Option.bind_eq_some_iff] at hw
    obtain ⟨i, _, hi⟩ := hw
    exact each w (List.mem_of_getElem? hi)
  | null => simp [child?] at hw
  | bool => simp [child?] at hw
  | int => simp [child?] at hw
  | float => simp [child?] at hw
  | text => simp [child?] at hw

/-- What is anywhere in a well-formed value is well-formed. -/
theorem WellFormed.at {v w : Value} (h : v.WellFormed) {p : Path} (hw : v.at? p = some w) :
    w.WellFormed := by
  induction p generalizing v with
  | nil =>
    cases hw
    exact h
  | cons segment rest ih =>
    rw [at?_cons, Option.bind_eq_some_iff] at hw
    obtain ⟨u, hu, hw⟩ := hw
    exact ih (h.child hu) hw

/-- Writing a field keeps a mapping well-formed. -/
theorem WellFormed.insert {fields : Fields} (h : (Value.mapping fields).WellFormed) (key : String)
    {v : Value} (hv : v.WellFormed) : (Value.mapping (Entries.insert fields key v)).WellFormed := by
  cases h with
  | mapping keys each =>
    refine .mapping (keys.insert key v) ?_
    intro e he
    rcases Entries.mem_insert he with he | he
    · rw [he]
      exact hv
    · exact each e he

theorem wellFormed_mapping_nil : (Value.mapping []).WellFormed :=
  .mapping Entries.nodupKeys_nil fun _ h => absurd h List.not_mem_nil

/-! ## §2 Equality by its parts -/

theorem sameItems_iff {as bs : List Value} :
    sameItems as bs = true ↔ List.Forall₂ (fun a b => same a b = true) as bs := by
  induction as generalizing bs with
  | nil => cases bs <;> simp [sameItems]
  | cons a as ih => cases bs <;> simp [sameItems, ih]

theorem sameItems_append {before before' as bs : List Value}
    (front : sameItems before before' = true) :
    sameItems (before ++ as) (before' ++ bs) = sameItems as bs := by
  induction before generalizing before' with
  | nil =>
    cases before' with
    | nil => rfl
    | cons _ _ => cases front
  | cons v before ih =>
    cases before' with
    | nil => cases front
    | cons w before' =>
      rw [sameItems, Bool.and_eq_true] at front
      rw [List.cons_append, List.cons_append, sameItems, front.1, ih front.2, Bool.true_and]

theorem sameFields_iff {fields other : Fields} :
    sameFields fields other = true
      ↔ ∀ e ∈ fields, ∃ w, Entries.get? other e.1 = some w ∧ same e.2 w = true := by
  induction fields with
  | nil => simp [sameFields]
  | cons e rest ih =>
    obtain ⟨k, v⟩ := e
    simp only [sameFields, Bool.and_eq_true, ih, List.forall_mem_cons]
    cases Entries.get? other k <;> simp

theorem same_mapping_iff {a b : Fields} :
    same (.mapping a) (.mapping b) = true
      ↔ a.length = b.length
        ∧ ∀ e ∈ a, ∃ w, Entries.get? b e.1 = some w ∧ same e.2 w = true := by
  simp [same, sameFields_iff]

theorem same_list_iff {as bs : List Value} :
    same (.list as) (.list bs) = true ↔ List.Forall₂ (fun a b => same a b = true) as bs := by
  simp [same, sameItems_iff]

/-- With distinct keys, mappings are the same if they are as large and alike under every key. -/
theorem same_mapping_iff_get? {fields other : Fields} (keys : Entries.NodupKeys fields) :
    same (.mapping fields) (.mapping other) = true ↔ fields.length = other.length ∧
      ∀ key v, Entries.get? fields key = some v →
        ∃ w, Entries.get? other key = some w ∧ same v w = true := by
  rw [same_mapping_iff]
  refine and_congr_right fun _ => ⟨?_, ?_⟩
  · exact fun each key v found => each (key, v) (Entries.mem_of_get? found)
  · exact fun each e he => each e.1 e.2 (keys.get?_of_mem he)

/-! ## §3 Equality is reflexive -/

open Float.Model in
/-- A double that is a number is neither before nor after itself. -/
theorem compare_unpacked_self {u : UnpackedFloat} (h : u.isFinite = true) :
    u.compare u = some .eq := by
  cases u with
  | infinity sign => cases h
  | notANumber => cases h
  | zero sign => rfl
  | finite sign mantissa exponent _ =>
    have equal : (compare exponent exponent).then (compare mantissa mantissa) = .eq := by
      rw [Int.compare_eq_eq.mpr rfl, Nat.compare_eq_eq.mpr rfl]
      rfl
    cases sign with
    | positive => exact congrArg some equal
    | negative =>
      change some ((compare exponent exponent).then (compare mantissa mantissa)).swap = some .eq
      rw [equal]
      rfl

/-- A finite double is equal to itself. -/
theorem float_beq_self {x : Float} (h : x.isFinite = true) : (x == x) = true := by
  have finite : x.toModel.unpack.isFinite = true := h
  change (x.toModel.unpack.compare x.toModel.unpack == some .eq) = true
  rw [compare_unpacked_self finite]
  rfl

open Float.Model in
/-- Only a finite double is equal to a finite one. -/
theorem isFinite_of_float_beq {x y : Float} (h : (x == y) = true) (hy : y.isFinite = true) :
    x.isFinite = true := by
  have equal : (x.toModel.unpack.compare y.toModel.unpack == some .eq) = true := h
  have finite : y.toModel.unpack.isFinite = true := hy
  change x.toModel.unpack.isFinite = true
  generalize x.toModel.unpack = u at equal
  generalize y.toModel.unpack = v at equal finite
  cases u with
  | infinity sign => cases v <;> cases sign <;> cases finite <;> cases equal
  | notANumber => cases equal
  | zero sign => rfl
  | finite sign mantissa exponent _ => rfl

/-- A well-formed value is the same as itself. -/
theorem same_refl {v : Value} (h : v.WellFormed) : same v v = true := by
  induction h with
  | null => rfl
  | bool | int | text => simp [same]
  | float finite =>
    unfold same
    exact float_beq_self finite
  | list each ih => exact same_list_iff.mpr (List.forall₂_same.mpr ih)
  | mapping keys each ih =>
    refine same_mapping_iff.mpr ⟨rfl, ?_⟩
    intro e he
    exact ⟨e.2, keys.get?_of_mem he, ih e he⟩

/-! ## §4 Equality along paths -/

/-- Both are absent, or both are there and the same. -/
abbrev SameAs (a b : Option Value) : Prop := Option.Rel (fun v w => same v w = true) a b

/-- Both are mappings, or they are the same. -/
inductive Alike : Value → Value → Prop
  | mapping (a b : Fields) : Alike (.mapping a) (.mapping b)
  | same {v w : Value} (h : v.same w = true) : Alike v w

/-- Both are absent, or both are there and alike. -/
abbrev AlikeAs (a b : Option Value) : Prop := Option.Rel Alike a b

/-- Related options are both there or both absent. -/
theorem isSome_eq_of_rel {R : Value → Value → Prop} {a b : Option Value} (h : Option.Rel R a b) :
    a.isSome = b.isSome := by
  cases h with
  | none => rfl
  | some _ => rfl

/-- What is related to something that is there is there. -/
theorem exists_of_rel {R : Value → Value → Prop} {a b : Option Value} {v : Value}
    (h : Option.Rel R a b) (ha : a = some v) : ∃ w, b = some w ∧ R v w := by
  cases h with
  | none => cases ha
  | some hr =>
    cases ha
    exact ⟨_, rfl, hr⟩

theorem sameAs_refl {o : Option Value} (h : ∀ v, o = some v → v.WellFormed) : SameAs o o := by
  cases o with
  | none => exact .none
  | some v => exact .some (same_refl (h v rfl))

theorem SameAs.alike {a b : Option Value} (h : SameAs a b) : AlikeAs a b := by
  cases h with
  | none => exact .none
  | some h => exact .some (.same h)

/-- The items of lists that are the same are the same. -/
theorem forall₂_getElem? {as bs : List Value}
    (h : List.Forall₂ (fun a b => same a b = true) as bs) (i : Nat) : SameAs as[i]? bs[i]? := by
  induction h generalizing i with
  | nil => exact .none
  | cons hab _ ih =>
    cases i with
    | zero => exact .some hab
    | succ i => exact ih i

/-- One step below values that are the same, the values are the same. -/
theorem same_child? {v w : Value} (hv : v.WellFormed) (h : same v w = true) (segment : String) :
    SameAs (v.child? segment) (w.child? segment) := by
  cases v with
  | mapping a =>
    cases w with
    | mapping b =>
      obtain ⟨length, each⟩ := same_mapping_iff.mp h
      rw [child?_mapping, child?_mapping]
      cases ha : Entries.get? a segment with
      | some x =>
        obtain ⟨y, hy, hxy⟩ := each (segment, x) (Entries.mem_of_get? ha)
        have hb : Entries.get? b segment = some y := hy
        rw [hb]
        exact .some hxy
      | none =>
        have sub : ∀ key ∈ Entries.keys a, key ∈ Entries.keys b := by
          intro key hk
          obtain ⟨e, he, rfl⟩ := List.mem_map.mp hk
          obtain ⟨y, hy, _⟩ := each e he
          rw [← Entries.isSome_get?_iff, hy]
          rfl
        have back := hv.nodupKeys.subset_of_length sub (Nat.le_of_eq length.symm) segment
        have hb : Entries.get? b segment = none :=
          Entries.get?_eq_none_iff.mpr fun hb => Entries.get?_eq_none_iff.mp ha (back hb)
        rw [hb]
        exact .none
    | _ => simp [same] at h
  | list as =>
    cases w with
    | list bs =>
      rw [child?_list, child?_list]
      cases Path.index? segment with
      | none => exact .none
      | some i => exact forall₂_getElem? (same_list_iff.mp h) i
    | _ => simp [same] at h
  | _ =>
    cases w <;> first | exact .none | simp [same] at h

/-- Values that are the same are the same at every path. -/
theorem same_at? {v w : Value} (hv : v.WellFormed) (h : same v w = true) (p : Path) :
    SameAs (v.at? p) (w.at? p) := by
  induction p generalizing v w with
  | nil => exact .some h
  | cons segment rest ih =>
    rw [at?_cons, at?_cons]
    have step := same_child? hv h segment
    cases hc : v.child? segment with
    | none =>
      have hd : w.child? segment = none := by
        rw [← Option.not_isSome_iff_eq_none, ← isSome_eq_of_rel step, hc]
        simp
      rw [hd]
      exact .none
    | some x =>
      obtain ⟨y, hd, hxy⟩ := exists_of_rel step hc
      rw [hd]
      exact ih (hv.child hc) hxy

/-- Well-formed values that look alike at every path are the same. Paths through lists are not
needed: lists that are alike are the same. -/
theorem same_of_alike {v w : Value} (hv : v.WellFormed) (hw : w.WellFormed)
    (h : ∀ p, AlikeAs (v.at? p) (w.at? p)) : same v w = true := by
  induction hv generalizing w with
  | mapping keys each ih =>
    rename_i a
    have root := h []
    cases w with
    | mapping b =>
      have field : ∀ key, AlikeAs (Entries.get? a key) (Entries.get? b key) := by
        intro key
        have hk := h [key]
        rw [at?_cons, at?_cons] at hk
        simpa using hk
      have length : a.length = b.length := by
        refine keys.length_eq hw.nodupKeys ?_
        intro key
        rw [← Entries.isSome_get?_iff, ← Entries.isSome_get?_iff]
        rw [isSome_eq_of_rel (field key)]
      refine same_mapping_iff.mpr ⟨length, ?_⟩
      intro e he
      have ha := keys.get?_of_mem he
      obtain ⟨y, hy, _⟩ := exists_of_rel (field e.1) ha
      refine ⟨y, hy, ih e he (hw.field hy) ?_⟩
      intro q
      have below := h (e.1 :: q)
      rw [at?_cons, at?_cons, child?_mapping, child?_mapping, ha, hy] at below
      exact below
    | _ =>
      cases root with
      | some alike =>
        cases alike with
        | same hs => simp [same] at hs
  | _ =>
    have root := h []
    cases root with
    | some alike =>
      cases alike with
      | same hs => exact hs

end Value

end Tabletop
