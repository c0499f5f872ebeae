/-
Tabletop.Proofs.Record.Fields — reading a record that was written.

The fields of a record are written in the order of their declaration, each
under its first name. Read again, every entry is found to belong to the field
that wrote it, as long as no name is one of an earlier field, and the record
is put together field by field (`Rebuilds`). What reading can give is stated
by what each field keeps (`Keeps`): an invariant that holds of the record
without fields and that no field breaks holds of every record read.

  §1 Values with 64-bit numbers
  §2 What reading keeps
  §3 Reading what was written
  §4 Readers of written values
  §5 The kinds of fields
-/
import Tabletop.Record
import Tabletop.Proofs.Traversal

namespace Tabletop

/-! ## §1 Values with 64-bit numbers -/

/-- The whole numbers in the value are 64-bit integers, signed or unsigned, at every depth. -/
inductive Value.NumbersFit : Value → Prop
  | null : NumbersFit .null
  | bool (flag : Bool) : NumbersFit (.bool flag)
  | int {n : Int} (low : int64Min ≤ n) (high : n < wordBound) : NumbersFit (.int n)
  | float (x : Float) : NumbersFit (.float x)
  | text (s : String) : NumbersFit (.text s)
  | list {items : List Value} (each : ∀ v ∈ items, NumbersFit v) : NumbersFit (.list items)
  | mapping {fields : Fields} (each : ∀ e ∈ fields, NumbersFit e.2) : NumbersFit (.mapping fields)

attribute [simp] Value.NumbersFit.null Value.NumbersFit.bool Value.NumbersFit.float
  Value.NumbersFit.text

@[simp] theorem Value.numbersFit_int {n : Int} :
    (Value.int n).NumbersFit ↔ int64Min ≤ n ∧ n < wordBound := by
  constructor
  · intro h
    cases h with
    | int low high => exact ⟨low, high⟩
  · rintro ⟨low, high⟩
    exact .int low high

@[simp] theorem Value.numbersFit_list {items : List Value} :
    (Value.list items).NumbersFit ↔ ∀ v ∈ items, v.NumbersFit := by
  constructor
  · intro h
    cases h with
    | list each => exact each
  · exact .list

@[simp] theorem Value.numbersFit_mapping {fields : Fields} :
    (Value.mapping fields).NumbersFit ↔ ∀ e ∈ fields, e.2.NumbersFit := by
  constructor
  · intro h
    cases h with
    | mapping each => exact each
  · exact .mapping

namespace Field

variable {R : Type} {Good : R → Prop} {fields all done todo : List (Field R)}
  {empty acc r : R} {entries left : Fields} {v : Value}

/-! ## §2 What reading keeps -/

/-- What the field reads from a value with 64-bit numbers keeps records good. -/
def Keeps (Good : R → Prop) (f : Field R) : Prop :=
  ∀ v set r, v.NumbersFit → f.read v = .ok set → Good r → Good (set r)

theorem good_of_readEntries (keeps : ∀ f ∈ fields, f.Keeps Good)
    (fits : ∀ e ∈ entries, e.2.NumbersFit) {seen : List String} (good : Good acc)
    (h : readEntries fields seen acc entries = .ok (r, left)) : Good r := by
  fun_induction readEntries fields seen acc entries generalizing left with
  | case1 seen acc complete =>
    cases h
    exact good
  | case2 seen acc missing => cases h
  | case3 seen acc key value rest unknown ih =>
    obtain ⟨⟨record, others⟩, read, same⟩ := bind_eq_ok_iff.mp h
    cases same
    exact ih (fun e he => fits e (List.mem_cons_of_mem _ he)) good read
  | case4 seen acc key value rest f known twice => cases h
  | case5 seen acc key value rest f known first ih =>
    obtain ⟨set, read, more⟩ := bind_eq_ok_iff.mp h
    refine ih set (fun e he => fits e (List.mem_cons_of_mem _ he)) ?_ more
    exact keeps f (List.mem_of_find?_eq_some known) value set acc (fits _ List.mem_cons_self)
      read good

theorem good_of_readItems (keeps : ∀ f ∈ fields, f.Keeps Good) {items : List Value}
    (fits : ∀ v ∈ items, v.NumbersFit) (good : Good acc)
    (h : readItems fields acc items = .ok r) : Good r := by
  fun_induction readItems fields acc items with
  | case1 acc =>
    cases h
    exact good
  | case2 acc value rest => cases h
  | case3 f fields acc required => cases h
  | case4 f fields acc optional ih =>
    exact ih (fun g hg => keeps g (List.mem_cons_of_mem _ hg)) fits good h
  | case5 f fields acc value rest ih =>
    obtain ⟨set, read, more⟩ := bind_eq_ok_iff.mp h
    refine ih set (fun g hg => keeps g (List.mem_cons_of_mem _ hg))
      (fun v hv => fits v (List.mem_cons_of_mem _ hv)) ?_ more
    exact keeps f List.mem_cons_self value set acc (fits _ List.mem_cons_self) read good

/-- Every record read is good if the one without fields is and every field keeps it so. -/
theorem good_of_readRecord (keeps : ∀ f ∈ fields, f.Keeps Good) (fits : v.NumbersFit)
    (good : Good empty) (h : readRecord fields empty v = .ok r) : Good r := by
  cases v with
  | mapping entries =>
    obtain ⟨⟨record, left⟩, read, same⟩ := map_eq_ok_iff.mp h
    cases same
    exact good_of_readEntries keeps (Value.numbersFit_mapping.mp fits) good read
  | list items => exact good_of_readItems keeps (Value.numbersFit_list.mp fits) good h
  | null | bool | int | float | text => cases h

/-- What is left over belongs to no field. -/
theorem unanswered_of_readEntries {seen : List String}
    (h : readEntries fields seen acc entries = .ok (r, left)) :
    ∀ e ∈ left, ∀ f ∈ fields, f.answersTo e.1 = false := by
  fun_induction readEntries fields seen acc entries generalizing left with
  | case1 seen acc complete =>
    cases h
    intro e he
    cases he
  | case2 seen acc missing => cases h
  | case3 seen acc key value rest unknown ih =>
    obtain ⟨⟨record, others⟩, read, same⟩ := bind_eq_ok_iff.mp h
    cases same
    rw [List.forall_mem_cons]
    refine ⟨fun f hf => ?_, ih read⟩
    simpa using List.find?_eq_none.mp unknown f hf
  | case4 seen acc key value rest f known twice => cases h
  | case5 seen acc key value rest f known first ih =>
    obtain ⟨set, _, more⟩ := bind_eq_ok_iff.mp h
    exact ih set more

/-! ## §3 Reading what was written -/

/-- No name is one of an earlier field. -/
def NamesApart (fields : List (Field R)) : Prop :=
  fields.Pairwise fun f g => f.answersTo g.name = false

instance (fields : List (Field R)) : Decidable (NamesApart fields) :=
  inferInstanceAs (Decidable (fields.Pairwise fun f g => f.answersTo g.name = false))

/-- Read one after the other, what the fields write of `r` makes `acc` into `r`. -/
def Rebuilds : List (Field R) → (acc r : R) → Prop
  | [], acc, r => acc = r
  | f :: rest, acc, r =>
      match f.write r with
      | none => f.required = false ∧ Rebuilds rest acc r
      | some v => ∃ set, f.read v = .ok set ∧ Rebuilds rest (set acc) r

theorem answersTo_name (f : Field R) : f.answersTo f.name = true := by
  simp [answersTo]

/-- Without entries of the fields, everything is left over. -/
theorem readEntries_unanswered (free : ∀ e ∈ left, ∀ f ∈ fields, f.answersTo e.1 = false)
    {seen : List String} (complete : ∀ f ∈ fields, f.required = true → f.name ∈ seen) :
    readEntries fields seen acc left = .ok (acc, left) := by
  induction left with
  | nil =>
    have all : (fields.all fun f => !f.required || seen.contains f.name) = true := by
      rw [List.all_eq_true]
      intro f hf
      cases required : f.required with
      | false => rfl
      | true => simpa using complete f hf required
    rw [readEntries, if_pos all]
  | cons e left ih =>
    obtain ⟨key, value⟩ := e
    rw [List.forall_mem_cons] at free
    have unknown : (fields.find? fun f => f.answersTo key) = none := by
      rw [List.find?_eq_none]
      intro f hf
      simp [free.1 f hf]
    simp only [readEntries, unknown, ih free.2]
    rfl

/-- What the fields wrote is read again, with anything that belongs to no field behind it. -/
theorem readEntries_writeFields (apart : NamesApart all)
    (free : ∀ e ∈ left, ∀ f ∈ all, f.answersTo e.1 = false) (split : all = done ++ todo)
    {seen : List String} (fresh : ∀ f ∈ todo, f.name ∉ seen)
    (complete : ∀ f ∈ done, f.required = true → f.name ∈ seen) (rebuilds : Rebuilds todo acc r) :
    readEntries all seen acc (writeFields todo r ++ left) = .ok (r, left) := by
  induction todo generalizing done seen acc with
  | nil =>
    cases rebuilds
    rw [List.append_nil] at split
    exact readEntries_unanswered free (split ▸ complete)
  | cons f todo ih =>
    have shifted : all = (done ++ [f]) ++ todo := by rw [split, List.append_assoc]; rfl
    rw [List.forall_mem_cons] at fresh
    unfold Rebuilds at rebuilds
    cases written : f.write r with
    | none =>
      rw [written] at rebuilds
      have same : writeFields (f :: todo) r = writeFields todo r := by
        rw [writeFields, List.filterMap_cons, written]
        rfl
      rw [same]
      refine ih shifted fresh.2 (fun g hg required => ?_) rebuilds.2
      rcases List.mem_append.mp hg with hg | hg
      · exact complete g hg required
      · rw [List.mem_singleton.mp hg, rebuilds.1] at required
        cases required
    | some v =>
      rw [written] at rebuilds
      obtain ⟨set, read, more⟩ := rebuilds
      have same : writeFields (f :: todo) r = (f.name, v) :: writeFields todo r := by
        rw [writeFields, List.filterMap_cons, written]
        rfl
      have pairs := apart
      rw [split, NamesApart, List.pairwise_append, List.pairwise_cons] at pairs
      obtain ⟨_, ⟨later, _⟩, earlier⟩ := pairs
      have known : (all.find? fun g => g.answersTo f.name) = some f := by
        have none : (done.find? fun g : Field R => g.answersTo f.name) = none := by
          rw [List.find?_eq_none]
          intro g hg
          simp [earlier g hg f List.mem_cons_self]
        rw [split, List.find?_append, none, Option.none_or]
        exact List.find?_cons_of_pos (p := fun g : Field R => g.answersTo f.name) (answersTo_name f)
      have new : seen.contains f.name = false := by simpa using fresh.1
      rw [same, List.cons_append]
      simp only [readEntries, known, new, read]
      refine ih shifted (fun g hg => ?_) (fun g hg required => ?_) more
      · rw [List.mem_cons, not_or]
        refine ⟨fun equal => ?_, fresh.2 g hg⟩
        have := later g hg
        rw [equal, answersTo_name] at this
        cases this
      · rcases List.mem_append.mp hg with hg | hg
        · exact List.mem_cons_of_mem _ (complete g hg required)
        · rw [List.mem_singleton.mp hg]
          exact List.mem_cons_self

/-- A record that is put together from what its fields write is read back from the mapping. -/
theorem readRecord_writeRecord (apart : NamesApart fields) (rebuilds : Rebuilds fields empty r) :
    readRecord fields empty (writeRecord fields r) = .ok r := by
  have read : readEntries fields [] empty (writeFields fields r ++ []) = .ok (r, []) :=
    readEntries_writeFields apart (fun _ he => absurd he List.not_mem_nil)
      (show fields = [] ++ fields from rfl) (fun _ _ => List.not_mem_nil)
      (fun _ hf => absurd hf List.not_mem_nil) rebuilds
  rw [List.append_nil] at read
  rw [writeRecord, readRecord, read]
  rfl

end Field

/-! ## §4 Readers of written values -/

section Readers

variable {α : Type} {read : Value → Reading α} {write : α → Value}

theorem readOptional_of_not_null {v : Value} (h : v.isNull = false) :
    readOptional read v = (read v).map some := by
  cases v <;> first | rfl | cases h

theorem readOptional_eq_some {v : Value} {x : α} (h : readOptional read v = .ok (some x)) :
    v.isNull = false ∧ read v = .ok x := by
  cases hv : v.isNull with
  | true =>
    cases v <;> cases hv
    cases h
  | false =>
    rw [readOptional_of_not_null hv] at h
    obtain ⟨y, found, same⟩ := map_eq_ok_iff.mp h
    cases same
    exact ⟨rfl, found⟩

theorem readOptional_writeOptional {o : Option α}
    (back : ∀ x, o = some x → (write x).isNull = false ∧ read (write x) = .ok x) :
    readOptional read (writeOptional write o) = .ok o := by
  cases o with
  | none => rfl
  | some x =>
    obtain ⟨present, same⟩ := back x rfl
    rw [writeOptional, readOptional_of_not_null present, same]
    rfl

theorem readListOf_map {xs : List α} (back : ∀ x ∈ xs, read (write x) = .ok x) :
    readListOf read (.list (xs.map write)) = .ok xs := by
  change (xs.map write).mapM read = .ok xs
  rw [mapM_eq_ok_iff, List.forall₂_map_left_iff]
  exact List.forall₂_same.mpr back

theorem readMappingOf_write {entries : Entries α}
    (back : ∀ e ∈ entries, read (write e.2) = .ok e.2) :
    readMappingOf read (writeMappingOf write entries) = .ok entries := by
  change (entries.map fun e => (e.1, write e.2)).mapM _ = Except.ok entries
  rw [mapM_eq_ok_iff, List.forall₂_map_left_iff]
  refine List.forall₂_same.mpr fun e he => ?_
  rw [back e he]
  rfl

theorem exists_of_mem_readListOf {v : Value} {xs : List α} (h : readListOf read v = .ok xs)
    (fits : v.NumbersFit) {x : α} (hx : x ∈ xs) : ∃ w, w.NumbersFit ∧ read w = .ok x := by
  cases v with
  | list items =>
    obtain ⟨w, hw, read⟩ := (mem_of_mapM h x).mp hx
    exact ⟨w, Value.numbersFit_list.mp fits w hw, read⟩
  | null | bool | int | float | text | mapping => cases h

theorem exists_of_mem_readMappingOf {v : Value} {entries : Entries α}
    (h : readMappingOf read v = .ok entries) (fits : v.NumbersFit) {e : String × α}
    (he : e ∈ entries) : ∃ w, w.NumbersFit ∧ read w = .ok e.2 := by
  cases v with
  | mapping fields =>
    obtain ⟨w, hw, read⟩ := (mem_of_mapM h e).mp he
    obtain ⟨x, found, rfl⟩ := map_eq_ok_iff.mp read
    exact ⟨w.2, Value.numbersFit_mapping.mp fits w hw, found⟩
  | null | bool | int | float | text | list => cases h

end Readers

namespace Field

variable {R α : Type} {Good : R → Prop} {rest : List (Field R)} {acc r : R} {f : Field R}

/-! ## §5 The kinds of fields -/

section Kinds

variable {name : String} {read : Value → Reading α} {set : α → R → R} {write : R → Value} {x : α}

theorem keeps_needed : (needed name read set write).Keeps Good ↔
    ∀ v x r, v.NumbersFit → read v = .ok x → Good r → Good (set x r) := by
  constructor
  · intro keeps v x r fits hx good
    exact keeps v (set x) r fits (map_eq_ok_iff.mpr ⟨x, hx, rfl⟩) good
  · intro keeps v _ r fits hset good
    obtain ⟨x, hx, rfl⟩ := map_eq_ok_iff.mp hset
    exact keeps v x r fits hx good

theorem keeps_free : (free name read set write).Keeps Good ↔
    ∀ v x r, v.NumbersFit → read v = .ok x → Good r → Good (set x r) :=
  (keeps_needed : (needed name read set write).Keeps Good ↔ _)

theorem keeps_alsoCalled : (f.alsoCalled name).Keeps Good ↔ f.Keeps Good := Iff.rfl

theorem keeps_omittingNull : f.omittingNull.Keeps Good ↔ f.Keeps Good := Iff.rfl

theorem rebuilds_nil : Rebuilds [] acc r ↔ acc = r := Iff.rfl

theorem rebuilds_needed : Rebuilds (needed name read set write :: rest) acc r ↔
    ∃ x, read (write r) = .ok x ∧ Rebuilds rest (set x acc) r := by
  change (∃ s, (read (write r)).map set = .ok s ∧ Rebuilds rest (s acc) r) ↔ _
  constructor
  · rintro ⟨s, hs, more⟩
    obtain ⟨x, hx, rfl⟩ := map_eq_ok_iff.mp hs
    exact ⟨x, hx, more⟩
  · rintro ⟨x, hx, more⟩
    exact ⟨set x, map_eq_ok_iff.mpr ⟨x, hx, rfl⟩, more⟩

theorem rebuilds_free : Rebuilds (free name read set write :: rest) acc r ↔
    ∃ x, read (write r) = .ok x ∧ Rebuilds rest (set x acc) r :=
  (rebuilds_needed : Rebuilds (needed name read set write :: rest) acc r ↔ _)

theorem rebuilds_alsoCalled : Rebuilds (f.alsoCalled name :: rest) acc r ↔
    Rebuilds (f :: rest) acc r := Iff.rfl

/-- A field that is left out where nothing is set. -/
theorem Rebuilds.omitted {read : Value → Reading α} {write : α → Value}
    {set : Option α → R → R} {get : R → Option α} (unset : set none acc = acc)
    (back : ∀ x, get r = some x → (write x).isNull = false ∧ read (write x) = .ok x)
    (more : Rebuilds rest (set (get r) acc) r) :
    Rebuilds ((free name (readOptional read) set fun r =>
      writeOptional write (get r)).omittingNull :: rest) acc r := by
  cases hx : get r with
  | none =>
    have missing : ((free name (readOptional read) set fun r =>
        writeOptional write (get r)).omittingNull).write r = none := by
      simp [omittingNull, free, hx, writeOptional, Value.isNull]
    rw [hx, unset] at more
    unfold Rebuilds
    rw [missing]
    exact ⟨rfl, more⟩
  | some x =>
    obtain ⟨present, same⟩ := back x hx
    have written : ((free name (readOptional read) set fun r =>
        writeOptional write (get r)).omittingNull).write r = some (write x) := by
      simp [omittingNull, free, hx, writeOptional, present]
    have again : ((free name (readOptional read) set fun r =>
        writeOptional write (get r)).omittingNull).read (write x) = .ok (set (some x)) := by
      change (readOptional read (write x)).map set = _
      rw [readOptional_of_not_null present, same]
      rfl
    unfold Rebuilds
    rw [written]
    rw [hx] at more
    exact ⟨set (some x), again, more⟩

end Kinds

end Field

end Tabletop
