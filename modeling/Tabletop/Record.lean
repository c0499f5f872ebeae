/-
Tabletop.Record — records read from values and written back.

An authored record is a mapping. Its fields are described once, in the
order in which they are declared: their names, whether they must be there,
how their values are read, and how they are written. From that description
come both directions.

Reading goes through the authored mapping in its own order, so that the
first fault found is the first one authored; what is missing is noticed at
the end. A key that no field has is left over. A record may also be given
as a list of its fields in declaration order, of which the last may be
missing if they need not be there.

  §1 Faults
  §2 Fields and records
  §3 Readers of values
-/
import Tabletop.Value.Text

namespace Tabletop

/-! ## §1 Faults -/

/-- Why a value is not the record asked for. -/
inductive RecordFault where
  /-- A value of the wrong kind, or a field that is missing or given twice. -/
  | malformed
  /-- An action without a key. -/
  | emptyAction
  /-- An action with more than one key. -/
  | secondKey (action extra : String)
  /-- A value that is no attribute, written out. -/
  | notAnAttribute (found : String)
  deriving DecidableEq, Repr

/-- The fault in words. -/
def RecordFault.message : RecordFault → String
  | .malformed => "the record is malformed"
  | .emptyAction => "action mapping is empty"
  | .secondKey action extra => s!"action '{action}' has an unexpected second key '{extra}'"
  | .notAnAttribute found => s!"attribute must be a type name or a mapping, found {found}"

/-- What reading a value gives. -/
abbrev Reading (α : Type) := Except RecordFault α

/-! ## §2 Fields and records -/

/-- One field of a record of type `R`. -/
structure Field (R : Type) where
  name : String
  /-- Other names under which the field may be given. -/
  aliases : List String
  required : Bool
  /-- Reads a value of the field into a record. -/
  read : Value → Reading (R → R)
  /-- The value written for the field; none leaves it out. -/
  write : R → Option Value

namespace Field

variable {R : Type}

/-- The key is a name of the field. -/
def answersTo (f : Field R) (key : String) : Bool := f.name == key || f.aliases.contains key

/-- Reads entries in order into `record`. `seen` holds the names of the fields already read. Also
returns the entries that belong to no field. -/
def readEntries (fields : List (Field R)) :
    (seen : List String) → (record : R) → Fields → Reading (R × Fields)
  | seen, record, [] =>
      if fields.all fun f => !f.required || seen.contains f.name then .ok (record, [])
      else .error .malformed
  | seen, record, (key, value) :: rest =>
      match fields.find? (·.answersTo key) with
      | none => do
          let (record, left) ← readEntries fields seen record rest
          .ok (record, (key, value) :: left)
      | some f =>
          if seen.contains f.name then .error .malformed
          else do
            let set ← f.read value
            readEntries fields (f.name :: seen) (set record) rest

/-- Reads items in declaration order into `record`. -/
def readItems : List (Field R) → (record : R) → List Value → Reading R
  | [], record, [] => .ok record
  | [], _, _ :: _ => .error .malformed
  | f :: fields, record, [] =>
      if f.required then .error .malformed else readItems fields record []
  | f :: fields, record, value :: rest => do
      let set ← f.read value
      readItems fields (set record) rest

/-- Reads a record, starting from the one whose fields are all missing. -/
def readRecord (fields : List (Field R)) (empty : R) : Value → Reading R
  | .mapping entries => (readEntries fields [] empty entries).map (·.1)
  | .list items => readItems fields empty items
  | _ => .error .malformed

/-- The fields of a record, written in declaration order. -/
def writeFields (fields : List (Field R)) (record : R) : Fields :=
  fields.filterMap fun f => (f.write record).map fun v => (f.name, v)

/-- A record as a mapping. -/
def writeRecord (fields : List (Field R)) (record : R) : Value :=
  .mapping (writeFields fields record)

/-- A field that must be there. -/
def needed {α : Type} (name : String) (read : Value → Reading α) (set : α → R → R)
    (write : R → Value) : Field R :=
  ⟨name, [], true, fun v => (read v).map set, fun r => some (write r)⟩

/-- A field that may be missing. -/
def free {α : Type} (name : String) (read : Value → Reading α) (set : α → R → R)
    (write : R → Value) : Field R :=
  ⟨name, [], false, fun v => (read v).map set, fun r => some (write r)⟩

/-- The field under one more name. -/
def alsoCalled (f : Field R) (name : String) : Field R := { f with aliases := name :: f.aliases }

/-- The field, left out of the written record where its value is null. -/
def omittingNull (f : Field R) : Field R :=
  { f with write := fun r => (f.write r).filter fun v => !v.isNull }

end Field

/-! ## §3 Readers of values -/

/-- Any value. -/
def readValue (v : Value) : Reading Value := .ok v

/-- A text. -/
def readText : Value → Reading String
  | .text s => .ok s
  | _ => .error .malformed

/-- A truth value. -/
def readFlag : Value → Reading Bool
  | .bool flag => .ok flag
  | _ => .error .malformed

/-- A whole number from zero up to below `bound`. -/
def readBelow (bound : Nat) : Value → Reading Nat
  | .int n => if 0 ≤ n && n < bound then .ok n.toNat else .error .malformed
  | _ => .error .malformed

/-- A count. -/
def readCount (v : Value) : Reading Nat := readBelow wordBound v

/-- A finite number as a double. -/
def readDouble : Value → Reading Float
  | .int n => .ok (Float.ofInt n)
  | .float x => if x.isFinite then .ok x else .error .malformed
  | _ => .error .malformed

/-- Null for none, and any other value as the reader has it. -/
def readOptional {α : Type} (read : Value → Reading α) : Value → Reading (Option α)
  | .null => .ok none
  | v => (read v).map some

/-- A list of what the reader reads, in order. -/
def readListOf {α : Type} (read : Value → Reading α) : Value → Reading (List α)
  | .list items => items.mapM read
  | _ => .error .malformed

/-- A mapping to what the reader reads, in order. -/
def readMappingOf {α : Type} (read : Value → Reading α) : Value → Reading (Entries α)
  | .mapping fields => fields.mapM fun e => (read e.2).map fun x => (e.1, x)
  | _ => .error .malformed

/-- An optional value, written as null if there is none. -/
def writeOptional {α : Type} (write : α → Value) : Option α → Value
  | none => .null
  | some x => write x

/-- A mapping of written values. -/
def writeMappingOf {α : Type} (write : α → Value) (entries : Entries α) : Value :=
  .mapping (entries.map fun e => (e.1, write e.2))

end Tabletop
