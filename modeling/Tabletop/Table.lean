/-
Tabletop.Table — roll tables.

A table has a roll and entries, each for a range of totals. A range is a
number or a text `low-high`; a minus at the start belongs to the number.
The first entry whose range holds the total is the result.

  §1 Types
  §2 Ranges
  §3 Records
-/
import Tabletop.Record
import Tabletop.Text.Blank

namespace Tabletop

/-! ## §1 Types -/

/-- One row of a table. -/
structure TableEntry where
  range : Value := .null
  value : Value := .null

/-- A table. -/
structure Table where
  id : String := ""
  name : Option String := none
  /-- The dice expression that picks an entry. -/
  roll : String := ""
  /-- `str`, or the model that the entries become. -/
  entryType : String := "str"
  entries : List TableEntry := []

/-- The entries are objects of a model rather than texts. -/
def Table.hasModelEntries (t : Table) : Bool := !(t.entryType ∈ ["str", "string", ""])

/-! ## §2 Ranges -/

/-- The range as authored, without the blanks around it. -/
def TableEntry.rangeText (e : TableEntry) : String :=
  match e.range with
  | .text s => trim s
  | other => other.compact

/-- The texts before and after the first minus that is not at the start. -/
def splitRange : List Char → Option (List Char × List Char)
  | [] => none
  | c :: rest =>
      match rest.dropWhile (· ≠ '-') with
      | [] => none
      | _ :: high => some (c :: rest.takeWhile (· ≠ '-'), high)

/-- The total lies in the written range. A range that is malformed holds no total. -/
def rangeHolds (range : List Char) (total : Int) : Bool :=
  match splitRange range with
  | some (low, high) =>
      match readInt64 (trimChars low), readInt64 (trimChars high) with
      | some low, some high => low ≤ total && total ≤ high
      | _, _ => false
  | none => readInt64 range = some total

/-- The total lies in the range of the entry. -/
def TableEntry.matches (e : TableEntry) (total : Int) : Bool :=
  rangeHolds e.rangeText.toList total

/-- The first entry whose range holds the total. -/
def Table.find? (t : Table) (total : Int) : Option TableEntry :=
  t.entries.find? (·.matches total)

/-- The value of the entry for a total, or a text that says there is none. -/
def Table.lookup (t : Table) (total : Int) : Value :=
  match t.find? total with
  | some e => e.value
  | none => .text s!"<no match for {intText total}>"

/-! ## §3 Records -/

/-- The fields of a table entry. -/
def TableEntry.fields : List (Field TableEntry) := [
  .needed "range" readValue (fun x r => { r with range := x }) (·.range),
  .needed "value" readValue (fun x r => { r with value := x }) (·.value)]

def TableEntry.read : Value → Reading TableEntry := Field.readRecord fields {}

def TableEntry.write : TableEntry → Value := Field.writeRecord fields

/-- The fields of a table; the roll may be called dice. -/
def Table.fields : List (Field Table) := [
  .needed "id" readText (fun x r => { r with id := x }) fun r => .text r.id,
  .free "name" (readOptional readText) (fun x r => { r with name := x })
    fun r => writeOptional .text r.name,
  (Field.needed "roll" readText (fun x r => { r with roll := x })
    fun r => .text r.roll).alsoCalled "dice",
  .free "entry_type" readText (fun x r => { r with entryType := x }) fun r => .text r.entryType,
  .free "entries" (readListOf TableEntry.read) (fun x r => { r with entries := x })
    fun r => .list (r.entries.map TableEntry.write)]

def Table.read : Value → Reading Table := Field.readRecord fields {}

def Table.write : Table → Value := Field.writeRecord fields

end Tabletop
