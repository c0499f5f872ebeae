/-
Tabletop.Catalog — one game system.

The flows, models, tables and prompts of a system, each by its id.
-/
import Tabletop.Flow
import Tabletop.Model
import Tabletop.Prompt
import Tabletop.Table

namespace Tabletop

/-- A game system. -/
structure Catalog where
  id : String := ""
  flows : Entries Flow := []
  models : Entries Model := []
  tables : Entries Table := []
  prompts : Entries Prompt := []

namespace Catalog

def flow? (c : Catalog) (id : String) : Option Flow := Entries.get? c.flows id

def model? (c : Catalog) (id : String) : Option Model := Entries.get? c.models id

def table? (c : Catalog) (id : String) : Option Table := Entries.get? c.tables id

def prompt? (c : Catalog) (id : String) : Option Prompt := Entries.get? c.prompts id

/-- The fields of a catalog. -/
def fields : List (Field Catalog) := [
  .needed "id" readText (fun x r => { r with id := x }) fun r => .text r.id,
  .free "flows" (readMappingOf Flow.read) (fun x r => { r with flows := x })
    fun r => writeMappingOf Flow.write r.flows,
  .free "models" (readMappingOf Model.read) (fun x r => { r with models := x })
    fun r => writeMappingOf Model.write r.models,
  .free "tables" (readMappingOf Table.read) (fun x r => { r with tables := x })
    fun r => writeMappingOf Table.write r.tables,
  .free "prompts" (readMappingOf Prompt.read) (fun x r => { r with prompts := x })
    fun r => writeMappingOf Prompt.write r.prompts]

def read : Value → Reading Catalog := Field.readRecord fields {}

def write : Catalog → Value := Field.writeRecord fields

end Catalog

end Tabletop
