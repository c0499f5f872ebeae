/-
Tabletop.Model — models of game objects.

A model describes a structured object, such as a character or an item, by
a tree of attributes: typed attributes with defaults, ranges, options and
formulas, in groups that may be nested. A model inherits the attributes of
the models it extends and may have rules for the object as a whole.

  §1 Types
  §2 Records
-/
import Tabletop.Record

namespace Tabletop

/-! ## §1 Types -/

/-- What is declared about one attribute. -/
structure AttributeDefinition where
  /-- A primitive type, `list`, `dict`, or the id of a model. -/
  typeName : String := ""
  /-- The value of an attribute that is absent. -/
  default : Option Value := none
  /-- An inclusive range of numbers: `1..20`, `0..` or `..10`. -/
  range : Option String := none
  /-- The values allowed. -/
  options : Option (List Value) := none
  /-- A template that computes the attribute from the other fields. -/
  derived : Option String := none
  /-- The type of the items of a list. -/
  element : Option String := none
  /-- The attribute may be absent or null. -/
  optional : Bool := false

/-- A node of the attribute tree: an attribute, or a group of named nodes. -/
inductive Attribute where
  | leaf (definition : AttributeDefinition)
  | group (children : List (String × Attribute))

/-- The nodes of an attribute tree by name. -/
abbrev Attributes := Entries Attribute

/-- The declared type of a leaf; groups have none. -/
def Attribute.typeName? : Attribute → Option String
  | .leaf d => some d.typeName
  | .group _ => none

/-- A rule for the object as a whole, and what is reported when it does not hold. -/
structure ValidationRule where
  expression : String := ""
  message : String := ""
  deriving DecidableEq, Repr

/-- A model. -/
structure Model where
  id : String := ""
  name : Option String := none
  description : Option String := none
  /-- The models whose attributes are inherited; later ones win over earlier ones. -/
  parents : List String := []
  attributes : Attributes := []
  validations : List ValidationRule := []

/-! ## §2 Records -/

/-- The fields of an attribute record. -/
def AttributeDefinition.fields : List (Field AttributeDefinition) := [
  .needed "type" readText (fun x r => { r with typeName := x }) fun r => .text r.typeName,
  .free "default" (readOptional readValue) (fun x r => { r with default := x })
    fun r => writeOptional id r.default,
  .free "range" (readOptional readText) (fun x r => { r with range := x })
    fun r => writeOptional .text r.range,
  .free "enum" (readOptional (readListOf readValue)) (fun x r => { r with options := x })
    fun r => writeOptional .list r.options,
  .free "derived" (readOptional readText) (fun x r => { r with derived := x })
    fun r => writeOptional .text r.derived,
  .free "of" (readOptional readText) (fun x r => { r with element := x })
    fun r => writeOptional .text r.element,
  .free "optional" readFlag (fun x r => { r with optional := x }) fun r => .bool r.optional]

mutual

/-- Reads a node: a type name alone, a mapping with a type, or a group. -/
def Attribute.read : Value → Reading Attribute
  | .text typeName => .ok (.leaf { typeName := typeName })
  | .mapping entries =>
      if Entries.has entries "type" then
        (Field.readRecord AttributeDefinition.fields {} (.mapping entries)).map .leaf
      else (readGroup entries).map .group
  | other => .error (.notAnAttribute other.compact)

/-- Reads the nodes of a group. -/
def readGroup : List (String × Value) → Reading (List (String × Attribute))
  | [] => .ok []
  | (name, v) :: rest => do
      let node ← Attribute.read v
      let nodes ← readGroup rest
      .ok ((name, node) :: nodes)

end

mutual

/-- The node as a mapping. -/
def Attribute.write : Attribute → Value
  | .leaf d => Field.writeRecord AttributeDefinition.fields d
  | .group children => .mapping (writeGroup children)

/-- The nodes of a group, written. -/
def writeGroup : List (String × Attribute) → List (String × Value)
  | [] => []
  | (name, node) :: rest => (name, node.write) :: writeGroup rest

end

/-- The fields of a validation rule. -/
def ValidationRule.fields : List (Field ValidationRule) := [
  .needed "expression" readText (fun x r => { r with expression := x })
    fun r => .text r.expression,
  .needed "message" readText (fun x r => { r with message := x }) fun r => .text r.message]

def ValidationRule.read : Value → Reading ValidationRule := Field.readRecord fields {}

def ValidationRule.write : ValidationRule → Value := Field.writeRecord fields

/-- The fields of a model. -/
def Model.fields : List (Field Model) := [
  .needed "id" readText (fun x r => { r with id := x }) fun r => .text r.id,
  .free "name" (readOptional readText) (fun x r => { r with name := x })
    fun r => writeOptional .text r.name,
  .free "description" (readOptional readText) (fun x r => { r with description := x })
    fun r => writeOptional .text r.description,
  .free "extends" (readListOf readText) (fun x r => { r with parents := x })
    fun r => .list (r.parents.map .text),
  .free "attributes" (readMappingOf Attribute.read) (fun x r => { r with attributes := x })
    fun r => writeMappingOf Attribute.write r.attributes,
  .free "validations" (readListOf ValidationRule.read) (fun x r => { r with validations := x })
    fun r => .list (r.validations.map ValidationRule.write)]

def Model.read : Value → Reading Model := Field.readRecord fields {}

def Model.write : Model → Value := Field.writeRecord fields

end Tabletop
