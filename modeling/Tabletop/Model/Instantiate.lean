/-
Tabletop.Model.Instantiate — from data to an object of a model.

Defaults fill in what is absent, primitive attributes are converted, nested
objects are built, and formulas are computed, in the order of the attribute
tree. A strict build then checks every demand and every rule and refuses
the object with the list of all violations; a lenient build keeps what it
cannot convert and checks nothing.

Nested objects are built from values inside the data, so the number of
builds inside one another is bounded by the nesting of the data:
`instantiate` allows two more than that.

  §1 Filling in
  §2 Formulas
  §3 Building
  §4 Instantiators
-/
import Tabletop.Model.Constraint
import Tabletop.Model.Inheritance
import Tabletop.Model.Primitive
import Tabletop.Template.Resolve

namespace Tabletop

/-- An object of a model. -/
structure ModelObject where
  model : String
  /-- All fields, with the id of the model under `model`. -/
  fields : Fields

/-- The object as a value. -/
def ModelObject.value (o : ModelObject) : Value := .mapping o.fields

/-! ## §1 Filling in -/

/-- Converts a value into a type: `build` makes the objects of models, and `isModel` says which
types are models. A value of any other type stays as it is. -/
def coerceTyped (isModel : String → Bool)
    (build : String → Value → Except InstantiationError Value) (typeName : String) (v : Value) :
    Except InstantiationError Value :=
  if isPrimitive typeName then coercePrimitive v typeName
  else if isModel typeName then build typeName v
  else .ok v

/-- Converts a value into the type of an attribute, the items of a list into their type. -/
def coerceAttribute (isModel : String → Bool)
    (build : String → Value → Except InstantiationError Value) (d : AttributeDefinition)
    (v : Value) : Except InstantiationError Value :=
  if isPrimitive d.typeName || isModel d.typeName then coerceTyped isModel build d.typeName v
  else
    match d.typeName, v, d.element with
    | "list", .list items, some element =>
        (items.mapM (coerceTyped isModel build element)).map .list
    | _, _, _ => .ok v

/-- Fills in a leaf: an absent one with its default, any other with its converted value. Derived
attributes are left alone. -/
def fillLeaf (coerce : AttributeDefinition → Value → Except InstantiationError Value)
    (path : Path) (name : String) (d : AttributeDefinition) (fields : Fields) :
    Fields × List Violation :=
  if d.derived.isSome then (fields, [])
  else
    match presentField? fields name with
    | none =>
        match d.default with
        | some v => (Entries.insert fields name v, [])
        | none => (fields, [])
    | some v =>
        match coerce d v with
        | .ok w => (Entries.insert fields name w, [])
        | .error e => (fields, [.attribute path e])

mutual

/-- Fills in a node in the fields of its group. -/
def Attribute.fill (coerce : AttributeDefinition → Value → Except InstantiationError Value)
    (parent : Path) (name : String) (fields : Fields) : Attribute → Fields × List Violation
  | .leaf d => fillLeaf coerce (parent ++ [name]) name d fields
  | .group children =>
      match (presentField? fields name).getD (.mapping []) with
      | .mapping inner =>
          let (filled, violations) := fillGroup coerce (parent ++ [name]) inner children
          (Entries.insert fields name (.mapping filled), violations)
      | _ => (fields, [.notAGroup (parent ++ [name])])

/-- Fills in the nodes of a group in their order. -/
def fillGroup (coerce : AttributeDefinition → Value → Except InstantiationError Value)
    (parent : Path) (fields : Fields) : List (String × Attribute) → Fields × List Violation
  | [] => (fields, [])
  | (name, node) :: rest =>
      let (filled, here) := node.fill coerce parent name fields
      let (all, after) := fillGroup coerce parent filled rest
      (all, here ++ after)

end

/-! ## §2 Formulas -/

/-- A formula, the place it computes, and the type there. -/
structure Formula where
  path : Path
  template : String
  typeName : String

mutual

/-- The formulas of a node. -/
def Attribute.formulas (parent : Path) (name : String) : Attribute → List Formula
  | .leaf d =>
      match d.derived with
      | some template => [⟨parent ++ [name], template, d.typeName⟩]
      | none => []
  | .group children => groupFormulas (parent ++ [name]) children

/-- The formulas of a group in their order. -/
def groupFormulas (parent : Path) : List (String × Attribute) → List Formula
  | [] => []
  | (name, node) :: rest => node.formulas parent name ++ groupFormulas parent rest

end

/-- The fields with a value at a path; whatever is no mapping on the way is replaced by one. -/
def insertAt : Fields → Path → Value → Fields
  | fields, [], _ => fields
  | fields, [name], v => Entries.insert fields name v
  | fields, name :: rest, v =>
      let inner := match Entries.get? fields name with
        | some (.mapping inner) => inner
        | _ => []
      Entries.insert fields name (.mapping (insertAt inner rest v))

/-- The value of a formula, converted if its type is primitive. -/
def Formula.compute (r : Resolver) (f : Formula) (fields : Fields) :
    Except InstantiationError Value :=
  match r.resolve f.template (Fields.scope fields) with
  | .error e => .error (.template e)
  | .ok v => if isPrimitive f.typeName then coercePrimitive v f.typeName else .ok v

/-- Computes formulas in their order; later ones see what earlier ones gave. -/
def computeFormulas (r : Resolver) : List Formula → Fields → Fields × List Violation
  | [], fields => (fields, [])
  | f :: rest, fields =>
      match f.compute r fields with
      | .ok v => computeFormulas r rest (insertAt fields f.path v)
      | .error e =>
          let (all, after) := computeFormulas r rest fields
          (all, .derived f.path e :: after)

/-! ## §3 Building -/

/-- The violations of the rules of a model. -/
def ruleViolations (r : Resolver) (rules : List ValidationRule) (fields : Fields) :
    List Violation :=
  rules.flatMap fun rule =>
    match r.condition rule.expression (Fields.scope fields) with
    | .ok true => []
    | .ok false => [.rule rule.message]
    | .error e => [.ruleFailed e]

/-- The fields of the data of a model, with the id of the model among them. -/
def dataFields (model : String) (data : Value) : Except InstantiationError Fields :=
  let named (fields : Fields) : Fields := Entries.insert fields "model" (.text model)
  match data with
  | .mapping fields => .ok (named fields)
  | .null => .ok (named [])
  | _ => .error (.notAMapping model)

/-- Builds an object of a model, with at most `levels` builds inside one another. -/
def buildObject (c : Catalog) (r : Resolver) (strict : Bool) :
    (levels : Nat) → (model : String) → (data : Value) → Except InstantiationError ModelObject
  | 0, _, _ => .error .outOfFuel
  | levels + 1, model, data =>
      match c.model? model, c.attributes? model with
      | some m, some attributes => do
          let fields ← dataFields model data
          let nested (id : String) (v : Value) : Except InstantiationError Value :=
            (buildObject c r strict levels id v).map ModelObject.value
          let coerce := coerceAttribute (fun id => (c.model? id).isSome) nested
          let (filled, atFilling) := fillGroup coerce [] fields attributes
          let (complete, atFormulas) :=
            computeFormulas r (groupFormulas [] attributes) filled
          if strict then
            let violations := atFilling ++ atFormulas ++ groupViolations [] complete attributes
              ++ ruleViolations r m.validations complete
            if violations.isEmpty then .ok ⟨model, complete⟩
            else .error (.invalid model violations)
          else .ok ⟨model, complete⟩
      | _, _ => .error (.unknownModel model)

/-- The object of a model that the data make up, all demands met. -/
def Catalog.instantiate (c : Catalog) (r : Resolver) (model : String) (data : Value) :
    Except InstantiationError ModelObject :=
  buildObject c r true (data.depth + 2) model data

/-- The object of a model that the data make up, no demand checked. -/
def Catalog.instantiateLenient (c : Catalog) (r : Resolver) (model : String) (data : Value) :
    Except InstantiationError ModelObject :=
  buildObject c r false (data.depth + 2) model data

/-! ## §4 Instantiators -/

/-- What an engine needs to make objects and primitive values. -/
structure Instantiator where
  instantiate : String → Value → Except InstantiationError ModelObject
  instantiateLenient : String → Value → Except InstantiationError ModelObject
  coerce : Value → String → Except InstantiationError Value
  hasModel : String → Bool

/-- The instantiator of the models of a catalog. -/
def Catalog.instantiator (c : Catalog) (r : Resolver) : Instantiator where
  instantiate := c.instantiate r
  instantiateLenient := c.instantiateLenient r
  coerce := coercePrimitive
  hasModel id := (c.model? id).isSome

/-- An instantiator that knows no model and leaves primitive values as they are. -/
def Instantiator.modelless : Instantiator where
  instantiate id _ := .error (.unknownModel id)
  instantiateLenient id _ := .error (.unknownModel id)
  coerce v _ := .ok v
  hasModel _ := false

end Tabletop
