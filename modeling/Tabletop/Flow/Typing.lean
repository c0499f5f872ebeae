/-
Tabletop.Flow.Typing — the declared type of a path, and values stored under it.

The first two segments of a path name a declared input, output or variable;
further segments go down the attribute trees of models. A value for a place
with a declared type is converted: into a primitive, or into an object of a
model. Data that make no valid object are stored as they are and marked as
unchecked.
-/
import Tabletop.Failure
import Tabletop.Model.Instantiate

namespace Tabletop

/-! ## §1 Declared types -/

/-- What is declared about a place. -/
inductive Declared where
  | typed (typeName : String)
  | group (children : Attributes)
  | listOf (element : String)

/-- What the attribute of a name declares. -/
def declaredBy (attributes : Attributes) (name : String) : Option Declared :=
  (Entries.get? attributes name).map fun node =>
    match node with
    | .group children => .group children
    | .leaf d =>
        match d.typeName, d.element with
        | "list", some element => .listOf element
        | typeName, _ => .typed typeName

/-- One segment further down. -/
def Declared.child? (c : Catalog) : Declared → String → Option Declared
  | .typed typeName, segment => (c.attributes? typeName).bind fun a => declaredBy a segment
  | .group children, segment => declaredBy children segment
  | .listOf element, segment => (Path.index? segment).map fun _ => .typed element

/-- The declaration at the end of a path. -/
def Declared.at? (c : Catalog) : Declared → Path → Option Declared
  | d, [] => some d
  | d, segment :: rest => (d.child? c segment).bind fun e => e.at? c rest

/-- The type of a place; groups have none. -/
def Declared.typeName? : Declared → Option String
  | .typed typeName => some typeName
  | .listOf _ => some "list"
  | .group _ => none

/-- The declared type of a path. -/
def Flow.expectedType? (f : Flow) (c : Catalog) (path : String) : Option String :=
  match Path.split path with
  | space :: id :: rest =>
      (f.declared? space id).bind fun d =>
        ((Declared.typed d.typeName).at? c rest).bind Declared.typeName?
  | _ => none

/-! ## §2 Conversion -/

/-- Gives data of a model the key `model` unless they have one. -/
def withModelKey (v : Value) (model : String) : Value :=
  match v with
  | .mapping fields => .mapping (Entries.insertNew fields "model" (.text model))
  | v => v

/-- The value as an object of a model, or as unchecked data. -/
def asObject (make : Instantiator) (model : String) (fields : Fields) : Value × SlotState :=
  match make.instantiate model (.mapping fields) with
  | .ok object => (object.value, .validated model)
  | .error _ => (withModelKey (.mapping fields) model, .raw model)

/-- The value as it is stored at a path, with its state. -/
def Flow.coerceFor (f : Flow) (c : Catalog) (make : Instantiator) (path : String) (v : Value) :
    Except Failure (Value × SlotState) :=
  match f.expectedType? c path with
  | none => .ok (v, .plain)
  | some typeName =>
      if isPrimitive typeName then
        match make.coerce v typeName with
        | .ok w => .ok (w, .plain)
        | .error e => .error (.within (.store path) (.instantiation e))
      else if make.hasModel typeName then
        match v with
        | .mapping fields => .ok (asObject make typeName fields)
        | v => .ok (v, .plain)
      else .ok (v, .plain)

end Tabletop
