/-
Tabletop.Context — the values that a run has at hand.

A context has namespaces (`inputs`, `outputs`, `variables`, `steps`, …) with
named entries, and aliases (`result`, `item`, …) that last for one step.
Contexts are values: every write gives a new one. An entry carries the state
of its validation.

A path whose first segment is an alias reads the alias; otherwise it names a
namespace, an entry in it, and a place inside the value of the entry. A path
of one segment writes an alias, a longer one an entry or a place inside it,
and what is missing on the way becomes a mapping.

  §1 Contexts
  §2 Reading
  §3 Writing
  §4 Templates
-/
import Tabletop.Template.Resolve

namespace Tabletop

/-! ## §1 Contexts -/

/-- How far an entry has been checked against a model. -/
inductive SlotState where
  /-- Not an object of a model. -/
  | plain
  /-- An object that has not been checked since it was last changed. -/
  | raw (model : String)
  /-- An object that meets every demand of its model. -/
  | validated (model : String)
  deriving DecidableEq, Repr

/-- The state of an entry after a write inside it. -/
def SlotState.touched : SlotState → SlotState
  | .validated model => .raw model
  | state => state

/-- The value of an entry with its state. -/
structure Slot where
  value : Value
  state : SlotState

/-- The entries of a namespace. -/
abbrev Slots := Entries Slot

/-- The values that a run has at hand. -/
structure Context where
  spaces : Entries Slots
  aliases : Fields
  resolver : Resolver

/-- Why a write is refused. -/
inductive ContextError where
  | emptyPath
  | reserved (name : String)
  /-- The value at `place` has no fields to write into. -/
  | notAMapping (path place : String)
  | outOfBounds (path : String) (index : Nat)
  deriving DecidableEq, Repr

/-- The error in words. -/
def ContextError.message : ContextError → String
  | .emptyPath => "context path is empty"
  | .reserved name => s!"cannot overwrite reserved namespace '{name}'"
  | .notAMapping path place => s!"cannot write '{path}': '{place}' is not a mapping"
  | .outOfBounds path index => s!"cannot write '{path}': index {natText index} is out of bounds"

/-- The names that are never aliases. -/
def reservedNames : List String := ["inputs", "outputs", "variables", "steps", "sub_flows"]

/-- The namespaces whose entries a flow declares. -/
def declaredNames : List String := ["inputs", "outputs", "variables"]

namespace Context

/-- A context without entries. -/
def empty : Context := ⟨declaredNames.map fun name => (name, []), [], .expressions⟩

/-! ## §2 Reading -/

/-- A namespace as a mapping of its entries. -/
def slotsValue (slots : Slots) : Value := .mapping (slots.map fun e => (e.1, e.2.value))

/-- The value at a path. -/
def lookup (c : Context) : Path → Option Value
  | [] => none
  | root :: rest =>
      match Entries.get? c.aliases root with
      | some v => v.at? rest
      | none =>
          match Entries.get? c.spaces root, rest with
          | none, _ => none
          | some slots, [] => some (slotsValue slots)
          | some slots, entry :: rest => (Entries.get? slots entry).bind fun s => s.value.at? rest

/-- The value at a written path. -/
def get (c : Context) (path : String) : Option Value := c.lookup (Path.split path)

/-- The entry of a namespace. -/
def slot? (c : Context) (space entry : String) : Option Slot :=
  (Entries.get? c.spaces space).bind fun slots => Entries.get? slots entry

/-- The entries of a namespace in the order of their first writing. -/
def entries (c : Context) (space : String) : Fields :=
  ((Entries.get? c.spaces space).getD []).map fun e => (e.1, e.2.value)

/-- Everything in the context as one mapping; an alias hides a namespace of its name. -/
def snapshot (c : Context) : Value :=
  .mapping (Entries.override (c.spaces.map fun e => (e.1, slotsValue e.2)) c.aliases)

/-! ## §3 Writing -/

/-- The value with `new` at a place inside it. `path` is the whole path as messages show it, and
`passed` the part of it that leads to the value. -/
def writeAt (path : String) (new : Value) : (passed : Path) → Value → Path →
    Except ContextError Value
  | _, _, [] => .ok new
  | passed, v, segment :: rest =>
      match (if v.isNull then .mapping [] else v) with
      | .mapping fields => do
          let inner ← writeAt path new (passed ++ [segment])
            ((Entries.get? fields segment).getD (.mapping [])) rest
          .ok (.mapping (Entries.insert fields segment inner))
      | .list items =>
          match Path.index? segment with
          | none => .error (.notAMapping path (Path.join passed))
          | some i =>
              match items[i]? with
              | none => .error (.outOfBounds path i)
              | some item => do
                  let inner ← writeAt path new (passed ++ [segment]) item rest
                  .ok (.list (items.set i inner))
      | _ => .error (.notAMapping path (Path.join passed))

/-- The name cannot be an alias. -/
def isReserved (c : Context) (name : String) : Bool :=
  reservedNames.contains name || Entries.has c.spaces name

/-- A flow declares an entry of the name. -/
def declares (c : Context) (name : String) : Bool :=
  declaredNames.any fun space => (c.slot? space name).isSome

/-- The context with the entries of a namespace replaced. -/
def withSlots (c : Context) (space : String) (slots : Slots) : Context :=
  { c with spaces := Entries.insert c.spaces space slots }

/-- Writes `v` at a path. A write of a whole entry gives it the state `state`. -/
def write (c : Context) (state : SlotState) (v : Value) : Path → Except ContextError Context
  | [] => .error .emptyPath
  | [name] =>
      if c.isReserved name then .error (.reserved name)
      else .ok { c with aliases := Entries.insert c.aliases name v }
  | [space, entry] =>
      let slots := (Entries.get? c.spaces space).getD []
      .ok (c.withSlots space (Entries.insert slots entry ⟨v, state⟩))
  | space :: entry :: rest => do
      let slots := (Entries.get? c.spaces space).getD []
      let slot := (Entries.get? slots entry).getD ⟨.mapping [], .plain⟩
      let inner ← writeAt (Path.join (space :: entry :: rest)) v [space, entry] slot.value rest
      .ok (c.withSlots space (Entries.insert slots entry ⟨inner, slot.state.touched⟩))

/-- Writes a value at a written path. -/
def set (c : Context) (path : String) (v : Value) : Except ContextError Context :=
  c.write .plain v (Path.split path)

/-- Writes a value at a written path, with a state if the path names a whole entry. -/
def setTagged (c : Context) (path : String) (v : Value) (state : SlotState) :
    Except ContextError Context :=
  c.write state v (Path.split path)

/-- Gives the entry, if it is there, a state. -/
def retagSlot (c : Context) (space entry : String) (state : SlotState) : Context :=
  match Entries.get? c.spaces space with
  | none => c
  | some slots =>
      match Entries.get? slots entry with
      | none => c
      | some slot => c.withSlots space (Entries.insert slots entry { slot with state := state })

/-- Gives the entry of a written path a state; a path to anything else changes nothing. -/
def retag (c : Context) (path : String) (state : SlotState) : Context :=
  match Path.split path with
  | [space, entry] => c.retagSlot space entry state
  | _ => c

/-- The context without aliases. -/
def clearAliases (c : Context) : Context := { c with aliases := [] }

/-- The alias that a write at the path makes and that has the name of a declared entry. -/
def shadowing? (c : Context) : Path → Option String
  | [name] => if !c.isReserved name && c.declares name then some name else none
  | _ => none

/-! ## §4 Templates -/

/-- The context as a scope for expressions. -/
def scope (c : Context) : Scope := c.lookup

/-- The value of a template. -/
def resolveTemplate (c : Context) (template : String) : Except TemplateError Value :=
  c.resolver.resolve template c.scope

/-- The condition holds. -/
def condition (c : Context) (condition : String) : Except TemplateError Bool :=
  c.resolver.condition condition c.scope

mutual

/-- The value with every text inside it resolved as a template. -/
def resolveValue (c : Context) : Value → Except TemplateError Value
  | .text template => c.resolveTemplate template
  | .list items => (resolveItems c items).map .list
  | .mapping fields => (resolveFields c fields).map .mapping
  | v => .ok v

def resolveItems (c : Context) : List Value → Except TemplateError (List Value)
  | [] => .ok []
  | v :: rest => do
      let v ← resolveValue c v
      let rest ← resolveItems c rest
      .ok (v :: rest)

def resolveFields (c : Context) :
    List (String × Value) → Except TemplateError (List (String × Value))
  | [] => .ok []
  | (k, v) :: rest => do
      let v ← resolveValue c v
      let rest ← resolveFields c rest
      .ok ((k, v) :: rest)

end

end Context

end Tabletop
