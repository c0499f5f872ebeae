/-
Tabletop.Context.Change — the difference of two contexts.

`changesSince` lists the writes and tags that lead from one context to
another, as deep inside the entries as they differ. Changes of several
contexts that come from one can be applied to it one after the other; a
removal is no change.

  §1 Changes
  §2 Comparing values
  §3 Comparing contexts
  §4 Applying
-/
import Tabletop.Context

namespace Tabletop

/-! ## §1 Changes -/

/-- One change of a context. -/
inductive Change where
  | write (path : Path) (value : Value)
  | retag (space entry : String) (state : SlotState)

namespace Context

/-! ## §2 Comparing values -/

/-- A write of each field below the path. -/
def writesOf (path : Path) (fields : Fields) : List Change :=
  fields.map fun e => .write (path ++ [e.1]) e.2

mutual

/-- The writes below the path that turn `old` into the value. Mappings are compared field by
field; a mapping in the place of null is written field by field too, since a write below null makes
a mapping. -/
def valueChanges (path : Path) (old : Value) : Value → List Change
  | .mapping new =>
      match old with
      | .mapping fields => fieldChanges path fields new
      | .null => if new.isEmpty then [.write path (.mapping new)] else writesOf path new
      | _ => [.write path (.mapping new)]
  | new => if old.same new then [] else [.write path new]

def fieldChanges (path : Path) (old : Fields) : List (String × Value) → List Change
  | [] => []
  | (k, v) :: rest =>
      (match Entries.get? old k with
        | none => [.write (path ++ [k]) v]
        | some w => if w.same v then [] else valueChanges (path ++ [k]) w v)
        ++ fieldChanges path old rest

end

/-! ## §3 Comparing contexts -/

/-- The changes of one entry. -/
def slotChanges (space entry : String) (old : Option Slot) (new : Slot) : List Change :=
  match old with
  | none => [.write [space, entry] new.value, .retag space entry new.state]
  | some slot =>
      valueChanges [space, entry] slot.value new.value
        ++ if slot.state = new.state then [] else [.retag space entry new.state]

/-- The alias has no value in `base`, or another one. -/
def aliasDiffers (base : Context) (name : String) (v : Value) : Bool :=
  match Entries.get? base.aliases name with
  | some w => !w.same v
  | none => true

/-- The changes that turn `base` into the context. -/
def changesSince (c base : Context) : List Change :=
  (c.spaces.flatMap fun space =>
    space.2.flatMap fun entry =>
      slotChanges space.1 entry.1 (base.slot? space.1 entry.1) entry.2)
  ++ c.aliases.filterMap fun e =>
    if base.aliasDiffers e.1 e.2 then some (.write [e.1] e.2) else none

/-! ## §4 Applying -/

/-- The context after one change. -/
def applyChange (c : Context) : Change → Except ContextError Context
  | .write path v => c.write .plain v path
  | .retag space entry state => .ok (c.retagSlot space entry state)

/-- The context after changes in their order. -/
def applyChanges (c : Context) : List Change → Except ContextError Context
  | [] => .ok c
  | change :: rest => do
      let c ← c.applyChange change
      c.applyChanges rest

end Context

end Tabletop
