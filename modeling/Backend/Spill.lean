/-
# Spilling: moving variables to the stack

A spilled variable lives in a stack slot of its own.  Every instruction that writes it is followed
by a store, every instruction that reads it is preceded by a load and reads the loaded value
instead, so the variable itself needs no register any more.  An instruction that joins definitions
of a spilled variable has nothing to do: they share the slot.
-/
import Backend.Event
import Backend.Storage

namespace Backend

/-- The stack slot of each instruction that moves to the stack; of two entries for an instruction
the first one counts. -/
abbrev SlotMap := List (Nat × Nat)

/-! ## Choosing slots -/

/-- The instructions of a variable, all of which have to be in the body. -/
def Body.membersIn (b : Body) (s : Storage) (v : Nat) : Except Fault (List Nat) := do
  let ids ← s.membersOf v
  if ids.all (· < b.store.size) then return ids else .error .outOfRange

/-- Give one slot after the other, from `next` on, to the listed variables. -/
def Body.slotMap (b : Body) (s : Storage) (next : Nat) : List Nat → Except Fault SlotMap
  | [] => .ok []
  | v :: vs => do
    let ids ← b.membersIn s v
    let later ← b.slotMap s (next + 1) vs
    return later ++ ids.map fun id => (id, next)

/-- What is reported while slots are given to variables, up to the first variable that is not in the
body. -/
def Body.spillEvents (b : Body) (s : Storage) (next : Nat) : List Nat → List Event
  | [] => []
  | v :: vs => .spilled v next ::
    match b.membersIn s v with
    | .ok _ => b.spillEvents s (next + 1) vs
    | .error _ => []

/-! ## Spill code around one instruction -/

namespace SlotMap

/-- The stack slot of an instruction. -/
def slotOf (slots : SlotMap) (id : Nat) : Option Nat := slots.lookup id

/-- The slots an operation has to load, each once, in the order of its operands. -/
def toLoad (slots : SlotMap) (id : Nat) (op : Op) : List Nat :=
  if op.isUnify && (slots.slotOf id).isSome then []
  else (op.operands.filterMap slots.slotOf).eraseDups

/-- The slot an instruction has to store its value to. -/
def toStore (slots : SlotMap) (id : Nat) (op : Op) : Option Nat :=
  if op.definesValue && !op.isUnify then slots.slotOf id else none

/-- The operand that stands for `operand` when the listed slots have been loaded by consecutive
instructions from `first` on. -/
def redirect (slots : SlotMap) (loads : List Nat) (first operand : Nat) : Nat :=
  match (slots.slotOf operand).bind loads.idxOf? with
  | some n => first + n
  | none => operand

/-- Add an instruction to a body under construction, with its spill code around it.  The store of
the body already holds the instruction; loads and the store instruction get fresh numbers. -/
def place (slots : SlotMap) (b : Body) (id : Nat) : Body :=
  match b.store[id]? with
  | none => b
  | some i =>
    let loads := slots.toLoad id i.op
    let saved := slots.toStore id i.op
    let first := b.store.size
    let next := first + loads.length
    let moved := { i with op := i.op.mapOperands (slots.redirect loads first) }
    { store := b.store.setIfInBounds id moved
        ++ loads.map (fun s => ({ op := .load s, span := i.span } : Instr))
        ++ saved.toList.map (fun s => ({ op := .store id s, span := i.span } : Instr))
      order := b.order ++ List.range' first loads.length ++ [id]
        ++ saved.toList.map (fun _ => next) }

end SlotMap

/-! ## Spill code in a body -/

/-- A body with spill code. -/
structure Spilled where
  body : Body
  /-- How many instructions have been added. -/
  inserted : Nat
  /-- The first slot not given away. -/
  nextSlot : Nat
  deriving DecidableEq, Repr

namespace Body

/-- Note the slots at the instructions that move to the stack. -/
def markSlots (b : Body) (slots : SlotMap) : Body :=
  { b with store := b.store.mapIdx fun id i =>
      match slots.slotOf id with
      | some s => { i with slot := some s }
      | none => i }

/-- Surround the instructions with the spill code for a slot map. -/
def addSpillCode (b : Body) (slots : SlotMap) : Body :=
  b.order.foldl slots.place { (b.markSlots slots) with order := [] }

/-- Move the listed variables to the stack, to slots from `next` on. -/
def spill (b : Body) (s : Storage) (vars : List Nat) (next : Nat) : Except Fault Spilled := do
  let slots ← b.slotMap s next vars
  let body := b.addSpillCode slots
  return { body, inserted := body.size - b.size, nextSlot := next + vars.length }

end Body

end Backend
