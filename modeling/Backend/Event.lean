/-
# Reports on the work

The stages report what they do as events.  An event is data; its level and wording are given by
`Event.level` and `Event.text`.
-/
import Backend.Name

namespace Backend

/-- How much detail an event is. -/
inductive Level where
  | debug
  | trace
  deriving DecidableEq, Repr

/-- The text of a level. -/
def Level.text : Level → String
  | .debug => "DEBUG"
  | .trace => "TRACE"

/-- Something a stage reports. -/
inductive Event where
  /-- Two definitions of a name were joined by an instruction. -/
  | joined (name : Name) (id left right : Nat)
  /-- An instruction was pinned by the calling convention. -/
  | pinned (id : Nat) (register : Nat)
  /-- A flow graph was built. -/
  | flowBuilt (nodes : Nat)
  /-- The live sets settled. -/
  | livenessSettled (passes : Nat)
  /-- An interference graph was built. -/
  | interferenceBuilt (nodes edges : Nat)
  /-- A node was removed although it may not get a register. -/
  | doubted (node : Nat)
  /-- A pinned node found its register taken by a neighbour. -/
  | pinLost (node : Nat) (register : Nat)
  /-- A round of allocation was coloured. -/
  | roundColored (round instructions vars candidates spills : Nat)
  /-- A variable was moved to the stack. -/
  | spilled (var : Nat) (slot : Nat)
  /-- A method was allocated. -/
  | methodAllocated (name : Name) (rounds slots : Nat)
  /-- All methods of a program were allocated. -/
  | programAllocated (methods slots : Nat)
  deriving DecidableEq, Repr

namespace Event

/-- How much detail the event is. -/
def level : Event → Level
  | joined .. | roundColored .. | spilled .. | methodAllocated .. | programAllocated .. => .debug
  | pinned .. | flowBuilt _ | livenessSettled _ | interferenceBuilt .. | doubted _ | pinLost .. =>
    .trace

/-- The wording of the event. -/
def text : Event → String
  | joined name id left right => "unify " ++ name ++ s!": {id} = Unify {left} {right}"
  | pinned id r => s!"pin {id} to r{r}"
  | flowBuilt nodes => s!"flow graph: {nodes} nodes"
  | livenessSettled passes => s!"liveness converged after {passes} passes"
  | interferenceBuilt nodes edges => s!"interference graph: {nodes} nodes, {edges} edges"
  | doubted node => s!"potential spill ID({node})"
  | pinLost node r => s!"pinned ID({node}) loses r{r}"
  | roundColored round instructions vars candidates spills =>
    s!"round {round}: {instructions} instructions, {vars} variables, " ++
      s!"{candidates} candidates, {spills} spills"
  | spilled var slot => s!"spill v{var} to slot {slot}"
  | methodAllocated name rounds slots => name ++ s!": {rounds} rounds, {slots} stack slots"
  | programAllocated methods slots =>
    s!"allocated {methods} methods, {slots} stack slots in total"

/-- The event as one line: level and wording. -/
def line (e : Event) : String := e.level.text ++ " " ++ e.text

end Event

end Backend
