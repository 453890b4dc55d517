/-
# Instructions

An instruction is an operation with the place it came from and what allocation has decided about
it: a register, a register asked for in advance (a pin), a stack slot.
-/
import Backend.Code.Op

namespace Backend

/-- An operation with its place in the source text and its storage. -/
structure Instr where
  op : Op
  /-- The source text the instruction stands for. -/
  span : Option Span := none
  /-- The register that holds the value. -/
  register : Option Nat := none
  /-- The register the value has to be in. -/
  pin : Option Nat := none
  /-- The stack slot that holds the value. -/
  slot : Option Nat := none
  deriving DecidableEq, Repr

namespace Instr

/-- Whether the instruction already deals with the stack: its value lives there, or it moves a
value to or from there. -/
def isSpillCode (i : Instr) : Bool := i.slot.isSome || i.op.accessesSlot

/-- The text of an instruction: the operation, then what is known of its storage. -/
def text (i : Instr) : String :=
  let remark (word : String) (n : Option Nat) : String := n.elim "" fun n => s!"  ; {word}{n}"
  i.op.text ++ remark "r" i.register ++ remark "pinned r" i.pin ++ remark "slot " i.slot

end Instr

end Backend
