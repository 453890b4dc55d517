/-
# What can go wrong

A `Fault` is the cause of a failure.  Some faults are refusals, answers about a program that cannot
be compiled; the others are defects: the caller named something that does not exist, or a structure
lost an invariant that every operation keeps.
-/
import Backend.Name
import Backend.Source.Span
import Backend.Code.Label

namespace Backend

/-- The cause of a failure. -/
inductive Fault where
  /-- A name or `this` needs a receiver where there is none. -/
  | noReceiver (name : Name) (span : Span)
  /-- A jump leads to a label that stands nowhere in the body. -/
  | unresolvedLabel (label : Label)
  /-- There is no register to hand out. -/
  | noFreeRegisters
  /-- A token is not an operator. -/
  | unknownOperator
  /-- An operand names an instruction that is not in the body. -/
  | notInBody (id : Nat)
  /-- An index names nothing. -/
  | outOfRange
  /-- An edge of a graph is recorded at one of its two ends only. -/
  | halfEdge
  /-- An edge that should be new is already there. -/
  | repeatedEdge
  /-- Allocation used up its rounds. -/
  | unsettled
  deriving DecidableEq, Repr

namespace Fault

/-- The wording of a fault. -/
def message : Fault → String
  | noReceiver name span =>
    span.start.text ++ ": `" ++ name ++ "` needs a receiver, but there is no `this` here"
  | unresolvedLabel label => "jump to unknown label `" ++ label.text ++ "`"
  | noFreeRegisters => "no free registers to allocate"
  | unknownOperator => "Matching variant not found"
  | notInBody id => s!"instruction {id} is not part of the body"
  | outOfRange => "index out of range"
  | halfEdge => "edge recorded at one end only"
  | repeatedEdge => "edge recorded twice"
  | unsettled => "allocation did not settle"

/-- Whether the fault is a defect rather than a refusal, so that nothing can follow it. -/
def isDefect : Fault → Bool
  | noReceiver .. | unresolvedLabel _ | noFreeRegisters | unknownOperator => false
  | notInBody _ | outOfRange | halfEdge | repeatedEdge | unsettled => true

end Fault

/-- The value, or the fault that an index names nothing. -/
def orOutOfRange {α : Type} : Option α → Except Fault α
  | some a => .ok a
  | none => .error .outOfRange

end Backend
