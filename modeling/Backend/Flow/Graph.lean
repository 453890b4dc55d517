/-
# Flow graphs

A flow graph has one node per position of a body.  Control passes from an instruction to the next
one, unless it always jumps, and to the label it may jump to; of several places with the same label
the last one counts.
-/
import Backend.Digraph
import Backend.Event
import Backend.Storage

namespace Backend

/-- What liveness has to know about one instruction. -/
structure FlowNode where
  instr : Nat
  /-- The variable the instruction writes. -/
  defines : Option Nat := none
  /-- The variables the instruction reads. -/
  uses : IdSet := ∅
  /-- The variables with a value that is needed when control reaches the instruction. -/
  liveIn : IdSet := ∅
  /-- The variables with a value that is needed, or just written, when control leaves it. -/
  liveOut : IdSet := ∅
  deriving DecidableEq, Repr

/-- The flow of control through a body. -/
abbrev FlowGraph := Digraph FlowNode

namespace FlowNode

/-- The variable written, if the operation leaves a value. -/
def definedBy (s : Storage) (id : Nat) (op : Op) : Except Fault (Option Nat) :=
  if op.definesValue then return some (← s.var id) else return none

/-- The variables read: those of the operands, but joining definitions only reads the variable
they already share. -/
def usedBy (s : Storage) (id : Nat) (op : Op) : Except Fault IdSet := do
  let vars ← (if op.isUnify then [id] else op.operands).mapM s.var
  return IdSet.ofList vars

/-- The node of an instruction. -/
def ofInstr (s : Storage) (entry : Nat × Instr) : Except Fault FlowNode := do
  let defines ← definedBy s entry.1 entry.2.op
  let uses ← usedBy s entry.1 entry.2.op
  return { instr := entry.1, defines, uses }

end FlowNode

namespace FlowGraph

/-- Control falls through from each operation but a `goto` to the next one; positions are counted
from `n`. -/
def fallEdges (n : Nat) : List Op → List (Nat × Nat)
  | op :: next :: rest =>
    if op.isGoto then fallEdges (n + 1) (next :: rest)
    else (n, n + 1) :: fallEdges (n + 1) (next :: rest)
  | _ => []

/-- The last position that holds a label. -/
def labelPosition? (ops : List Op) (l : Label) : Option Nat :=
  (ops.zipIdx.filter fun p => p.1.labelHere == some l).getLast?.map (·.2)

/-- The position a jump to a label leads to. -/
def resolve (ops : List Op) (l : Label) : Except Fault Nat :=
  match labelPosition? ops l with
  | some n => .ok n
  | none => .error (.unresolvedLabel l)

/-- The jumps with their targets, in order. -/
def jumps (ops : List Op) : List (Nat × Label) :=
  ops.zipIdx.filterMap fun p => p.1.target.map fun l => (p.2, l)

/-- Each jump leads to its target. -/
def jumpEdges (ops : List Op) : Except Fault (List (Nat × Nat)) :=
  (jumps ops).mapM fun j => do return (j.1, ← resolve ops j.2)

/-- Add edges that are not there yet. -/
def linkNew (g : FlowGraph) (edges : List (Nat × Nat)) : Except Fault FlowGraph := do
  let (news, g) ← g.linkAll edges
  if news.all id then return g else .error .repeatedEdge

/-- The flow graph of a body. -/
def ofBody (b : Body) (s : Storage) : Except Fault FlowGraph := do
  let nodes ← b.toList.mapM (FlowNode.ofInstr s)
  let falls ← linkNew (Digraph.ofVals nodes) (fallEdges 0 b.ops)
  let targets ← jumpEdges b.ops
  let (_, g) ← falls.linkAll targets
  return g

/-- What is reported about a finished flow graph. -/
def built (g : FlowGraph) : Event := .flowBuilt g.size

end FlowGraph

end Backend
