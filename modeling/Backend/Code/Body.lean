/-
# Bodies: the code of one method

A `Body` keeps its instructions in a store, where each has a number for good, and their order of
execution apart from it.  Instructions are added at the end (`push`) or in the middle (`insert`)
and never taken away, so numbers stay valid when code is inserted around them.
-/
import Backend.Code.Instr

namespace Backend

/-- The code of one method. -/
structure Body where
  /-- The instructions by number. -/
  store : Array Instr := #[]
  /-- The numbers in order of execution. -/
  order : List Nat := []
  deriving DecidableEq, Repr

namespace Body

instance : Inhabited Body := ⟨{}⟩

/-! ## Looking at a body -/

/-- The number of positions. -/
def size (b : Body) : Nat := b.order.length

/-- The numbered instructions in order of execution. -/
def toList (b : Body) : List (Nat × Instr) :=
  b.order.filterMap fun id => b.store[id]?.map fun i => (id, i)

/-- The operations in order of execution. -/
def ops (b : Body) : List Op := b.toList.map (·.2.op)

/-- The instruction with a number. -/
def get (b : Body) (id : Nat) : Except Fault Instr := orOutOfRange b.store[id]?

/-- The instruction at a position. -/
def idAt (b : Body) (position : Nat) : Except Fault Nat := orOutOfRange b.order[position]?

/-- The position of an instruction. -/
def position? (b : Body) (id : Nat) : Option Nat := b.order.findIdx? (· == id)

/-! ## Building and changing a body -/

/-- The body whose instructions are executed in the order of their numbers. -/
def ofStore (store : Array Instr) : Body := ⟨store, List.range store.size⟩

/-- Add an instruction at the end. -/
def push (b : Body) (i : Instr) : Nat × Body :=
  (b.store.size, ⟨b.store.push i, b.order ++ [b.store.size]⟩)

/-- Add an instruction in front of the one at a position, or at the end. -/
def insert (b : Body) (position : Nat) (i : Instr) : Except Fault (Nat × Body) :=
  if position ≤ b.size then
    .ok (b.store.size, ⟨b.store.push i, b.order.insertIdx position b.store.size⟩)
  else .error .outOfRange

/-- The body of the operations alone. -/
def ofOps (ops : List Op) : Body := ops.foldl (fun b op => (b.push { op }).2) {}

/-- Change one instruction. -/
def modify (b : Body) (id : Nat) (f : Instr → Instr) : Except Fault Body :=
  if id < b.store.size then .ok { b with store := b.store.modify id f } else .error .outOfRange

/-- Ask for a register for the value of one instruction. -/
def pin (b : Body) (id : Nat) (r : Nat) : Except Fault Body :=
  b.modify id fun i => { i with pin := some r }

/-- Exchange the operation of one instruction. -/
def setOp (b : Body) (id : Nat) (op : Op) : Except Fault Body :=
  b.modify id fun i => { i with op }

/-- Let one instruction use `new` wherever it used `old`, and count the places. -/
def retarget (b : Body) (id old new : Nat) : Except Fault (Nat × Body) := do
  let i ← b.get id
  let b ← b.setOp id (i.op.mapOperands fun x => if x = old then new else x)
  return (i.op.operands.count old, b)

/-! ## The text of a body -/

/-- A number in a column of four places. -/
def column (n : Nat) : String := String.ofList ((toString n).toList.leftpad 4 ' ')

/-- One line per instruction, in order of execution. -/
def text (b : Body) : String :=
  String.join (b.toList.map fun (id, i) => column id ++ ": " ++ i.text ++ "\n")

end Body

end Backend
