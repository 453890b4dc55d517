/-
# Register allocation

Allocation repeats rounds until everything left fits: as long as the colouring of a round spills
variables, these move to the stack and the next round begins.  Every such round leaves fewer
candidates than it found, so there is at most one round more than the body has positions.
-/
import Backend.Round
import Backend.Spill
import Backend.Code.Program
import Backend.Traced

namespace Backend

/-- How an allocation went. -/
structure Allocation where
  /-- The number of rounds, the last one without spills. -/
  rounds : Nat
  /-- The number of stack slots in use. -/
  slots : Nat
  deriving DecidableEq, Repr

/-- A body with registers. -/
structure Allocated where
  body : Body
  allocation : Allocation
  events : List Event
  deriving DecidableEq, Repr

namespace Body

/-- Write the registers of a colouring into a body; what has no register loses the one it had. -/
def assignRegisters (b : Body) (s : Storage) (c : Coloring) : Body :=
  { b with store := b.store.mapIdx fun id i =>
      { i with register := if i.op.definesValue then (s.var? id).bind c.register? else none } }

/-- Go through at most `limit` rounds, the first of which has number `round` and spills to the slots
from `next` on. -/
def allocateRounds (k : Nat) : Nat → Nat → Nat → Body → Except Fault Allocated
  | 0, _, _, _ => .error .unsettled
  | limit + 1, round, next, b => do
    let r ← b.round k
    let events := r.events ++
      [.roundColored round b.size r.storage.size r.candidates.size r.coloring.spills.length]
    if r.coloring.spills.isEmpty then
      return { body := b.assignRegisters r.storage r.coloring
               allocation := { rounds := round, slots := next }
               events }
    else
      let spilled ← b.spill r.storage r.coloring.spills next
      let rest ← allocateRounds k limit (round + 1) spilled.nextSlot spilled.body
      return { rest with
        events := events ++ b.spillEvents r.storage next r.coloring.spills ++ rest.events }

/-- Allocate the first `k` registers. -/
def allocate (b : Body) (k : Nat) : Except Fault Allocated :=
  if k = 0 then .error .noFreeRegisters else allocateRounds k (b.size + 1) 1 0 b

end Body

namespace Code

/-- Allocate the first `k` registers in a method. -/
def Method.allocate (k : Nat) (m : Method) : Except Fault (Traced (Allocation × Method)) := do
  let done ← m.body.allocate k
  let a := done.allocation
  return { value := (a, { m with body := done.body })
           events := done.events ++ [.methodAllocated m.name a.rounds a.slots] }

/-- Allocate the first `k` registers in every method of a class. -/
def Class.allocate (k : Nat) (c : Class) : Except Fault (Traced (List Allocation × Class)) := do
  let done ← Traced.traverse (Method.allocate k) c.methods
  return { value := (done.value.map (·.1), { c with methods := done.value.map (·.2) })
           events := done.events }

/-- Allocate the first `k` registers in every method of a program; the allocation of the method it
starts with comes first. -/
def Program.allocate (k : Nat) (p : Program) :
    Except Fault (Traced (List Allocation × Program)) := do
  let main ← p.main.allocate k
  let classes ← Traced.traverse (Class.allocate k) p.classes
  return { value := (main.value.1 :: classes.value.flatMap (·.1),
                     { main := main.value.2, classes := classes.value.map (·.2) })
           events := main.events ++ classes.events }

end Code

end Backend
