/-
# Colouring an interference graph with registers

`Interference.color` takes the graph apart and hands out registers on the way back.  The result
names each candidate once: with a register, or among the spills.
-/
import Backend.Coloring.Selection

namespace Backend

/-- Registers for candidates. -/
structure Coloring where
  /-- The candidates that got a register, by increasing variable. -/
  colors : List (Nat × Nat) := []
  /-- The candidates that got none, by increasing variable. -/
  spills : List Nat := []
  /-- The nodes removed in doubt, in order. -/
  doubtful : List Nat := []
  /-- The pinned nodes that found their register taken, in order. -/
  lostPins : List (Nat × Nat) := []
  deriving DecidableEq, Repr

namespace Coloring

/-- The register of a variable. -/
def register? (c : Coloring) (v : Nat) : Option Nat := c.colors.lookup v

/-- What is reported about a colouring. -/
def events (c : Coloring) : List Event :=
  c.doubtful.map .doubted ++ c.lostPins.map fun p => .pinLost p.1 p.2

end Coloring

/-- Colour an interference graph with the first `k` registers. -/
def Interference.color (g : Interference) (k : Nat) : Coloring :=
  let w := Coloring.Working.dismantle g k
  let s := Coloring.select g k w
  { colors := g.ids.filterMap fun id => do return (← g.var? id, ← s.colorOf id)
    spills := (g.ids.filter (· ∈ s.spilled)).filterMap g.var?
    doubtful := w.doubtful
    lostPins := s.lostPins }

end Backend
