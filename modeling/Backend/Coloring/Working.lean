/-
# The working graph of a colouring

Colouring first takes the interference graph apart, node by node.  The working graph is what is
left: for each remaining node the neighbours that remain with it and their number, its degree.  A
node with fewer neighbours than registers can always be coloured after them, so such nodes are
removed first; when there is none, a node is removed in doubt.
-/
import Backend.Interference

namespace Backend.Coloring

/-- What is left of an interference graph. -/
structure Working where
  /-- The nodes that are left, in increasing order. -/
  remaining : List Nat
  /-- The nodes removed so far, the last one first. -/
  stack : List Nat := []
  /-- The neighbours left to each node that is left. -/
  adjacent : Array IdSet
  /-- The number of neighbours left to each node. -/
  degree : Array Nat
  /-- The nodes removed in doubt, in order. -/
  doubtful : List Nat := []
  deriving DecidableEq, Repr

/-- The register a node is pinned to, if that register is among the first `k`. -/
def pinOf (g : Interference) (k : Nat) (id : Nat) : Option Nat :=
  ((g.val? id).bind (·.pin)).filter (· < k)

namespace Working

/-- The degree of a node. -/
def degreeOf (w : Working) (id : Nat) : Nat := w.degree.getD id 0

/-- The neighbours left to a node. -/
def adjacentTo (w : Working) (id : Nat) : IdSet := w.adjacent.getD id ∅

/-- The whole graph. -/
def ofGraph (g : Interference) : Working :=
  let adjacent := g.ids.toArray.map fun id => (g.adj id).erase id
  { remaining := g.ids, adjacent, degree := adjacent.map (·.size) }

/-- Take a removed node away from one of its neighbours. -/
def detach (removed : Nat) (w : Working) (id : Nat) : Working :=
  if removed ∈ w.adjacentTo id then
    { w with adjacent := w.adjacent.modify id (·.erase removed)
             degree := w.degree.modify id (· - 1) }
  else w

/-- Remove a node. -/
def remove (w : Working) (id : Nat) : Working :=
  let neighbours := w.adjacentTo id
  let rest := neighbours.toList.foldl (detach id)
    { w with remaining := w.remaining.filter (· != id)
             stack := id :: w.stack
             adjacent := w.adjacent.setIfInBounds id ∅ }
  { rest with degree := rest.degree.setIfInBounds id 0 }

/-- Note that a node is removed in doubt. -/
def doubt (w : Working) (id : Nat) : Working := { w with doubtful := w.doubtful ++ [id] }

/-- Remove the pinned nodes that have fewer neighbours than registers to begin with. -/
def removeEasyPins (g : Interference) (k : Nat) (w : Working) : Working :=
  (w.remaining.filter fun id => (pinOf g k id).isSome && w.degreeOf id < k).foldl remove w

/-- Remove the first node with fewer neighbours than registers; failing that, the first node, in
doubt unless it is pinned. -/
def step (g : Interference) (k : Nat) (w : Working) : Working :=
  match w.remaining.find? fun id => w.degreeOf id < k with
  | some id => w.remove id
  | none =>
    match w.remaining with
    | [] => w
    | id :: _ => if (pinOf g k id).isSome then w.remove id else (w.doubt id).remove id

/-- Take a number of steps. -/
def steps (g : Interference) (k : Nat) : Nat → Working → Working
  | 0, w => w
  | n + 1, w => steps g k n (w.step g k)

/-- Take the graph apart: one step for each node left after the easy pins. -/
def dismantle (g : Interference) (k : Nat) : Working :=
  let w := (ofGraph g).removeEasyPins g k
  steps g k w.remaining.length w

end Working

end Backend.Coloring
