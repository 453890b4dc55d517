/-
# Liveness

A variable is live where its value may still be needed.  `FlowGraph.analyze` sweeps over the flow
graph, last node first, until a sweep changes nothing (`FlowGraph.settle`).
-/
import Backend.Flow.Graph

namespace Backend

namespace FlowNode

/-- The variables live when control leaves a node: what it writes, and what is live on entry to any
of the nodes that follow. -/
def outFrom (n : FlowNode) (after : List IdSet) : IdSet :=
  after.foldl (· ∪ ·) (n.defines.elim ∅ IdSet.singleton)

/-- The variables live when control reaches a node: what it reads, and what is live afterwards
without being written here. -/
def inFrom (n : FlowNode) (out : IdSet) : IdSet :=
  n.uses ∪ out.filter fun v => n.defines != some v

/-- The node with its live sets found anew from those of the nodes that follow. -/
def update (n : FlowNode) (after : List IdSet) : FlowNode :=
  let out := n.outFrom after
  { n with liveIn := n.inFrom out, liveOut := out }

end FlowNode

namespace FlowGraph

/-- The variables live on entry to a node. -/
def liveIn (g : FlowGraph) (id : Nat) : IdSet := (g.val? id).elim ∅ (·.liveIn)

/-- The variables live on exit from a node. -/
def liveOut (g : FlowGraph) (id : Nat) : IdSet := (g.val? id).elim ∅ (·.liveOut)

/-- Find the live sets of one node anew. -/
def visit (g : FlowGraph) (id : Nat) : FlowGraph :=
  g.modifyVal id (·.update ((g.succ id).toList.map g.liveIn))

/-- Visit every node once, the last one first. -/
def sweep (g : FlowGraph) : FlowGraph := g.ids.foldr (fun id g => g.visit id) g

/-- Sweep until a sweep changes nothing, at most `limit` times; the result counts the sweeps. -/
def settle : Nat → Nat → FlowGraph → Nat × FlowGraph
  | 0, done, g => (done, g)
  | limit + 1, done, g =>
    let swept := g.sweep
    if swept = g then (done + 1, g) else settle limit (done + 1) swept

/-- More sweeps than live sets that settle can take.  Each variable moves along the edges on its
own, and where it comes to rest at all it does so within about as many sweeps as there are pairs of
nodes. -/
def sweepLimit (g : FlowGraph) : Nat := (g.size + 2) * (g.size + 2)

/-- Let the live sets settle; the result counts the sweeps, the last of which changed nothing. -/
def analyze (g : FlowGraph) : Nat × FlowGraph := settle g.sweepLimit 0 g

end FlowGraph

end Backend
