/-
# One round of allocation

A round analyses a body and colours its candidates.  It changes nothing: the caller decides what to
do with the colouring.
-/
import Backend.Coloring

namespace Backend

/-- What a round finds out about a body. -/
structure Round where
  storage : Storage
  /-- The flow graph with settled live sets. -/
  flow : FlowGraph
  /-- How many sweeps the live sets took to settle. -/
  sweeps : Nat
  candidates : Candidates
  interference : Interference
  coloring : Coloring
  deriving DecidableEq, Repr

/-- Analyse a body and colour its candidates with the first `k` registers. -/
def Body.round (b : Body) (k : Nat) : Except Fault Round := do
  let storage ← Storage.ofBody b
  let unsettled ← FlowGraph.ofBody b storage
  let (sweeps, flow) := unsettled.analyze
  let candidates := b.candidates storage
  let interference := Interference.build flow candidates
  return { storage, flow, sweeps, candidates, interference, coloring := interference.color k }

namespace Round

/-- What is reported about a round, its colouring last. -/
def events (r : Round) : List Event :=
  r.flow.built :: .livenessSettled r.sweeps :: r.interference.built :: r.coloring.events

end Round

/-- A round together with a second look at its live sets. -/
structure Survey where
  round : Round
  /-- How many sweeps the settled live sets take to settle again. -/
  sweepsAgain : Nat

/-- Analyse a body, and let its live sets settle a second time. -/
def Body.survey (b : Body) (k : Nat) : Except Fault Survey := do
  let round ← b.round k
  return { round, sweepsAgain := round.flow.analyze.1 }

/-- What is reported about a survey. -/
def Survey.events (s : Survey) : List Event :=
  s.round.flow.built :: .livenessSettled s.round.sweeps :: .livenessSettled s.sweepsAgain ::
    s.round.interference.built :: s.round.coloring.events

end Backend
