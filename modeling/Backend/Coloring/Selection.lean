/-
# Handing out registers

The nodes of a dismantled graph get their registers one after the other: pinned nodes first, the
youngest before the older ones, so that of two neighbours pinned to one register the younger keeps
it; then the others, the last one removed first and the doubtful ones at the end.  A register that
some node is pinned to is kept for pinned nodes.  A node that finds no register is spilled.
-/
import Backend.Coloring.Working

namespace Backend.Coloring

/-- The registers handed out so far. -/
structure Selection where
  /-- The register of each node. -/
  colors : Array (Option Nat)
  /-- The nodes without a register, the last one first. -/
  spilled : List Nat := []
  /-- The pinned nodes that found their register taken, in order. -/
  lostPins : List (Nat × Nat) := []
  deriving DecidableEq, Repr

/-- The smallest register below `k` that is not taken.  Among one register more than are taken there
is always one that is not. -/
def lowestFree (k : Nat) (taken : List Nat) : Option Nat :=
  (List.range (min k (taken.length + 1))).find? fun r => r ∉ taken

/-- A list that holds all numbers below `n` has at least `n` entries. -/
theorem le_length_of_forall_mem {n : Nat} {taken : List Nat} (h : ∀ r < n, r ∈ taken) :
    n ≤ taken.length := by
  induction n generalizing taken with
  | zero => exact Nat.zero_le _
  | succ n ih =>
    have hn : n ∈ taken := h n (Nat.lt_succ_self n)
    have hle : n ≤ (taken.erase n).length := by
      apply ih
      intro r hr
      exact (List.mem_erase_of_ne (Nat.ne_of_lt hr)).2 (h r (Nat.lt_succ_of_lt hr))
    have hpos : 0 < taken.length := List.length_pos_of_mem hn
    rw [List.length_erase_of_mem hn] at hle
    omega

/-- There is no free register exactly when all of the first `k` are taken. -/
theorem lowestFree_eq_none_iff {k : Nat} {taken : List Nat} :
    lowestFree k taken = none ↔ ∀ r < k, r ∈ taken := by
  have hall : lowestFree k taken = none ↔ ∀ r < min k (taken.length + 1), r ∈ taken := by
    simp [lowestFree, List.find?_eq_none]
  rw [hall]
  constructor
  · intro h
    have hmin : min k (taken.length + 1) ≤ taken.length := le_length_of_forall_mem h
    intro r hr
    exact h r (by omega)
  · intro h r hr
    exact h r (by omega)

/-- The register found is the smallest of the first `k` that is not taken. -/
theorem lowestFree_eq_some_iff {k r : Nat} {taken : List Nat} :
    lowestFree k taken = some r ↔ r < k ∧ r ∉ taken ∧ ∀ q < r, q ∈ taken := by
  have hfind : lowestFree k taken = some r ↔
      r < min k (taken.length + 1) ∧ r ∉ taken ∧ ∀ q < r, q ∈ taken := by
    rw [lowestFree, List.find?_range_eq_some]
    simp only [List.mem_range, decide_eq_true_eq, Bool.not_eq_true', decide_eq_false_iff_not,
      Decidable.not_not]
    constructor
    · rintro ⟨hr, hm, hq⟩
      exact ⟨hm, hr, hq⟩
    · rintro ⟨hm, hr, hq⟩
      exact ⟨hr, hm, hq⟩
  rw [hfind]
  constructor
  · rintro ⟨hm, h⟩
    exact ⟨by omega, h⟩
  · rintro ⟨hk, hr, hq⟩
    have hle : r ≤ taken.length := le_length_of_forall_mem hq
    exact ⟨by omega, hr, hq⟩

namespace Selection

/-- The register of a node. -/
def colorOf (s : Selection) (id : Nat) : Option Nat := s.colors[id]?.join

/-- The registers of a node's neighbours. -/
def usedAround (s : Selection) (g : Interference) (id : Nat) : List Nat :=
  (g.adj id).toList.filterMap s.colorOf

/-- Give a register to a node. -/
def assign (s : Selection) (id : Nat) (r : Nat) : Selection :=
  { s with colors := s.colors.setIfInBounds id (some r) }

/-- Leave a node without a register. -/
def spill (s : Selection) (id : Nat) : Selection := { s with spilled := id :: s.spilled }

/-- Give a pinned node its register, unless a neighbour has it. -/
def placePinned (g : Interference) (s : Selection) (p : Nat × Nat) : Selection :=
  if p.2 ∈ s.usedAround g p.1 then { s.spill p.1 with lostPins := s.lostPins ++ [p] }
  else s.assign p.1 p.2

/-- Give a node the smallest register that is neither reserved nor used by a neighbour. -/
def placeFree (g : Interference) (k : Nat) (reserved : List Nat) (s : Selection)
    (id : Nat) : Selection :=
  match lowestFree k (reserved ++ s.usedAround g id) with
  | some r => s.assign id r
  | none => s.spill id

end Selection

/-- The pinned nodes with their registers, in increasing order. -/
def pins (g : Interference) (k : Nat) : List (Nat × Nat) :=
  g.ids.filterMap fun id => (pinOf g k id).map fun r => (id, r)

/-- The nodes without a pin in the order in which they get their registers. -/
def freeOrder (g : Interference) (k : Nat) (w : Working) : List Nat :=
  let free := w.stack.filter fun id => (pinOf g k id).isNone
  free.filter (· ∉ w.doubtful) ++ free.filter (· ∈ w.doubtful)

/-- Hand out the first `k` registers to the nodes of a dismantled graph. -/
def select (g : Interference) (k : Nat) (w : Working) : Selection :=
  let pinned := pins g k
  let start : Selection := { colors := Array.replicate g.size none }
  let placed := pinned.reverse.foldl (Selection.placePinned g) start
  (freeOrder g k w).foldl (Selection.placeFree g k (pinned.map (·.2))) placed

end Backend.Coloring
