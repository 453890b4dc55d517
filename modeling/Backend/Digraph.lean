/-
# Directed graphs with values at their vertices

Vertices are numbered in the order of insertion.  Every edge is recorded at both ends, as a
successor here and as a predecessor there; `Digraph.link` refuses to go on when the two records
disagree.  Sets of neighbours are always listed in increasing order.
-/
import Backend.Fault
import Backend.IdSet

namespace Backend

/-- A vertex: its value and its edges. -/
structure Vertex (α : Type) where
  val : α
  /-- Where the edges from this vertex lead. -/
  succ : IdSet := ∅
  /-- Where the edges to this vertex come from. -/
  pred : IdSet := ∅
  deriving DecidableEq, Repr

/-- A directed graph. -/
structure Digraph (α : Type) where
  vertices : Array (Vertex α) := #[]
  deriving DecidableEq, Repr

namespace Digraph

variable {α : Type}

instance : Inhabited (Digraph α) := ⟨{}⟩

/-! ## Looking at a graph -/

/-- The number of vertices. -/
def size (g : Digraph α) : Nat := g.vertices.size

/-- The vertices' numbers. -/
def ids (g : Digraph α) : List Nat := List.range g.size

/-- The vertex with a number. -/
def vertex (g : Digraph α) (id : Nat) : Except Fault (Vertex α) := orOutOfRange g.vertices[id]?

/-- The value at a vertex. -/
def val? (g : Digraph α) (id : Nat) : Option α := g.vertices[id]?.map (·.val)

/-- The successors of a vertex. -/
def succ (g : Digraph α) (id : Nat) : IdSet := g.vertices[id]?.elim ∅ (·.succ)

/-- The predecessors of a vertex. -/
def pred (g : Digraph α) (id : Nat) : IdSet := g.vertices[id]?.elim ∅ (·.pred)

/-- All neighbours of a vertex. -/
def adj (g : Digraph α) (id : Nat) : IdSet := g.succ id ∪ g.pred id

/-- Whether two numbers name the same vertex; both have to name one. -/
def sameVertex (g : Digraph α) (a b : Nat) : Except Fault Bool := do
  let _ ← g.vertex a
  let _ ← g.vertex b
  return a == b

/-! ## Building a graph -/

/-- Add a vertex without edges. -/
def insert (g : Digraph α) (val : α) : Nat × Digraph α :=
  (g.size, ⟨g.vertices.push { val }⟩)

/-- The graph without edges that has the listed values. -/
def ofVals (vals : List α) : Digraph α := ⟨(vals.map fun val => { val }).toArray⟩

/-- The graph that has the listed values and an edge wherever a relation holds. -/
def ofRel (vals : List α) (rel : Nat → Nat → Bool) : Digraph α :=
  let n := vals.length
  ⟨vals.toArray.mapIdx fun a val =>
    { val, succ := IdSet.below n (rel a ·), pred := IdSet.below n (rel · a) }⟩

/-- Record an edge at both ends. -/
def addEdge (g : Digraph α) (a b : Nat) : Digraph α :=
  ⟨(g.vertices.modify a fun v => { v with succ := v.succ.insert b }).modify b fun v =>
    { v with pred := v.pred.insert a }⟩

/-- Add an edge; the result says whether it is new. -/
def link (g : Digraph α) (a b : Nat) : Except Fault (Bool × Digraph α) :=
  if a < g.size ∧ b < g.size then
    if b ∈ g.succ a ↔ a ∈ g.pred b then .ok (b ∉ g.succ a, g.addEdge a b) else .error .halfEdge
  else .error .outOfRange

/-- Add an edge in each direction. -/
def doubleLink (g : Digraph α) (a b : Nat) : Except Fault (Digraph α) := do
  let (_, g) ← g.link a b
  let (_, g) ← g.link b a
  return g

/-- Add the listed edges in order; the results say which were new. -/
def linkAll (g : Digraph α) : List (Nat × Nat) → Except Fault (List Bool × Digraph α)
  | [] => .ok ([], g)
  | (a, b) :: edges => do
    let (new, g) ← g.link a b
    let (news, g) ← g.linkAll edges
    return (new :: news, g)

/-! ## Changing values -/

/-- Send the value at every vertex through a function. -/
def mapVals (g : Digraph α) (f : α → α) : Digraph α :=
  ⟨g.vertices.map fun v => { v with val := f v.val }⟩

/-- Send the value at one vertex through a function. -/
def modifyVal (g : Digraph α) (id : Nat) (f : α → α) : Digraph α :=
  ⟨g.vertices.modify id fun v => { v with val := f v.val }⟩

/-- Exchange the value at a vertex; the result holds the old one. -/
def setVal (g : Digraph α) (id : Nat) (val : α) : Except Fault (α × Digraph α) := do
  let v ← g.vertex id
  return (v.val, g.modifyVal id fun _ => val)

/-! ## Edges after each operation -/

@[simp] theorem mem_adj {g : Digraph α} {x y : Nat} : y ∈ g.adj x ↔ y ∈ g.succ x ∨ y ∈ g.pred x :=
  IdSet.mem_union

@[simp] theorem size_addEdge (g : Digraph α) (a b : Nat) : (g.addEdge a b).size = g.size := by
  simp [size, addEdge]

/-- The new edge leads from its start to its end, and all other edges stay. -/
theorem mem_succ_addEdge {g : Digraph α} {a b x y : Nat} :
    y ∈ (g.addEdge a b).succ x ↔ y ∈ g.succ x ∨ (x = a ∧ y = b ∧ a < g.size) := by
  rw [succ, succ, addEdge, Array.getElem?_modify, Array.getElem?_modify]
  cases hx : g.vertices[x]? with
  | none =>
    have hsize : g.size ≤ x := Array.getElem?_eq_none_iff.1 hx
    by_cases hb : b = x <;> by_cases ha : a = x <;> simp [ha, hb] <;> omega
  | some v =>
    have hsize : x < g.size := (Array.getElem?_eq_some_iff.1 hx).1
    by_cases hb : b = x <;> by_cases ha : a = x <;> simp [ha, hb] <;> grind

/-- The new edge comes to its end from its start, and all other edges stay. -/
theorem mem_pred_addEdge {g : Digraph α} {a b x y : Nat} :
    y ∈ (g.addEdge a b).pred x ↔ y ∈ g.pred x ∨ (x = b ∧ y = a ∧ b < g.size) := by
  rw [pred, pred, addEdge, Array.getElem?_modify, Array.getElem?_modify]
  cases hx : g.vertices[x]? with
  | none =>
    have hsize : g.size ≤ x := Array.getElem?_eq_none_iff.1 hx
    by_cases hb : b = x <;> by_cases ha : a = x <;> simp [ha, hb] <;> omega
  | some v =>
    have hsize : x < g.size := (Array.getElem?_eq_some_iff.1 hx).1
    by_cases hb : b = x <;> by_cases ha : a = x <;> simp [ha, hb] <;> grind

@[simp] theorem size_ofRel (vals : List α) (rel : Nat → Nat → Bool) :
    (ofRel vals rel).size = vals.length := by
  simp [size, ofRel]

theorem mem_succ_ofRel {vals : List α} {rel : Nat → Nat → Bool} {x y : Nat} :
    y ∈ (ofRel vals rel).succ x ↔ x < vals.length ∧ y < vals.length ∧ rel x y = true := by
  rw [succ, ofRel, Array.getElem?_mapIdx]
  by_cases h : x < vals.length <;> simp [h]

theorem mem_pred_ofRel {vals : List α} {rel : Nat → Nat → Bool} {x y : Nat} :
    y ∈ (ofRel vals rel).pred x ↔ x < vals.length ∧ y < vals.length ∧ rel y x = true := by
  rw [pred, ofRel, Array.getElem?_mapIdx]
  by_cases h : x < vals.length <;> simp [h]

end Digraph

end Backend
