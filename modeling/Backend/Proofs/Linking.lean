/-
# Graphs that are built call by call

A graph begins empty; from then on vertices are added, linked in one direction or in both, and given
new values (`Digraph.Call`).  The same calls can be answered from a table whose rows know their own
numbers (`VertexTable`): there a link is written down at its start and then at its end, and each of
the two places says whether the link is new to it.  Both ways of keeping a graph are the same
(`VertexTable.run_numbered`).

The two places never disagree.  A call that names vertices of the graph adds the edges that it asks
for, each at both of its ends, and no others (`Digraph.Holds.call`), so every sequence of such calls
goes through (`Digraph.mirrored_run`).  Conversely, every graph with its edges at both ends is the
outcome of some calls (`Digraph.exists_run_iff_mirrored`), and flow graphs and interference graphs,
which are put together in other ways, are among them.
-/
import Mathlib
import Backend.Proofs.Interference

namespace Backend

/-- A result that is mapped comes from a result. -/
theorem map_eq_ok_iff {ε α β : Type} {x : Except ε α} {f : α → β} {r : β} :
    x.map f = .ok r ↔ ∃ a, x = .ok a ∧ f a = r := by
  cases x <;> simp [Except.map]

/-! ## Calls -/

namespace Digraph

variable {α : Type}

/-- What can be asked of a graph. -/
inductive Call (α : Type) where
  | insert (val : α)
  | link (a b : Nat)
  | doubleLink (a b : Nat)
  | setVal (id : Nat) (val : α)
  | modifyVal (id : Nat) (f : α → α)
  | mapVals (f : α → α)

namespace Call

/-- The vertices that a call names. -/
def names : Call α → List Nat
  | insert _ | mapVals _ => []
  | link a b | doubleLink a b => [a, b]
  | setVal id _ | modifyVal id _ => [id]

/-- The edges that a call asks for. -/
def edges : Call α → List (Nat × Nat)
  | link a b => [(a, b)]
  | doubleLink a b => [(a, b), (b, a)]
  | insert _ | setVal .. | modifyVal .. | mapVals _ => []

/-- The number of vertices after a call. -/
def grow (n : Nat) : Call α → Nat
  | insert _ => n + 1
  | link .. | doubleLink .. | setVal .. | modifyVal .. | mapVals _ => n

/-- The calls name vertices of the graph only, which has `n` of them before the first call. -/
def Fits (n : Nat) : List (Call α) → Prop
  | [] => True
  | c :: calls => (∀ id ∈ c.names, id < n) ∧ Fits (c.grow n) calls

/-- Whether calls fit is decided call by call. -/
instance decidableFits (n : Nat) : (calls : List (Call α)) → Decidable (Fits n calls)
  | [] => inferInstanceAs (Decidable True)
  | c :: calls =>
    have := decidableFits (c.grow n) calls
    inferInstanceAs (Decidable (_ ∧ _))

end Call

/-- Answer a call. -/
def call (g : Digraph α) : Call α → Except Fault (Digraph α)
  | .insert val => .ok (g.insert val).2
  | .link a b => (g.link a b).map (·.2)
  | .doubleLink a b => g.doubleLink a b
  | .setVal id val => (g.setVal id val).map (·.2)
  | .modifyVal id f => (g.vertex id).map fun _ => g.modifyVal id f
  | .mapVals f => .ok (g.mapVals f)

/-- Setting a value is a change that forgets the old one. -/
theorem call_setVal (g : Digraph α) (id : Nat) (val : α) :
    g.call (.setVal id val) = g.call (.modifyVal id fun _ => val) := by
  rw [call, call, setVal]
  cases g.vertex id <;> rfl

/-- Answer calls one after the other. -/
def run (g : Digraph α) (calls : List (Call α)) : Except Fault (Digraph α) := calls.foldlM call g

end Digraph

/-! ## Tables of vertices -/

/-- A vertex that knows its number. -/
structure NumberedVertex (α : Type) extends Vertex α where
  id : Nat

/-- A graph as the table of its vertices. -/
structure VertexTable (α : Type) where
  rows : Array (NumberedVertex α) := #[]

namespace VertexTable

variable {α : Type}

/-- The row with a number. -/
def row (t : VertexTable α) (id : Nat) : Except Fault (NumberedVertex α) := orOutOfRange t.rows[id]?

/-- Change what a row says about its vertex. -/
def modify (t : VertexTable α) (id : Nat) (f : Vertex α → Vertex α) : VertexTable α :=
  ⟨t.rows.modify id fun r => { r with toVertex := f r.toVertex }⟩

/-- Add a row, which gets the next number. -/
def insert (t : VertexTable α) (val : α) : Nat × VertexTable α :=
  (t.rows.size, ⟨t.rows.push { val, id := t.rows.size }⟩)

/-- Write down where an edge leads; the answer says whether that is new. -/
def addSucc (t : VertexTable α) (a b : Nat) : Except Fault (Bool × VertexTable α) := do
  let r ← t.row a
  return (b ∉ r.succ, t.modify a fun v => { v with succ := v.succ.insert b })

/-- Write down where an edge comes from; the answer says whether that is new. -/
def addPred (t : VertexTable α) (a b : Nat) : Except Fault (Bool × VertexTable α) := do
  let r ← t.row b
  return (a ∉ r.pred, t.modify b fun v => { v with pred := v.pred.insert a })

/-- Write an edge down at its start and then at its end; the two answers have to agree. -/
def link (t : VertexTable α) (a b : Nat) : Except Fault (Bool × VertexTable α) := do
  let (new, t) ← t.addSucc a b
  let (newBack, t) ← t.addPred a b
  if new = newBack then return (new, t) else throw .halfEdge

/-- Add an edge in each direction. -/
def doubleLink (t : VertexTable α) (a b : Nat) : Except Fault (VertexTable α) := do
  let (_, t) ← t.link a b
  let (_, t) ← t.link b a
  return t

/-- Send the value in one row through a function. -/
def modifyVal (t : VertexTable α) (id : Nat) (f : α → α) : Except Fault (VertexTable α) := do
  let _ ← t.row id
  return t.modify id fun v => { v with val := f v.val }

/-- Send the value in every row through a function. -/
def mapVals (t : VertexTable α) (f : α → α) : VertexTable α :=
  ⟨t.rows.map fun r => { r with val := f r.val }⟩

/-- Answer a call. -/
def call (t : VertexTable α) : Digraph.Call α → Except Fault (VertexTable α)
  | .insert val => .ok (t.insert val).2
  | .link a b => (t.link a b).map (·.2)
  | .doubleLink a b => t.doubleLink a b
  | .setVal id val => t.modifyVal id fun _ => val
  | .modifyVal id f => t.modifyVal id f
  | .mapVals f => .ok (t.mapVals f)

/-- Answer calls one after the other. -/
def run (t : VertexTable α) (calls : List (Digraph.Call α)) : Except Fault (VertexTable α) :=
  calls.foldlM call t

end VertexTable

/-- The table of a graph: row `i` is vertex `i`, with the number `i`. -/
def Digraph.numbered {α : Type} (g : Digraph α) : VertexTable α :=
  ⟨g.vertices.mapIdx fun id v => { toVertex := v, id }⟩

/-! ## Tables answer like graphs -/

namespace Digraph

variable {α : Type}

/-- Record where an edge leads. -/
def addSucc (g : Digraph α) (a b : Nat) : Digraph α :=
  ⟨g.vertices.modify a fun v => { v with succ := v.succ.insert b }⟩

/-- Record where an edge comes from. -/
def addPred (g : Digraph α) (a b : Nat) : Digraph α :=
  ⟨g.vertices.modify b fun v => { v with pred := v.pred.insert a }⟩

theorem size_addSucc (g : Digraph α) (a b : Nat) : (g.addSucc a b).size = g.size :=
  Array.size_modify

/-- What a change at one vertex leaves alone is the same at every vertex. -/
theorem elim_modify {f : Vertex α → Vertex α} {get : Vertex α → IdSet} (h : ∀ v, get (f v) = get v)
    (g : Digraph α) (id x : Nat) :
    (g.vertices.modify id f)[x]?.elim ∅ get = g.vertices[x]?.elim ∅ get := by
  rw [Array.getElem?_modify]
  split
  · cases g.vertices[x]? with
    | none => rfl
    | some v => exact h v
  · rfl

theorem pred_addSucc (g : Digraph α) (a b id : Nat) : (g.addSucc a b).pred id = g.pred id := by
  refine elim_modify ?_ g a id
  exact fun _ => rfl

/-- The vertex with a number in range. -/
theorem vertex_of_lt {g : Digraph α} {id : Nat} (h : id < g.size) :
    ∃ v, g.vertex id = .ok v ∧ v.succ = g.succ id ∧ v.pred = g.pred id := by
  rw [vertex, succ, pred, Array.getElem?_eq_getElem h]
  exact ⟨_, rfl, rfl, rfl⟩

/-- A number out of range is refused. -/
theorem vertex_of_le {g : Digraph α} {id : Nat} (h : g.size ≤ id) :
    g.vertex id = .error .outOfRange := by
  rw [vertex, Array.getElem?_eq_none h]
  rfl

end Digraph

namespace VertexTable

variable {α : Type} (g : Digraph α)

/-- The rows of a graph with numbers. -/
theorem getElem?_numbered (id : Nat) :
    g.numbered.rows[id]? = g.vertices[id]?.map fun v => { toVertex := v, id } :=
  Array.getElem?_mapIdx

theorem row_numbered (id : Nat) :
    g.numbered.row id = (g.vertex id).map fun v => { toVertex := v, id } := by
  rw [row, getElem?_numbered, Digraph.vertex]
  cases g.vertices[id]? <;> rfl

/-- Numbers are kept when a row is changed. -/
theorem modify_numbered (id : Nat) (f : Vertex α → Vertex α) :
    g.numbered.modify id f = (⟨g.vertices.modify id f⟩ : Digraph α).numbered := by
  refine congrArg VertexTable.mk (Array.ext_getElem? fun x => ?_)
  rw [Array.getElem?_modify, getElem?_numbered]
  show _ = (Digraph.mk (g.vertices.modify id f)).numbered.rows[x]?
  rw [getElem?_numbered, Array.getElem?_modify]
  split
  · cases g.vertices[x]? <;> rfl
  · rfl

/-- A new row gets the next number. -/
theorem insert_numbered (val : α) :
    g.numbered.insert val = (g.size, (g.insert val).2.numbered) := by
  have hsize : g.numbered.rows.size = g.size := Array.size_mapIdx
  rw [insert, hsize]
  refine congrArg (Prod.mk g.size) (congrArg VertexTable.mk ?_)
  exact Array.mapIdx_push.symm

theorem mapVals_numbered (f : α → α) : g.numbered.mapVals f = (g.mapVals f).numbered := by
  refine congrArg VertexTable.mk (Array.ext_getElem? fun x => ?_)
  show (g.numbered.rows.map _)[x]? = (g.mapVals f).numbered.rows[x]?
  rw [Array.getElem?_map, getElem?_numbered, getElem?_numbered, Digraph.mapVals, Array.getElem?_map]
  cases g.vertices[x]? <;> rfl

/-- Adding a successor, with and without numbers. -/
theorem addSucc_numbered (a b : Nat) :
    g.numbered.addSucc a b = if a < g.size then .ok (b ∉ g.succ a, (g.addSucc a b).numbered)
      else .error .outOfRange := by
  rw [addSucc, row_numbered, modify_numbered]
  split
  · obtain ⟨v, hv, hsucc, -⟩ := Digraph.vertex_of_lt ‹a < g.size›
    rw [hv, ← hsucc]
    rfl
  · rw [Digraph.vertex_of_le (not_lt.1 ‹_›)]
    rfl

/-- Adding a predecessor, with and without numbers. -/
theorem addPred_numbered (a b : Nat) :
    g.numbered.addPred a b = if b < g.size then .ok (a ∉ g.pred b, (g.addPred a b).numbered)
      else .error .outOfRange := by
  rw [addPred, row_numbered, modify_numbered]
  split
  · obtain ⟨v, hv, -, hpred⟩ := Digraph.vertex_of_lt ‹b < g.size›
    rw [hv, ← hpred]
    rfl
  · rw [Digraph.vertex_of_le (not_lt.1 ‹_›)]
    rfl

/-- The two answers are compared after both notes have been made, but the first note does not change
what the second one is compared with, even where an edge leads back to its start. -/
theorem link_numbered (a b : Nat) :
    g.numbered.link a b = (g.link a b).map fun r => (r.1, r.2.numbered) := by
  rw [link, addSucc_numbered, Digraph.link]
  by_cases ha : a < g.size
  · rw [if_pos ha]
    show (g.addSucc a b).numbered.addPred a b >>= _ = _
    rw [addPred_numbered, Digraph.size_addSucc, Digraph.pred_addSucc]
    by_cases hb : b < g.size
    · rw [if_pos hb, if_pos ⟨ha, hb⟩]
      show (if decide (b ∉ g.succ a) = decide (a ∉ g.pred b) then _ else _) = _
      by_cases hboth : b ∈ g.succ a ↔ a ∈ g.pred b
      · rw [if_pos hboth, if_pos (by simp only [hboth])]
        rfl
      · rw [if_neg hboth, if_neg fun h => hboth (not_iff_not.1 (decide_eq_decide.1 h))]
        rfl
    · rw [if_neg hb, if_neg fun h => hb h.2]
      rfl
  · rw [if_neg ha, if_neg fun h => ha h.1]
    rfl

/-- Linking both ways, with and without numbers. -/
theorem doubleLink_numbered (a b : Nat) :
    g.numbered.doubleLink a b = (g.doubleLink a b).map Digraph.numbered := by
  rw [doubleLink, Digraph.doubleLink, link_numbered]
  cases g.link a b with
  | error e => rfl
  | ok r =>
    show r.2.numbered.link b a >>= _ = (r.2.link b a >>= _).map _
    rw [link_numbered]
    cases r.2.link b a <;> rfl

theorem modifyVal_numbered (id : Nat) (f : α → α) :
    g.numbered.modifyVal id f = (g.call (.modifyVal id f)).map Digraph.numbered := by
  rw [modifyVal, row_numbered, modify_numbered, Digraph.call]
  cases g.vertex id <;> rfl

/-- **Step lemma.**  A table answers a call like the graph it is the table of. -/
theorem call_numbered (c : Digraph.Call α) :
    g.numbered.call c = (g.call c).map Digraph.numbered := by
  cases c with
  | insert val =>
    rw [call, insert_numbered]
    rfl
  | link a b =>
    rw [call, link_numbered, Digraph.call]
    cases g.link a b <;> rfl
  | doubleLink a b => exact doubleLink_numbered g a b
  | setVal id val =>
    rw [Digraph.call_setVal]
    exact modifyVal_numbered g id fun _ => val
  | modifyVal id f => exact modifyVal_numbered g id f
  | mapVals f => exact congrArg Except.ok (mapVals_numbered g f)

/-- **Run lemma.**  A table goes through any calls like the graph it is the table of, and where one
of the two is refused, so is the other, for the same reason. -/
theorem run_numbered (calls : List (Digraph.Call α)) :
    g.numbered.run calls = (g.run calls).map Digraph.numbered := by
  induction calls generalizing g with
  | nil => rfl
  | cons c calls ih =>
    rw [run, Digraph.run, List.foldlM_cons, List.foldlM_cons, call_numbered]
    cases g.call c with
    | error e => rfl
    | ok g' => exact ih g'

end VertexTable

/-! ## The edges after any calls -/

namespace Digraph

variable {α : Type} {g : Digraph α}

/-- A value is changed without touching successors. -/
theorem succ_modifyVal (g : Digraph α) (id : Nat) (f : α → α) (x : Nat) :
    (g.modifyVal id f).succ x = g.succ x := by
  refine elim_modify ?_ g id x
  exact fun _ => rfl

/-- A value is changed without touching predecessors. -/
theorem pred_modifyVal (g : Digraph α) (id : Nat) (f : α → α) (x : Nat) :
    (g.modifyVal id f).pred x = g.pred x := by
  refine elim_modify ?_ g id x
  exact fun _ => rfl

theorem size_modifyVal (g : Digraph α) (id : Nat) (f : α → α) : (g.modifyVal id f).size = g.size :=
  Array.size_modify

theorem succ_mapVals (g : Digraph α) (f : α → α) (x : Nat) : (g.mapVals f).succ x = g.succ x := by
  rw [succ, succ, mapVals, Array.getElem?_map]
  cases g.vertices[x]? <;> rfl

theorem pred_mapVals (g : Digraph α) (f : α → α) (x : Nat) : (g.mapVals f).pred x = g.pred x := by
  rw [pred, pred, mapVals, Array.getElem?_map]
  cases g.vertices[x]? <;> rfl

theorem size_mapVals (g : Digraph α) (f : α → α) : (g.mapVals f).size = g.size :=
  Array.size_map

/-- The graph has the listed edges and no others, each at both of its ends. -/
structure Holds (g : Digraph α) (edges : List (Nat × Nat)) : Prop where
  succ : ∀ x y, y ∈ g.succ x ↔ (x, y) ∈ edges
  pred : ∀ x y, x ∈ g.pred y ↔ (x, y) ∈ edges

namespace Holds

variable {edges : List (Nat × Nat)}

/-- The empty graph holds no edges. -/
theorem empty : ({} : Digraph α).Holds [] where
  succ _ y := iff_of_false (IdSet.not_mem_empty y) List.not_mem_nil
  pred x _ := iff_of_false (IdSet.not_mem_empty x) List.not_mem_nil

/-- Both sets of a graph hold the same edges. -/
theorem mirrored (h : g.Holds edges) : g.Mirrored := fun a b => (h.succ a b).trans (h.pred a b).symm

/-- Where all neighbours stay, no edge is added. -/
theorem frame (h : g.Holds edges) {g' : Digraph α} (hsucc : ∀ x, g'.succ x = g.succ x)
    (hpred : ∀ x, g'.pred x = g.pred x) : g'.Holds (edges ++ []) where
  succ x y := by rw [hsucc, h.succ, List.append_nil]
  pred x y := by rw [hpred, h.pred, List.append_nil]

/-- **Step lemma.**  A new edge is held by both sets. -/
theorem addEdge (h : g.Holds edges) {a b : Nat} (ha : a < g.size) (hb : b < g.size) :
    (g.addEdge a b).Holds (edges ++ [(a, b)]) where
  succ x y := by
    rw [mem_succ_addEdge, h.succ, List.mem_append, List.mem_singleton, Prod.mk.injEq]
    tauto
  pred x y := by
    rw [mem_pred_addEdge, h.pred, List.mem_append, List.mem_singleton, Prod.mk.injEq]
    tauto

/-- A new value at a vertex is no new edge. -/
theorem call_modifyVal (h : g.Holds edges) {id : Nat} (hid : id < g.size) (f : α → α) :
    ∃ g', g.call (.modifyVal id f) = .ok g' ∧ g'.Holds (edges ++ []) ∧ g'.size = g.size := by
  obtain ⟨v, hv, -⟩ := vertex_of_lt hid
  refine ⟨g.modifyVal id f, ?_, ?_, g.size_modifyVal id f⟩
  · rw [Digraph.call, hv]
    rfl
  · exact h.frame (g.succ_modifyVal id f) (g.pred_modifyVal id f)

/-- **Step lemma.**  A call that names vertices of the graph is answered, and adds the edges that it
asks for. -/
theorem call (h : g.Holds edges) {c : Call α} (hc : ∀ id ∈ c.names, id < g.size) :
    ∃ g', g.call c = .ok g' ∧ g'.Holds (edges ++ c.edges) ∧ g'.size = c.grow g.size := by
  cases c with
  | insert val =>
    exact ⟨_, rfl, h.frame (g.succ_insert val) (g.pred_insert val), g.size_insert val⟩
  | link a b =>
    have ha : a < g.size := hc a List.mem_cons_self
    have hb : b < g.size := hc b (List.mem_cons_of_mem a List.mem_cons_self)
    refine ⟨g.addEdge a b, ?_, h.addEdge ha hb, g.size_addEdge a b⟩
    rw [Digraph.call, h.mirrored.link ha hb]
    rfl
  | doubleLink a b =>
    have ha : a < g.size := hc a List.mem_cons_self
    have hb : b < g.size := hc b (List.mem_cons_of_mem a List.mem_cons_self)
    refine ⟨_, h.mirrored.doubleLink ha hb, ?_, ?_⟩
    · have hboth := (h.addEdge ha hb).addEdge (a := b) (b := a) (by rwa [size_addEdge])
        (by rwa [size_addEdge])
      rwa [List.append_assoc] at hboth
    · rw [size_addEdge, size_addEdge]
      rfl
  | setVal id val =>
    rw [call_setVal]
    exact h.call_modifyVal (hc id List.mem_cons_self) _
  | modifyVal id f => exact h.call_modifyVal (hc id List.mem_cons_self) f
  | mapVals f => exact ⟨_, rfl, h.frame (g.succ_mapVals f) (g.pred_mapVals f), g.size_mapVals f⟩

/-- **Run lemma.**  Calls that name vertices of the graph are all answered, and add the edges that
they ask for. -/
theorem run (h : g.Holds edges) {calls : List (Call α)} (hcalls : Call.Fits g.size calls) :
    ∃ g', g.run calls = .ok g' ∧ g'.Holds (edges ++ calls.flatMap Call.edges) ∧
      g'.size = calls.foldl Call.grow g.size := by
  induction calls generalizing g edges with
  | nil => exact ⟨g, rfl, by rwa [List.flatMap_nil, List.append_nil], rfl⟩
  | cons c calls ih =>
    obtain ⟨g₁, hcall, hg₁, hsize₁⟩ := h.call hcalls.1
    obtain ⟨g', hrun, hg', hsize⟩ := ih hg₁ (hsize₁ ▸ hcalls.2)
    refine ⟨g', ?_, ?_, ?_⟩
    · rw [Digraph.run, List.foldlM_cons, hcall]
      exact hrun
    · rwa [List.flatMap_cons, ← List.append_assoc]
    · rw [hsize, hsize₁, List.foldl_cons]

end Holds

/-! ## What holds of every graph that is built by calls -/

/-- A graph that is fit to be linked further: its edges are recorded at both ends, a link between
two of its vertices is never refused, its vertices have their numbers, and neighbours are listed in
order. -/
structure WellLinked (g : Digraph α) : Prop where
  mirrored : ∀ a b, b ∈ g.succ a ↔ a ∈ g.pred b
  /-- The answer says whether the edge is new, and no other edge comes or goes. -/
  link : ∀ a < g.size, ∀ b < g.size, ∃ new g', g.link a b = .ok (new, g') ∧
    g.numbered.link a b = .ok (new, g'.numbered) ∧ (new = true ↔ b ∉ g.succ a) ∧
    ∀ x y, (y ∈ g'.succ x ↔ y ∈ g.succ x ∨ (x = a ∧ y = b)) ∧
      (x ∈ g'.pred y ↔ x ∈ g.pred y ∨ (x = a ∧ y = b))
  /-- The row of a vertex bears the number of the vertex. -/
  row : ∀ id < g.size, ∃ v, g.vertex id = .ok v ∧ g.numbered.row id = .ok { toVertex := v, id }
  ascending : ∀ id, (g.succ id).toList.Pairwise (· < ·) ∧ (g.pred id).toList.Pairwise (· < ·) ∧
    (g.adj id).toList.Pairwise (· < ·)
  /-- A neighbour in both directions is listed once, and so is a vertex that is its own
  neighbour. -/
  adj : ∀ id x, (g.adj id).toList.count x = if x ∈ g.succ id ∨ x ∈ g.pred id then 1 else 0
  /-- Neighbours are vertices of the graph. -/
  adj_lt : ∀ id, ∀ x ∈ g.adj id, x < g.size

/-- A neighbour is listed once, even if it is linked both ways. -/
theorem count_adj (g : Digraph α) (id x : Nat) :
    (g.adj id).toList.count x = if x ∈ g.succ id ∨ x ∈ g.pred id then 1 else 0 := by
  rw [(g.adj id).nodup_toList.count]
  exact if_congr (IdSet.mem_toList.trans mem_adj) rfl rfl

/-- A graph whose two sets mirror each other is well linked. -/
theorem Mirrored.wellLinked (hg : g.Mirrored) : g.WellLinked where
  mirrored := hg
  link a ha b hb := by
    refine ⟨_, _, hg.link ha hb, ?_, by rw [decide_eq_true_iff], fun x y => ⟨?_, ?_⟩⟩
    · rw [VertexTable.link_numbered, hg.link ha hb]
      rfl
    · rw [mem_succ_addEdge]
      tauto
    · rw [mem_pred_addEdge]
      tauto
  row id hid := by
    obtain ⟨v, hv, -⟩ := vertex_of_lt hid
    rw [VertexTable.row_numbered, hv]
    exact ⟨v, rfl, rfl⟩
  ascending id := ⟨(g.succ id).sorted, (g.pred id).sorted, (g.adj id).sorted⟩
  adj := g.count_adj
  adj_lt id x hx := by
    rcases mem_adj.1 hx with hx | hx
    · exact (hg.lt_size hx).2
    · exact (hg.lt_size ((hg x id).2 hx)).1

/-- **Edges stay at both of their ends.**  Calls that name vertices of the graph are never refused,
neither by the graph nor by the table, and the table that they lead to is the graph's own.  The
graph is fit to be linked further, and its edges are the ones that the calls have asked for. -/
theorem mirrored_run {calls : List (Call α)} (h : Call.Fits 0 calls) :
    ∃ g : Digraph α, run {} calls = .ok g ∧ VertexTable.run {} calls = .ok g.numbered ∧
      g.WellLinked ∧ g.size = calls.foldl Call.grow 0 ∧
      ∀ a b, b ∈ g.succ a ↔ (a, b) ∈ calls.flatMap Call.edges := by
  obtain ⟨g, hrun, hg, hsize⟩ := Holds.empty.run h
  refine ⟨g, hrun, ?_, hg.mirrored.wellLinked, hsize, hg.succ⟩
  have htable := VertexTable.run_numbered ({} : Digraph α) calls
  rwa [hrun] at htable

/-- Three vertices, the last of which is linked to itself three times over. -/
def selfLinked : List (Call String) :=
  [.insert "a", .insert "b", .insert "c", .link 0 1, .link 0 1, .modifyVal 1 (· ++ "!"),
    .doubleLink 1 2, .link 2 2, .doubleLink 2 2, .setVal 0 "d", .mapVals (· ++ "?")]

/-- The last of the three vertices is its own neighbour once, and linking it to itself again adds
nothing. -/
theorem mirrored_run_selfLinked :
    Call.Fits 0 selfLinked ∧ ∃ g, run {} selfLinked = .ok g ∧
      VertexTable.run {} selfLinked = .ok g.numbered ∧ g.WellLinked ∧ g.size = 3 ∧
      (g.succ 2).toList = [1, 2] ∧ (g.pred 1).toList = [0, 2] ∧ (g.adj 1).toList = [0, 2] ∧
      (g.adj 2).toList = [1, 2] ∧ ∃ g', g.link 2 2 = .ok (false, g') := by
  have hfits : Call.Fits 0 selfLinked := by decide
  have htest : (run {} selfLinked).toOption.any (fun g =>
      (g.succ 2).toList == [1, 2] && (g.pred 1).toList == [0, 2] && (g.adj 1).toList == [0, 2] &&
        (g.adj 2).toList == [1, 2]) = true := by
    decide +kernel
  obtain ⟨g, hrun, htest⟩ := exists_ok_of_any htest
  simp only [Bool.and_eq_true, beq_iff_eq] at htest
  obtain ⟨⟨⟨hsucc, hpred⟩, hadj₁⟩, hadj₂⟩ := htest
  obtain ⟨g₁, hrun₁, htable, hg, hsize, -⟩ := mirrored_run hfits
  obtain rfl : g₁ = g := Except.ok.inj (hrun₁.symm.trans hrun)
  have hlt : 2 < g₁.size := hsize ▸ Nat.lt_succ_self 2
  obtain ⟨new, g', hlink, -, hnew, -⟩ := hg.link 2 hlt 2 hlt
  have hloop : 2 ∈ g₁.succ 2 := IdSet.mem_toList.1 (hsucc ▸ by decide)
  obtain rfl : new = false := Bool.eq_false_iff.2 fun h => hnew.1 h hloop
  exact ⟨hfits, g₁, hrun, htable, hg, hsize, hsucc, hpred, hadj₁, hadj₂, g', hlink⟩

/-! ## Every graph with its edges at both ends can be built -/

/-- What a link that succeeds does. -/
theorem eq_of_link {a b : Nat} {r : Bool × Digraph α} (h : g.link a b = .ok r) :
    (∀ id ∈ [a, b], id < g.size) ∧ r.2 = g.addEdge a b := by
  unfold link at h
  split at h
  · rename_i hlt
    split at h
    · cases h
      exact ⟨List.forall_mem_cons.2 ⟨hlt.1, List.forall_mem_singleton.2 hlt.2⟩, rfl⟩
    · cases h
  · cases h

theorem lt_size_of_vertex {id : Nat} {v : Vertex α} (h : g.vertex id = .ok v) : id < g.size := by
  by_contra hid
  rw [vertex_of_le (not_lt.1 hid)] at h
  cases h

/-- A call is answered only if it names vertices of the graph. -/
theorem lt_size_of_call {c : Call α} {g' : Digraph α} (h : g.call c = .ok g') :
    (∀ id ∈ c.names, id < g.size) ∧ g'.size = c.grow g.size := by
  cases c with
  | insert val =>
    cases h
    exact ⟨List.forall_mem_nil _, g.size_insert val⟩
  | link a b =>
    obtain ⟨r, hr, rfl⟩ := map_eq_ok_iff.1 h
    obtain ⟨hlt, heq⟩ := eq_of_link hr
    exact ⟨hlt, heq ▸ g.size_addEdge a b⟩
  | doubleLink a b =>
    obtain ⟨r, hr, h⟩ := bind_eq_ok_iff.1 h
    obtain ⟨r', hr', h⟩ := bind_eq_ok_iff.1 h
    obtain ⟨hlt, heq⟩ := eq_of_link hr
    obtain ⟨-, heq'⟩ := eq_of_link hr'
    cases h
    refine ⟨hlt, ?_⟩
    rw [heq', size_addEdge, heq, size_addEdge]
    rfl
  | setVal id val =>
    rw [call_setVal] at h
    obtain ⟨v, hv, rfl⟩ := map_eq_ok_iff.1 h
    exact ⟨List.forall_mem_singleton.2 (lt_size_of_vertex hv), g.size_modifyVal id _⟩
  | modifyVal id f =>
    obtain ⟨v, hv, rfl⟩ := map_eq_ok_iff.1 h
    exact ⟨List.forall_mem_singleton.2 (lt_size_of_vertex hv), g.size_modifyVal id f⟩
  | mapVals f =>
    cases h
    exact ⟨List.forall_mem_nil _, g.size_mapVals f⟩

/-- Calls that succeed fit. -/
theorem fits_of_run {calls : List (Call α)} {g' : Digraph α} (h : g.run calls = .ok g') :
    Call.Fits g.size calls := by
  induction calls generalizing g with
  | nil => exact trivial
  | cons c calls ih =>
    rw [run, List.foldlM_cons] at h
    obtain ⟨g₁, hcall, hrun⟩ := bind_eq_ok_iff.1 h
    obtain ⟨hnames, hsize⟩ := lt_size_of_call hcall
    exact ⟨hnames, hsize ▸ ih hrun⟩

/-- Calls are refused only for vertices that they name and that are not there. -/
theorem exists_run_iff_fits {calls : List (Call α)} :
    (∃ g : Digraph α, run {} calls = .ok g) ↔ Call.Fits 0 calls := by
  constructor
  · rintro ⟨g, h⟩
    exact fits_of_run h
  · intro h
    obtain ⟨g, hrun, -⟩ := Holds.empty.run h
    exact ⟨g, hrun⟩

/-- Calls may be run one part after the other. -/
theorem run_append (g : Digraph α) (calls calls' : List (Call α)) :
    g.run (calls ++ calls') = g.run calls >>= fun g => g.run calls' :=
  List.foldlM_append

/-- Vertices can be added one after the other or all at once. -/
theorem run_insert (vals : List α) : run {} (vals.map .insert) = .ok (ofVals vals) := by
  induction vals using List.reverseRecOn with
  | nil => rfl
  | append_singleton vals val ih =>
    rw [List.map_append, run_append, ih]
    refine congrArg (fun vs => Except.ok (Digraph.mk vs)) ?_
    rw [ofVals, List.push_toArray, List.map_append]
    rfl

/-- Links one after the other. -/
theorem run_link (g : Digraph α) (edges : List (Nat × Nat)) :
    g.run (edges.map fun e => .link e.1 e.2) = (g.linkAll edges).map (·.2) := by
  induction edges generalizing g with
  | nil => rfl
  | cons e edges ih =>
    rw [List.map_cons, run, List.foldlM_cons, linkAll, call]
    cases g.link e.1 e.2 with
    | error f => rfl
    | ok r =>
      show r.2.run _ = (r.2.linkAll edges >>= _).map _
      rw [ih]
      cases r.2.linkAll edges <;> rfl

/-- All edges, by their starts. -/
def edges (g : Digraph α) : List (Nat × Nat) :=
  g.ids.flatMap fun x => (g.succ x).toList.map fun y => (x, y)

/-- The edges of a graph are its successors. -/
theorem mem_edges {x y : Nat} : (x, y) ∈ g.edges ↔ y ∈ g.succ x := by
  rw [edges, List.mem_flatMap]
  constructor
  · rintro ⟨x', -, hx'⟩
    obtain ⟨y', hy', heq⟩ := List.mem_map.1 hx'
    cases heq
    exact hy'
  · intro hy
    refine ⟨x, ?_, List.mem_map.2 ⟨y, hy, rfl⟩⟩
    rw [ids, List.mem_range]
    by_contra hx
    rw [succ, Array.getElem?_eq_none (not_lt.1 hx)] at hy
    exact IdSet.not_mem_empty y hy

/-- The values in the order of the vertices. -/
def vals (g : Digraph α) : List α := g.vertices.toList.map (·.val)

theorem size_ofVals_vals (g : Digraph α) : (ofVals g.vals).size = g.size := by
  rw [size_ofVals, vals, List.length_map, Array.length_toList]
  rfl

theorem val?_ofVals_vals (g : Digraph α) (id : Nat) : (ofVals g.vals).val? id = g.val? id := by
  rw [val?_ofVals, vals, List.getElem?_map, Array.getElem?_toList]
  rfl

/-- Calls that build a graph: add its vertices in order, and then link each to its successors. -/
def script (g : Digraph α) : List (Call α) :=
  g.vals.map .insert ++ g.edges.map fun e => .link e.1 e.2

/-- **A mirrored graph is what its own script builds.** -/
theorem Mirrored.run_script (hg : g.Mirrored) : run {} g.script = .ok g := by
  have hin : ∀ e ∈ g.edges, e.1 < (ofVals g.vals).size ∧ e.2 < (ofVals g.vals).size := by
    intro e he
    rw [size_ofVals_vals]
    exact hg.lt_size (mem_edges.1 he)
  obtain ⟨news, g', hlink, hg', -, hval, hsucc, -⟩ := (mirrored_ofVals g.vals).linkAll g.edges hin
  have heq : g' = g := by
    refine hg'.eq hg (fun x => (hval x).trans (g.val?_ofVals_vals x)) fun x y => ?_
    rw [hsucc, mem_edges]
    exact or_iff_right (notMem_succ_ofVals g.vals x y)
  rw [script, run_append, run_insert]
  show run (ofVals g.vals) _ = _
  rw [run_link, hlink, heq]
  rfl

/-- **Graphs with their edges at both ends are the graphs that are built by calls.** -/
theorem exists_run_iff_mirrored : (∃ calls, run {} calls = .ok g) ↔ g.Mirrored := by
  constructor
  · rintro ⟨calls, h⟩
    obtain ⟨g', hrun, hg', -⟩ := Holds.empty.run (fits_of_run h)
    obtain rfl : g' = g := Except.ok.inj (hrun.symm.trans h)
    exact hg'.mirrored
  · intro hg
    exact ⟨g.script, hg.run_script⟩

end Digraph

/-- A flow graph is built by calls. -/
theorem FlowGraph.exists_run_of_ofBody {b : Body} {s : Storage} {g : FlowGraph}
    (h : ofBody b s = .ok g) : ∃ calls, Digraph.run {} calls = .ok g :=
  Digraph.exists_run_iff_mirrored.2 (mirrored_of_ofBody h)

/-- An interference graph is built by calls. -/
theorem Interference.exists_run_build (f : FlowGraph) (cs : Candidates) :
    ∃ calls, Digraph.run {} calls = .ok (build f cs) :=
  Digraph.exists_run_iff_mirrored.2 (mirrored_build f cs)

end Backend
