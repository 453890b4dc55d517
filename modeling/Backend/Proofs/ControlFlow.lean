/-
# Flow graphs are exactly the flow of control

A flow graph is built in one pass over the instructions, each of which is linked to the one in front
of it unless that always jumps, and then by following the jumps (`FlowGraph.walkBody`).  At every
moment the graph has an edge at both of its ends or at none, and the edge to a new node is new
(`Walk.Follows`), so no link is ever refused, and the pass ends with the graph of the body
(`Body.WellFormed.walkBody_eq`).  The edges of this graph are what control does
(`FlowGraph.FollowsControl`), and it exists unless a jump leads nowhere
(`Body.WellFormed.flow_exact`).
-/
import Mathlib
import Backend.Proofs.Outcome

namespace Backend

/-! ## Graphs by their edges -/

namespace Digraph

variable {α : Type}

theorem Mirrored.of_linkAll {g g' : Digraph α} (hg : g.Mirrored) {edges : List (Nat × Nat)}
    {news : List Bool} (h : g.linkAll edges = .ok (news, g')) : g'.Mirrored := by
  induction edges generalizing g news with
  | nil =>
    obtain ⟨-, rfl⟩ := Prod.mk.inj (Except.ok.inj h)
    exact hg
  | cons e edges ih =>
    obtain ⟨⟨new, g₁⟩, hlink, h⟩ := bind_eq_ok_iff.1 h
    obtain ⟨⟨news', g₂⟩, hrest, h⟩ := bind_eq_ok_iff.1 h
    obtain ⟨-, rfl⟩ := Prod.mk.inj (Except.ok.inj h)
    have hlt : e.1 < g.size ∧ e.2 < g.size := by
      by_contra hlt
      rw [Digraph.link, if_neg hlt] at hlink
      cases hlink
    rw [hg.link hlt.1 hlt.2] at hlink
    obtain ⟨-, rfl⟩ := Prod.mk.inj (Except.ok.inj hlink)
    exact ih (hg.addEdge hlt.1 hlt.2) hrest

theorem getElem?_of_val? {g : Digraph α} {x : Nat} {a : α} (h : g.val? x = some a) :
    g.vertices[x]? = some { val := a, succ := g.succ x, pred := g.pred x } := by
  obtain ⟨v, hv, rfl⟩ := Option.map_eq_some_iff.1 h
  rw [succ, pred, hv]
  rfl

/-- Mirrored graphs with the same values and the same edges are equal. -/
theorem Mirrored.eq {g g' : Digraph α} (hg : g.Mirrored) (hg' : g'.Mirrored)
    (hval : ∀ x, g.val? x = g'.val? x) (hsucc : ∀ x y, y ∈ g.succ x ↔ y ∈ g'.succ x) : g = g' := by
  have hpred : ∀ x, g.pred x = g'.pred x := by
    intro x
    apply IdSet.ext
    intro y
    rw [← hg y x, ← hg' y x, hsucc]
  have hsucc' : ∀ x, g.succ x = g'.succ x := fun x => IdSet.ext (hsucc x)
  have hget : ∀ x : Nat, g.vertices[x]? = g'.vertices[x]? := by
    intro x
    cases hx : g.val? x with
    | none =>
      have hx' := (hval x).symm.trans hx
      rw [Option.map_eq_none_iff.1 hx, Option.map_eq_none_iff.1 hx']
    | some a =>
      rw [getElem?_of_val? hx, getElem?_of_val? ((hval x).symm.trans hx), hsucc', hpred]
  have hvertices : g.vertices = g'.vertices := Array.ext_getElem? hget
  cases g
  cases g'
  exact congrArg _ hvertices

theorem val?_insert (g : Digraph α) (a : α) (x : Nat) :
    (g.insert a).2.val? x = if x = g.size then some a else g.val? x := by
  show (g.vertices.push { val := a })[x]?.map _ = if x = g.vertices.size then _ else _
  rw [Array.getElem?_push]
  split <;> rfl

theorem succ_insert (g : Digraph α) (a : α) (x : Nat) : (g.insert a).2.succ x = g.succ x := by
  show (g.vertices.push { val := a })[x]?.elim ∅ _ = _
  rw [Array.getElem?_push]
  split
  · rename_i h
    rw [succ, Array.getElem?_eq_none (by omega)]
    rfl
  · rfl

theorem pred_insert (g : Digraph α) (a : α) (x : Nat) : (g.insert a).2.pred x = g.pred x := by
  show (g.vertices.push { val := a })[x]?.elim ∅ _ = _
  rw [Array.getElem?_push]
  split
  · rename_i h
    rw [pred, Array.getElem?_eq_none (by omega)]
    rfl
  · rfl

theorem size_insert (g : Digraph α) (a : α) : (g.insert a).2.size = g.size + 1 :=
  Array.size_push _

/-- A new vertex has no edges, so they stay at both ends. -/
theorem Mirrored.insert {g : Digraph α} (hg : g.Mirrored) (a : α) : (g.insert a).2.Mirrored := by
  intro x y
  rw [succ_insert, pred_insert]
  exact hg x y

/-- In a mirrored graph an edge leads from one vertex to another. -/
theorem Mirrored.lt_size {g : Digraph α} (hg : g.Mirrored) {x y : Nat} (h : y ∈ g.succ x) :
    x < g.size ∧ y < g.size := by
  constructor
  · by_contra hx
    rw [succ, Array.getElem?_eq_none (not_lt.1 hx)] at h
    exact IdSet.not_mem_empty y h
  · by_contra hy
    rw [hg, pred, Array.getElem?_eq_none (not_lt.1 hy)] at h
    exact IdSet.not_mem_empty x h

end Digraph

namespace FlowGraph

/-! ## One pass over the instructions -/

/-- A flow graph under construction. -/
structure Walk where
  graph : FlowGraph := {}
  /-- The node from which control falls through to the next one. -/
  before : Option Nat := none
  /-- The jumps that have been met, in order. -/
  jumps : List (Nat × Label) := []
  /-- The labels that have been met, the last one first. -/
  labels : List (Label × Nat) := []

namespace Walk

/-- Let control fall through to a new node, along an edge that has to be new. -/
def fall (g : FlowGraph) (id : Nat) : Option Nat → Except Fault FlowGraph
  | none => .ok g
  | some n => do
    let (new, g) ← g.link n id
    if new then return g else .error .repeatedEdge

/-- Add the node of one instruction. -/
def step (s : Storage) (w : Walk) (e : Nat × Instr) : Except Fault Walk := do
  let node ← FlowNode.ofInstr s e
  let (id, g) := w.graph.insert node
  let g ← fall g id w.before
  return { graph := g
           before := if e.2.op.isGoto then none else some id
           jumps := w.jumps ++ (e.2.op.target.map fun l => (id, l)).toList
           labels := (e.2.op.labelHere.map fun l => (l, id)).toList ++ w.labels }

/-- Follow one jump. -/
def follow (labels : List (Label × Nat)) (g : FlowGraph) (j : Nat × Label) :
    Except Fault FlowGraph :=
  match labels.lookup j.2 with
  | none => .error (.unresolvedLabel j.2)
  | some n => do
    let (_, g) ← g.link j.1 n
    return g

end Walk

/-- Build the flow graph of a body in one pass, then follow the jumps one after the other. -/
def walkBody (b : Body) (s : Storage) : Except Fault FlowGraph := do
  let w ← b.toList.foldlM (Walk.step s) {}
  w.jumps.foldlM (Walk.follow w.labels) w.graph

/-! ### What one more instruction adds -/

/-- Control falls through to one more instruction from the last one before it. -/
theorem mem_fallEdges_concat {ops : List Op} {op : Op} {x y : Nat} :
    (x, y) ∈ fallEdges 0 (ops ++ [op]) ↔ (x, y) ∈ fallEdges 0 ops ∨
      y = ops.length ∧ x + 1 = ops.length ∧ ∃ o, ops[x]? = some o ∧ o.isGoto = false := by
  have hlt : ∀ {p : Nat} {o : Op}, (ops ++ [op])[p]? = some o → p ≤ ops.length := by
    intro p o h
    have := (List.getElem?_eq_some_iff.1 h).1
    rw [List.length_append, List.length_singleton] at this
    omega
  rw [mem_fallEdges, mem_fallEdges]
  constructor
  · rintro ⟨p, o, next, hx, hy, ho, hnext, hgoto⟩
    have hle := hlt hnext
    rw [List.getElem?_append_left (by omega)] at ho
    rcases Nat.lt_or_eq_of_le hle with h | h
    · rw [List.getElem?_append_left h] at hnext
      exact Or.inl ⟨p, o, next, hx, hy, ho, hnext, hgoto⟩
    · obtain rfl : x = p := by omega
      exact Or.inr ⟨by omega, by omega, o, ho, hgoto⟩
  · rintro (⟨p, o, next, hx, hy, ho, hnext, hgoto⟩ | ⟨hy, hx, o, ho, hgoto⟩)
    · refine ⟨p, o, next, hx, hy, ?_, ?_, hgoto⟩
      · rwa [List.getElem?_append_left (List.getElem?_eq_some_iff.1 ho).1]
      · rwa [List.getElem?_append_left (List.getElem?_eq_some_iff.1 hnext).1]
    · refine ⟨x, o, op, by omega, by omega, ?_, ?_, hgoto⟩
      · rwa [List.getElem?_append_left (by omega)]
      · rw [hx, List.getElem?_concat_length]

theorem jumps_concat (ops : List Op) (op : Op) :
    jumps (ops ++ [op]) = jumps ops ++ (op.target.map fun l => (ops.length, l)).toList := by
  rw [jumps, List.zipIdx_append, List.filterMap_append, jumps, Nat.zero_add]
  congr 1

/-- Control falls through behind one more operation, unless that is a `goto`. -/
theorem ite_eq_some_concat {ops : List Op} {op : Op} {p : Nat} :
    (if op.isGoto then none else some ops.length) = some p ↔
      p + 1 = (ops ++ [op]).length ∧ ∃ o, (ops ++ [op])[p]? = some o ∧ o.isGoto = false := by
  rw [List.length_append, List.length_singleton]
  by_cases hgoto : op.isGoto
  · rw [if_pos hgoto]
    refine iff_of_false nofun ?_
    rintro ⟨hp, o, ho, ho'⟩
    obtain rfl : p = ops.length := by omega
    rw [List.getElem?_concat_length, Option.some.injEq] at ho
    rw [← ho, hgoto] at ho'
    cases ho'
  · rw [if_neg hgoto, Option.some.injEq]
    constructor
    · rintro rfl
      exact ⟨rfl, _, List.getElem?_concat_length, by simpa using hgoto⟩
    · rintro ⟨hp, -⟩
      omega

/-- A list of labels with the last one first is kept by putting one more in front. -/
theorem lookup_concat {labels : List (Label × Nat)} {ops : List Op}
    (h : ∀ l, labels.lookup l = labelPosition? ops l) (op : Op) (l : Label) :
    ((op.labelHere.map fun l => (l, ops.length)).toList ++ labels).lookup l =
      labelPosition? (ops ++ [op]) l := by
  rw [labelPosition?_concat, ← h]
  cases op.labelHere with
  | none => rfl
  | some l' =>
    show List.lookup l ((l', ops.length) :: labels) = _
    by_cases heq : l = l'
    · rw [heq, List.lookup_cons_self, if_pos rfl]
    · rw [List.lookup_cons, beq_eq_false_iff_ne.2 heq, if_neg (by simpa using Ne.symm heq)]

namespace Walk

/-! ### The invariant of the pass -/

/-- What a pass over some operations has come to: it has their nodes, an edge wherever control falls
through, the node to fall through from, the jumps, and the last place of every label. -/
structure Follows (w : Walk) (ops : List Op) (nodes : List FlowNode) : Prop where
  mirrored : w.graph.Mirrored
  size_eq : w.graph.size = ops.length
  length_eq : nodes.length = ops.length
  val?_eq : ∀ p, w.graph.val? p = nodes[p]?
  mem_succ : ∀ p q, q ∈ w.graph.succ p ↔ (p, q) ∈ fallEdges 0 ops
  before_iff : ∀ p, w.before = some p ↔
    p + 1 = ops.length ∧ ∃ op, ops[p]? = some op ∧ op.isGoto = false
  jumps_eq : w.jumps = FlowGraph.jumps ops
  lookup_labels : ∀ l, w.labels.lookup l = labelPosition? ops l

theorem follows_nil : Follows {} [] [] where
  mirrored x y := iff_of_false (IdSet.not_mem_empty y) (IdSet.not_mem_empty x)
  size_eq := rfl
  length_eq := rfl
  val?_eq _ := rfl
  mem_succ _ y := iff_of_false (IdSet.not_mem_empty y) List.not_mem_nil
  before_iff _ := iff_of_false nofun (by simp)
  jumps_eq := rfl
  lookup_labels _ := rfl

/-- Falling through along an edge that is not there yet is not refused. -/
theorem fall_some {g : FlowGraph} (hg : g.Mirrored) {n id : Nat} (hn : n < g.size)
    (hid : id < g.size) (hnew : id ∉ g.succ n) : fall g id (some n) = .ok (g.addEdge n id) := by
  refine bind_eq_ok_iff.2 ⟨_, hg.link hn hid, ?_⟩
  show (if decide (id ∉ g.succ n) = true then _ else _) = _
  rw [if_pos (decide_eq_true hnew)]
  rfl

section

variable {w : Walk} {ops : List Op} {nodes : List FlowNode}

/-- The node of one more instruction is linked to the one before, whatever the instruction. -/
theorem Follows.exists_fall (h : w.Follows ops nodes) (node : FlowNode) (op : Op) :
    ∃ g, fall (w.graph.insert node).2 ops.length w.before = .ok g ∧ g.Mirrored ∧
      g.size = ops.length + 1 ∧ (∀ p, g.val? p = (nodes ++ [node])[p]?) ∧
      ∀ p q, q ∈ g.succ p ↔ (p, q) ∈ fallEdges 0 (ops ++ [op]) := by
  have hm := h.mirrored.insert node
  have hsize : (w.graph.insert node).2.size = ops.length + 1 := by
    rw [Digraph.size_insert, h.size_eq]
  have hval : ∀ p, (w.graph.insert node).2.val? p = (nodes ++ [node])[p]? := by
    intro p
    rw [Digraph.val?_insert, List.getElem?_append, h.val?_eq, h.size_eq, ← h.length_eq]
    rcases Nat.lt_trichotomy p nodes.length with hp | hp | hp
    · rw [if_neg (by omega), if_pos hp]
    · rw [if_pos hp, if_neg (by omega), hp, Nat.sub_self]
      rfl
    · rw [if_neg (by omega), if_neg (by omega), List.getElem?_eq_none (by omega),
        List.getElem?_eq_none (by rw [List.length_singleton]; omega)]
  cases hbefore : w.before with
  | none =>
    refine ⟨_, rfl, hm, hsize, hval, fun p q => ?_⟩
    rw [Digraph.succ_insert, h.mem_succ, mem_fallEdges_concat, or_iff_left]
    rintro ⟨-, hp, ho⟩
    rw [(h.before_iff p).2 ⟨hp, ho⟩] at hbefore
    cases hbefore
  | some n =>
    obtain ⟨hn, ho⟩ := (h.before_iff n).1 hbefore
    have hlt : n < (w.graph.insert node).2.size := by omega
    -- the edges so far do not lead to the new node
    have hnew : ops.length ∉ (w.graph.insert node).2.succ n := by
      rw [Digraph.succ_insert]
      intro hmem
      have := (h.mirrored.lt_size hmem).2
      have := h.size_eq
      omega
    refine ⟨_, fall_some hm hlt (by omega) hnew, hm.addEdge hlt (by omega), ?_, fun p => ?_,
      fun p q => ?_⟩
    · rw [Digraph.size_addEdge, hsize]
    · rw [Digraph.val?_addEdge, hval]
    · rw [Digraph.mem_succ_addEdge, Digraph.succ_insert, h.mem_succ, mem_fallEdges_concat]
      refine or_congr_right ⟨?_, ?_⟩
      · rintro ⟨rfl, rfl, -⟩
        exact ⟨rfl, hn, ho⟩
      · rintro ⟨rfl, hp, -⟩
        exact ⟨by omega, rfl, hlt⟩

/-- **Step lemma.**  One more instruction whose node can be made is added without fail. -/
theorem Follows.step (h : w.Follows ops nodes) {s : Storage} {e : Nat × Instr} {node : FlowNode}
    (hnode : FlowNode.ofInstr s e = .ok node) :
    ∃ w', Walk.step s w e = .ok w' ∧ w'.Follows (ops ++ [e.2.op]) (nodes ++ [node]) := by
  obtain ⟨g, hfall, hm, hsize, hval, hsucc⟩ := h.exists_fall node e.2.op
  rw [← h.size_eq] at hfall
  refine ⟨_, bind_eq_ok_iff.2 ⟨node, hnode, bind_eq_ok_iff.2 ⟨g, hfall, rfl⟩⟩, hm, ?_, ?_, hval,
    hsucc, fun p => ?_, ?_, fun l => ?_⟩
  · rw [hsize, List.length_append, List.length_singleton]
  · rw [List.length_append, List.length_append, h.length_eq]
    rfl
  · rw [← ite_eq_some_concat, ← h.size_eq]
  · show w.jumps ++ _ = _
    rw [h.jumps_eq, h.size_eq, jumps_concat]
  · rw [← lookup_concat h.lookup_labels, ← h.size_eq]

/-- **Run lemma.**  A pass fails just as the making of the nodes does, and else adds all of them. -/
theorem Follows.foldlM_step (h : w.Follows ops nodes) (s : Storage) (es : List (Nat × Instr)) :
    (∃ e, es.mapM (FlowNode.ofInstr s) = .error e ∧ es.foldlM (Walk.step s) w = .error e) ∨
      ∃ news w', es.mapM (FlowNode.ofInstr s) = .ok news ∧
        es.foldlM (Walk.step s) w = .ok w' ∧
        w'.Follows (ops ++ es.map (·.2.op)) (nodes ++ news) := by
  induction es generalizing w ops nodes with
  | nil =>
    refine Or.inr ⟨[], w, rfl, rfl, ?_⟩
    rwa [List.map_nil, List.append_nil, List.append_nil]
  | cons e es ih =>
    rw [List.mapM_cons, List.foldlM_cons]
    cases hnode : FlowNode.ofInstr s e with
    | error f =>
      exact Or.inl ⟨f, rfl, bind_eq_error_iff.2 (Or.inl (bind_eq_error_iff.2 (Or.inl hnode)))⟩
    | ok node =>
      obtain ⟨w₁, hstep, h₁⟩ := h.step hnode
      rcases ih h₁ with ⟨f, hnodes, hrun⟩ | ⟨news, w', hnodes, hrun, h'⟩
      · refine Or.inl ⟨f, ?_, bind_eq_error_iff.2 (Or.inr ⟨w₁, hstep, hrun⟩)⟩
        exact bind_eq_error_iff.2 (Or.inr ⟨node, rfl, bind_eq_error_iff.2 (Or.inl hnodes)⟩)
      · refine Or.inr ⟨node :: news, w', ?_, bind_eq_ok_iff.2 ⟨w₁, hstep, hrun⟩, ?_⟩
        · exact bind_eq_ok_iff.2 ⟨node, rfl, bind_eq_ok_iff.2 ⟨news, hnodes, rfl⟩⟩
        · rwa [List.append_assoc, List.append_assoc] at h'

end

/-! ### Following the jumps -/

/-- Jumps can be followed one after the other, or be given their targets first: links between nodes
are never refused, so the first jump that leads nowhere decides either way. -/
theorem foldlM_follow {labels : List (Label × Nat)} {ops : List Op}
    (hlabels : ∀ l, labels.lookup l = labelPosition? ops l) {g : FlowGraph} (hg : g.Mirrored)
    (hsize : g.size = ops.length) (js : List (Nat × Label)) (hjs : ∀ j ∈ js, j.1 < g.size) :
    js.foldlM (follow labels) g = (do
      let targets ← js.mapM fun j => do return (j.1, ← resolve ops j.2)
      let (_, g) ← g.linkAll targets
      return g) := by
  induction js generalizing g with
  | nil => rfl
  | cons j js ih =>
    rw [List.foldlM_cons, List.mapM_cons]
    cases hn : labelPosition? ops j.2 with
    | none =>
      have hfollow : follow labels g j = .error (.unresolvedLabel j.2) := by
        rw [follow, hlabels, hn]
      rw [hfollow, resolve, hn]
      rfl
    | some n =>
      obtain ⟨op, hop, -⟩ := (labelPosition?_eq_some.1 hn).1
      have hlt : n < g.size := hsize ▸ (List.getElem?_eq_some_iff.1 hop).1
      have hj := hjs j List.mem_cons_self
      have hlink := hg.link hj hlt
      have hfollow : follow labels g j = .ok (g.addEdge j.1 n) := by
        rw [follow, hlabels, hn]
        exact bind_eq_ok_iff.2 ⟨_, hlink, rfl⟩
      have hrest := ih (hg.addEdge hj hlt) (by rw [Digraph.size_addEdge, hsize]) fun k hk => by
        rw [Digraph.size_addEdge]
        exact hjs k (List.mem_cons_of_mem j hk)
      rw [hfollow, resolve, hn]
      show js.foldlM (follow labels) (g.addEdge j.1 n) = _
      rw [hrest]
      cases js.mapM fun j => do return (j.1, ← resolve ops j.2) with
      | error e => rfl
      | ok targets =>
        show (do let (_, g) ← (g.addEdge j.1 n).linkAll targets; return g) =
          (do let (_, g) ← g.linkAll ((j.1, n) :: targets); return g)
        cases hlinks : (g.addEdge j.1 n).linkAll targets with
        | error e =>
          have hall : g.linkAll ((j.1, n) :: targets) = .error e :=
            bind_eq_error_iff.2 (Or.inr ⟨_, hlink, bind_eq_error_iff.2 (Or.inl hlinks)⟩)
          rw [hall]
        | ok r =>
          have hall : g.linkAll ((j.1, n) :: targets) = .ok (decide (n ∉ g.succ j.1) :: r.1, r.2) :=
            bind_eq_ok_iff.2 ⟨_, hlink, bind_eq_ok_iff.2 ⟨r, hlinks, rfl⟩⟩
          rw [hall]
          rfl

end Walk

end FlowGraph

/-- **The pass is right.**  Building the graph as one goes comes to the same as making the nodes,
then the edges along which control falls through, then those along which it jumps. -/
theorem Body.WellFormed.walkBody_eq {b : Body} (hb : b.WellFormed) (s : Storage) :
    FlowGraph.walkBody b s = FlowGraph.ofBody b s := by
  unfold FlowGraph.walkBody FlowGraph.ofBody
  rcases FlowGraph.Walk.follows_nil.foldlM_step s b.toList with
    ⟨e, hnodes, hrun⟩ | ⟨nodes, w, hnodes, hrun, h⟩
  · rw [hnodes, hrun]
    rfl
  · rw [List.nil_append, List.nil_append] at h
    have hlen : nodes.length = b.size := h.length_eq.trans (Body.length_ops hb)
    obtain ⟨falls, hfalls, hm, -, hval, hsucc⟩ := hb.exists_falls hlen
    have hgraph : w.graph = falls := by
      apply h.mirrored.eq hm
      · intro p
        rw [h.val?_eq, hval]
      · intro p q
        rw [hsucc]
        exact h.mem_succ p q
    have hjs : ∀ j ∈ w.jumps, j.1 < w.graph.size := by
      intro j hj
      rw [h.jumps_eq] at hj
      obtain ⟨op, hop, -⟩ := FlowGraph.mem_jumps.1 hj
      rw [h.size_eq]
      exact (List.getElem?_eq_some_iff.1 hop).1
    have hfollow := FlowGraph.Walk.foldlM_follow h.lookup_labels h.mirrored h.size_eq w.jumps hjs
    rw [hgraph, h.jumps_eq] at hfollow
    rw [hnodes, hrun]
    show w.jumps.foldlM (FlowGraph.Walk.follow w.labels) w.graph = _
    rw [hgraph, h.jumps_eq, hfollow]
    show _ = FlowGraph.linkNew (Digraph.ofVals nodes) (FlowGraph.fallEdges 0 b.ops) >>= _
    rw [hfalls]
    rfl

namespace FlowGraph

/-! ## The graph of a body -/

/-- The edges of the graph of a body are recorded at both ends. -/
theorem mirrored_of_ofBody {b : Body} {s : Storage} {g : FlowGraph} (h : ofBody b s = .ok g) :
    g.Mirrored := by
  obtain ⟨nodes, falls, news, targets, news', -, hlink, hg⟩ := exists_linkAll h
  exact ((Digraph.mirrored_ofVals nodes).of_linkAll hlink).of_linkAll hg

/-- A graph that is exactly the flow of control through a body.  The nodes are the instructions in
order, with the variable that each writes and those that it reads.  Control passes to the next
instruction, but not from a `goto`, and from a jump to the last place with its label. -/
structure FollowsControl (g : FlowGraph) (b : Body) (s : Storage) : Prop where
  size_eq : g.size = b.size
  node : ∀ (p id : Nat) (i : Instr), b.toList[p]? = some (id, i) → ∃ n, g.val? p = some n ∧
    n.instr = id ∧ n.defines = (if i.op.definesValue then s.var? id else none) ∧
    ∀ v, v ∈ n.uses ↔ ∃ o ∈ (if i.op.isUnify then [id] else i.op.operands), s.var? o = some v
  succ_iff : ∀ p q, q ∈ g.succ p ↔
    (q = p + 1 ∧ q < b.size ∧ ∃ op, b.ops[p]? = some op ∧ op.isGoto = false) ∨
      ∃ op l, b.ops[p]? = some op ∧ op.target = some l ∧
        IsGreatest {m | b.ops[m]? = some (.label l)} q
  pred_iff : ∀ p q, p ∈ g.pred q ↔ q ∈ g.succ p

theorem labelPosition?_eq_some_iff_isGreatest {ops : List Op} {l : Label} {n : Nat} :
    labelPosition? ops l = some n ↔ IsGreatest {m | ops[m]? = some (.label l)} n := by
  rw [labelPosition?_eq_some]
  constructor
  · rintro ⟨⟨op, hop, hl⟩, hmax⟩
    rw [Op.eq_label hl] at hop
    exact ⟨hop, fun m hm => hmax m _ hm rfl⟩
  · rintro ⟨hn, hmax⟩
    refine ⟨⟨_, hn, rfl⟩, fun m op hm hl => hmax ?_⟩
    rw [Op.eq_label hl] at hm
    exact hm

/-- A graph with the right nodes and edges that has its edges at both ends follows control. -/
theorem Describes.followsControl {g : FlowGraph} {b : Body} {s : Storage} (hg : g.Describes b s)
    (hm : g.Mirrored) : g.FollowsControl b s where
  size_eq := hg.size_eq
  node := hg.node
  succ_iff p q := by
    rw [hg.succ_iff]
    constructor
    · rintro (⟨op, hop, hgoto, hq, hlt⟩ | ⟨op, l, hop, hl, hn⟩)
      · exact Or.inl ⟨hq, hlt, op, hop, hgoto⟩
      · exact Or.inr ⟨op, l, hop, hl, labelPosition?_eq_some_iff_isGreatest.1 hn⟩
    · rintro (⟨hq, hlt, op, hop, hgoto⟩ | ⟨op, l, hop, hl, hn⟩)
      · exact Or.inl ⟨op, hop, hgoto, hq, hlt⟩
      · exact Or.inr ⟨op, l, hop, hl, labelPosition?_eq_some_iff_isGreatest.2 hn⟩
  pred_iff p q := (hm p q).symm

end FlowGraph

namespace Body

/-- **Flow graphs are exact.**  If every operand is in the body, then a flow graph can be built
unless a jump leads nowhere, and the label of the first such jump is reported.  Nothing else can go
wrong: a link between nodes is never found at one end only, and the one from the instruction in
front is always new.  The graph is exactly the flow of control, and building it in one pass comes to
the same. -/
theorem WellFormed.flow_exact {b : Body} (hb : b.WellFormed) (hops : ∀ o, ¬ b.Missing o) :
    ∃ s, Storage.ofBody b = .ok s ∧
      ((∃ e, FlowGraph.ofBody b s = .error e) ↔ ∃ p l, b.Unresolved p l) ∧
      (∀ e, FlowGraph.ofBody b s = .error e → ∃ l, b.FirstUnresolved l ∧ e = .unresolvedLabel l) ∧
      (∀ g, FlowGraph.ofBody b s = .ok g → g.FollowsControl b s) ∧
      FlowGraph.walkBody b s = FlowGraph.ofBody b s := by
  rcases hb.cases_storage with ⟨s, hs, hvalid, hunify⟩ | ⟨o, ho, -⟩
  · refine ⟨s, hs, ?_⟩
    rcases hb.cases_flow hvalid hunify with hclosed | ⟨o, ho, -⟩ | ⟨-, l, hl, hrun⟩
    · obtain ⟨g, hg, hdesc, -⟩ := hclosed.exists_flow hvalid
      rw [hg]
      refine ⟨iff_of_false nofun ?_, nofun, ?_, (hb.walkBody_eq s).trans hg⟩
      · rintro ⟨p, l, hp⟩
        exact hclosed.not_unresolved p l hp
      · intro g' hg'
        obtain rfl := Except.ok.inj hg'
        exact hdesc.followsControl (FlowGraph.mirrored_of_ofBody hg)
    · exact absurd ho (hops o)
    · rw [hrun]
      refine ⟨iff_of_true ⟨_, rfl⟩ ?_, ?_, nofun, (hb.walkBody_eq s).trans hrun⟩
      · obtain ⟨p, hp, -⟩ := hl
        exact ⟨p, l, hp⟩
      · intro e he
        exact ⟨l, hl, (Except.error.inj he).symm⟩
  · exact absurd ho (hops o)

/-- A branch to the label behind it, a branch to a label that stands twice behind it, and a jump
back at the end. -/
def detour : Body :=
  .ofOps [.int 1, .branch 0 (.ifElse 0), .label (.ifElse 0), .branchNot 0 (.whileCond 1),
    .label (.whileCond 1), .label (.whileCond 1), .goto (.whileCond 1)]

/-- Of the two places with one label control jumps to the second one, and falls through the
first. -/
theorem flow_detour :
    detour.WellFormed ∧ (∀ o, ¬ detour.Missing o) ∧ ∃ s g, Storage.ofBody detour = .ok s ∧
      FlowGraph.walkBody detour s = .ok g ∧ g.FollowsControl detour s ∧
      2 ∈ g.succ 1 ∧ 4 ∈ g.succ 3 ∧ 5 ∈ g.succ 3 ∧ 5 ∈ g.succ 6 ∧ 4 ∉ g.succ 6 ∧ 6 ∈ g.pred 5 := by
  have hb : detour.WellFormed := (built_ofOps _).wellFormed
  have hnone : ∀ o, ¬ detour.Missing o := not_missing (by decide)
  obtain ⟨s, hs, hfail, -, hok, hwalk⟩ := hb.flow_exact hnone
  cases hg : FlowGraph.ofBody detour s with
  | error e =>
    obtain ⟨p, l, ⟨op, hop, hl⟩, hmem⟩ := hfail.1 ⟨e, hg⟩
    have hfound : ∀ op ∈ detour.ops, ∀ l ∈ op.target, .label l ∈ detour.ops := by decide
    exact absurd (hfound op (List.mem_of_getElem? hop) l hl) hmem
  | ok g =>
    have hcontrol := hok g hg
    have hlast : IsGreatest {m | detour.ops[m]? = some (.label (.whileCond 1))} 5 :=
      FlowGraph.labelPosition?_eq_some_iff_isGreatest.1 (by decide)
    have hback : 5 ∈ g.succ 6 := (hcontrol.succ_iff 6 5).2 (Or.inr ⟨_, _, rfl, rfl, hlast⟩)
    refine ⟨hb, hnone, s, g, hs, hwalk.trans hg, hcontrol, ?_, ?_, ?_, hback, ?_, ?_⟩
    · exact (hcontrol.succ_iff 1 2).2 (Or.inl ⟨rfl, by decide, _, rfl, rfl⟩)
    · exact (hcontrol.succ_iff 3 4).2 (Or.inl ⟨rfl, by decide, _, rfl, rfl⟩)
    · exact (hcontrol.succ_iff 3 5).2 (Or.inr ⟨_, _, rfl, rfl, hlast⟩)
    · rw [hcontrol.succ_iff]
      rintro (⟨h, -⟩ | ⟨op, l, hop, hl, hn⟩)
      · cases h
      · obtain rfl := Option.some.inj hop
        obtain rfl := Option.some.inj hl
        exact absurd (hn.unique hlast) (by decide)
    · exact (hcontrol.pred_iff 6 5).2 hback

end Body

end Backend
