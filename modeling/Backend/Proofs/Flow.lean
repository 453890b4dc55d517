/-
# Flow graphs follow control

On a closed body `FlowGraph.ofBody` succeeds, and its graph (`FlowGraph.Describes`) has one node per
position with the variables that the instruction there writes and reads, and an edge exactly where
control may pass: to the next position unless the instruction is a `goto`, and to the last place
that holds the label an instruction may jump to.
-/
import Mathlib
import Backend.Flow.Liveness
import Backend.Proofs.Classes

namespace Backend

/-- A list goes through a computation that may fail when every entry does, and keeps the places. -/
theorem mapM_eq_ok {α β : Type} (f : α → Except Fault β) (xs : List α)
    (h : ∀ x ∈ xs, ∃ y, f x = .ok y) :
    ∃ ys, xs.mapM f = .ok ys ∧ ys.length = xs.length ∧
      ∀ (p : Nat) (x : α) (y : β), xs[p]? = some x → f x = .ok y → ys[p]? = some y := by
  induction xs with
  | nil => exact ⟨[], rfl, rfl, fun p x y hx => absurd hx (by simp)⟩
  | cons x xs ih =>
    obtain ⟨y, hy⟩ := h x List.mem_cons_self
    obtain ⟨ys, hys, hlen, hget⟩ := ih fun z hz => h z (List.mem_cons_of_mem x hz)
    refine ⟨y :: ys, ?_, by rw [List.length_cons, hlen, List.length_cons], ?_⟩
    · rw [List.mapM_cons]
      exact bind_eq_ok_iff.2 ⟨y, hy, bind_eq_ok_iff.2 ⟨ys, hys, rfl⟩⟩
    · intro p x' y' hp hy'
      cases p with
      | zero =>
        obtain rfl : x = x' := Option.some.inj hp
        obtain rfl : y = y' := Except.ok.inj (hy.symm.trans hy')
        rfl
      | succ p => exact hget p x' y' hp hy'

/-! ## Graphs whose edges are recorded at both ends -/

namespace Digraph

variable {α : Type}

/-- Every edge is recorded as a successor at its start and as a predecessor at its end. -/
def Mirrored (g : Digraph α) : Prop := ∀ a c, c ∈ g.succ a ↔ a ∈ g.pred c

theorem val?_addEdge (g : Digraph α) (a c id : Nat) : (g.addEdge a c).val? id = g.val? id := by
  rw [val?, val?, addEdge, Array.getElem?_modify, Array.getElem?_modify]
  cases g.vertices[id]? with
  | none => by_cases hc : c = id <;> by_cases ha : a = id <;> simp [ha, hc]
  | some v => by_cases hc : c = id <;> by_cases ha : a = id <;> simp [ha, hc]

theorem Mirrored.addEdge {g : Digraph α} (hg : g.Mirrored) {a c : Nat} (ha : a < g.size)
    (hc : c < g.size) : (g.addEdge a c).Mirrored := by
  intro x y
  rw [mem_succ_addEdge, mem_pred_addEdge, hg x y]
  constructor
  · rintro (h | ⟨rfl, rfl, -⟩)
    · exact Or.inl h
    · exact Or.inr ⟨rfl, rfl, hc⟩
  · rintro (h | ⟨rfl, rfl, -⟩)
    · exact Or.inl h
    · exact Or.inr ⟨rfl, rfl, ha⟩

/-- In a mirrored graph an edge can always be added, and the answer says whether it is new. -/
theorem Mirrored.link {g : Digraph α} (hg : g.Mirrored) {a c : Nat} (ha : a < g.size)
    (hc : c < g.size) : g.link a c = .ok (decide (c ∉ g.succ a), g.addEdge a c) := by
  rw [Digraph.link, if_pos ⟨ha, hc⟩, if_pos (hg a c)]

/-- **Run lemma.**  Adding a list of edges adds exactly these edges and leaves the values alone. -/
theorem Mirrored.linkAll {g : Digraph α} (hg : g.Mirrored) (edges : List (Nat × Nat))
    (he : ∀ e ∈ edges, e.1 < g.size ∧ e.2 < g.size) :
    ∃ news g', g.linkAll edges = .ok (news, g') ∧ g'.Mirrored ∧ g'.size = g.size ∧
      (∀ id, g'.val? id = g.val? id) ∧
      (∀ x y, y ∈ g'.succ x ↔ y ∈ g.succ x ∨ (x, y) ∈ edges) ∧
      (edges.Nodup → (∀ e ∈ edges, e.2 ∉ g.succ e.1) → news.all id = true) := by
  induction edges generalizing g with
  | nil => exact ⟨[], g, rfl, hg, rfl, fun _ => rfl, fun x y => by simp, fun _ _ => rfl⟩
  | cons e edges ih =>
    obtain ⟨a, c⟩ := e
    obtain ⟨ha, hc⟩ := he (a, c) List.mem_cons_self
    obtain ⟨news, g', hrun, hm, hsize, hval, hsucc, hnew⟩ := ih (hg.addEdge ha hc) fun e he' => by
      rw [size_addEdge]
      exact he e (List.mem_cons_of_mem _ he')
    refine ⟨_, g', bind_eq_ok_iff.2 ⟨_, hg.link ha hc, bind_eq_ok_iff.2 ⟨_, hrun, rfl⟩⟩, hm, ?_,
      ?_, ?_, ?_⟩
    · rw [hsize, size_addEdge]
    · intro id
      rw [hval, val?_addEdge]
    · intro x y
      rw [hsucc, mem_succ_addEdge, List.mem_cons, Prod.mk.injEq]
      constructor
      · rintro ((h | ⟨rfl, rfl, -⟩) | h)
        · exact Or.inl h
        · exact Or.inr (Or.inl ⟨rfl, rfl⟩)
        · exact Or.inr (Or.inr h)
      · rintro (h | ⟨rfl, rfl⟩ | h)
        · exact Or.inl (Or.inl h)
        · exact Or.inl (Or.inr ⟨rfl, rfl, ha⟩)
        · exact Or.inr h
    · intro hd hfresh
      rw [List.nodup_cons] at hd
      have hrest : news.all id = true := by
        refine hnew hd.2 fun e he' hmem => ?_
        rcases mem_succ_addEdge.1 hmem with h | ⟨h₁, h₂, -⟩
        · exact hfresh e (List.mem_cons_of_mem _ he') h
        · have heq : e = (a, c) := Prod.ext h₁ h₂
          exact hd.1 (heq ▸ he')
      have hfirst : c ∉ g.succ a := hfresh (a, c) List.mem_cons_self
      rw [List.all_cons, hrest]
      simpa using hfirst

theorem getElem?_ofVals (vals : List α) (id : Nat) :
    (ofVals vals).vertices[id]? = vals[id]?.map fun val => { val } := by
  rw [ofVals, List.getElem?_toArray, List.getElem?_map]

theorem size_ofVals (vals : List α) : (ofVals vals).size = vals.length := by
  rw [size, ofVals, List.size_toArray, List.length_map]

theorem val?_ofVals (vals : List α) (id : Nat) : (ofVals vals).val? id = vals[id]? := by
  rw [val?, getElem?_ofVals, Option.map_map]
  cases vals[id]? <;> rfl

theorem notMem_succ_ofVals (vals : List α) (x y : Nat) : y ∉ (ofVals vals).succ x := by
  rw [succ, getElem?_ofVals]
  cases vals[x]? with
  | none => exact IdSet.not_mem_empty y
  | some v => exact IdSet.not_mem_empty y

theorem mirrored_ofVals (vals : List α) : (ofVals vals).Mirrored := by
  intro a c
  refine iff_of_false (notMem_succ_ofVals vals a c) ?_
  rw [pred, getElem?_ofVals]
  cases vals[c]? with
  | none => exact IdSet.not_mem_empty a
  | some v => exact IdSet.not_mem_empty a

end Digraph

namespace FlowGraph

/-! ## Where control passes -/

/-- Control falls through from every position but the last and those that hold a `goto`. -/
theorem mem_fallEdges {ops : List Op} {n x y : Nat} :
    (x, y) ∈ fallEdges n ops ↔ ∃ p op next, x = n + p ∧ y = n + p + 1 ∧ ops[p]? = some op ∧
      ops[p + 1]? = some next ∧ op.isGoto = false := by
  induction ops generalizing n with
  | nil => simp [fallEdges]
  | cons op rest ih =>
    cases rest with
    | nil =>
      refine iff_of_false (by simp [fallEdges]) ?_
      rintro ⟨p, op', next, -, -, -, hnext, -⟩
      rw [List.getElem?_cons_succ] at hnext
      exact absurd hnext (by simp)
    | cons next rest =>
      have hstep : (x, y) ∈ fallEdges n (op :: next :: rest) ↔
          (op.isGoto = false ∧ x = n ∧ y = n + 1) ∨
            (x, y) ∈ fallEdges (n + 1) (next :: rest) := by
        rw [fallEdges]
        by_cases hgoto : op.isGoto
        · rw [if_pos hgoto]
          simp [hgoto]
        · rw [if_neg hgoto, List.mem_cons, Prod.mk.injEq]
          simp [hgoto]
      rw [hstep, ih]
      constructor
      · rintro (⟨hgoto, rfl, rfl⟩ | ⟨p, o, nx, hx, hy, ho, hn, hgoto⟩)
        · exact ⟨0, op, next, rfl, rfl, rfl, rfl, hgoto⟩
        · exact ⟨p + 1, o, nx, by omega, by omega, ho, hn, hgoto⟩
      · rintro ⟨p, o, nx, hx, hy, ho, hn, hgoto⟩
        cases p with
        | zero =>
          obtain rfl : op = o := Option.some.inj ho
          exact Or.inl ⟨hgoto, hx, hy⟩
        | succ p => exact Or.inr ⟨p, o, nx, by omega, by omega, ho, hn, hgoto⟩

theorem nodup_fallEdges (n : Nat) (ops : List Op) : (fallEdges n ops).Nodup := by
  induction ops generalizing n with
  | nil => exact List.nodup_nil
  | cons op rest ih =>
    cases rest with
    | nil => exact List.nodup_nil
    | cons next rest =>
      rw [fallEdges]
      split
      · exact ih (n + 1)
      · refine List.nodup_cons.2 ⟨fun h => ?_, ih (n + 1)⟩
        obtain ⟨p, _, _, hx, -⟩ := mem_fallEdges.1 h
        omega

/-- One more label is the last one of its kind. -/
theorem labelPosition?_concat (ops : List Op) (op : Op) (l : Label) :
    labelPosition? (ops ++ [op]) l =
      if op.labelHere = some l then some ops.length else labelPosition? ops l := by
  rw [labelPosition?, List.zipIdx_append, List.filter_append, Nat.zero_add]
  by_cases h : op.labelHere = some l
  · rw [if_pos h]
    simp [h]
  · rw [if_neg h]
    simp [h, labelPosition?]

/-- The place of a label holds it, and no later place does. -/
theorem labelPosition?_eq_some {ops : List Op} {l : Label} {n : Nat} :
    labelPosition? ops l = some n ↔
      (∃ op, ops[n]? = some op ∧ op.labelHere = some l) ∧
        ∀ m op, ops[m]? = some op → op.labelHere = some l → m ≤ n := by
  induction ops using List.reverseRecOn with
  | nil => simp [labelPosition?]
  | append_singleton ops op ih =>
    rw [labelPosition?_concat]
    by_cases h : op.labelHere = some l
    · rw [if_pos h]
      constructor
      · intro hn
        obtain rfl : ops.length = n := Option.some.inj hn
        refine ⟨⟨op, by rw [List.getElem?_concat_length], h⟩, fun m op' hm _ => ?_⟩
        have hlt := (List.getElem?_eq_some_iff.1 hm).1
        rw [List.length_append, List.length_singleton] at hlt
        omega
      · rintro ⟨⟨op', hn, -⟩, hmax⟩
        have hle := hmax ops.length op (by rw [List.getElem?_concat_length]) h
        have hlt := (List.getElem?_eq_some_iff.1 hn).1
        rw [List.length_append, List.length_singleton] at hlt
        congr 1
        omega
    · rw [if_neg h, ih]
      have hget : ∀ {m : Nat} {op' : Op}, op'.labelHere = some l →
          ((ops ++ [op])[m]? = some op' ↔ ops[m]? = some op') := by
        intro m op' hl
        by_cases hm : m < ops.length
        · rw [List.getElem?_append_left hm]
        · refine iff_of_false (fun hop => ?_) fun hop => hm (List.getElem?_eq_some_iff.1 hop).1
          have hlt := (List.getElem?_eq_some_iff.1 hop).1
          rw [List.length_append, List.length_singleton] at hlt
          obtain rfl : m = ops.length := by omega
          rw [List.getElem?_concat_length] at hop
          obtain rfl : op = op' := Option.some.inj hop
          exact h hl
      constructor
      · rintro ⟨⟨op', hn, hl⟩, hmax⟩
        exact ⟨⟨op', (hget hl).2 hn, hl⟩, fun m o hm hl' => hmax m o ((hget hl').1 hm) hl'⟩
      · rintro ⟨⟨op', hn, hl⟩, hmax⟩
        exact ⟨⟨op', (hget hl).1 hn, hl⟩, fun m o hm hl' => hmax m o ((hget hl').2 hm) hl'⟩

/-- A label that stands somewhere has a last place. -/
theorem exists_labelPosition {ops : List Op} {l : Label} {op : Op} (hm : op ∈ ops)
    (hl : op.labelHere = some l) : ∃ n, labelPosition? ops l = some n := by
  cases hn : labelPosition? ops l with
  | some n => exact ⟨n, rfl⟩
  | none =>
    rw [labelPosition?, Option.map_eq_none_iff, List.getLast?_eq_none_iff,
      List.filter_eq_nil_iff] at hn
    obtain ⟨p, hp⟩ := List.mem_iff_getElem?.1 hm
    have hmem : (op, p) ∈ ops.zipIdx := by
      rw [List.mk_mem_zipIdx_iff_getElem?]
      exact hp
    exact absurd (by simpa using hl) (hn (op, p) hmem)

theorem mem_jumps {ops : List Op} {x : Nat} {l : Label} :
    (x, l) ∈ jumps ops ↔ ∃ op, ops[x]? = some op ∧ op.target = some l := by
  rw [jumps, List.mem_filterMap]
  constructor
  · rintro ⟨⟨op, p⟩, hm, hp⟩
    obtain ⟨l', hl, heq⟩ := Option.map_eq_some_iff.1 hp
    obtain ⟨rfl, rfl⟩ := Prod.mk.inj heq
    exact ⟨op, List.mk_mem_zipIdx_iff_getElem?.1 hm, hl⟩
  · rintro ⟨op, hop, hl⟩
    exact ⟨(op, x), List.mk_mem_zipIdx_iff_getElem?.2 hop, by rw [hl]; rfl⟩

/-- Every jump whose label stands somewhere gets its edge, and there are no other edges. -/
theorem exists_jumpEdges (ops : List Op)
    (h : ∀ op ∈ ops, ∀ l, op.target = some l → ∃ n, labelPosition? ops l = some n) :
    ∃ edges, jumpEdges ops = .ok edges ∧ ∀ x y, (x, y) ∈ edges ↔
      ∃ op l, ops[x]? = some op ∧ op.target = some l ∧ labelPosition? ops l = some y := by
  have hrun : ∀ (j : Nat × Label) (n : Nat), labelPosition? ops j.2 = some n →
      (do return (j.1, ← resolve ops j.2) : Except Fault (Nat × Nat)) = .ok (j.1, n) := by
    intro j n hn
    rw [resolve, hn]
    rfl
  obtain ⟨edges, hedges, hlen, hget⟩ := mapM_eq_ok
    (fun j => do return (j.1, ← resolve ops j.2)) (jumps ops) fun j hj => by
      obtain ⟨op, hop, hl⟩ := mem_jumps.1 hj
      obtain ⟨n, hn⟩ := h op (List.mem_of_getElem? hop) j.2 hl
      exact ⟨_, hrun j n hn⟩
  refine ⟨edges, hedges, fun x y => ⟨fun hm => ?_, ?_⟩⟩
  · obtain ⟨p, hp⟩ := List.mem_iff_getElem?.1 hm
    have hlt : p < (jumps ops).length := hlen ▸ (List.getElem?_eq_some_iff.1 hp).1
    obtain ⟨op, hop, hl⟩ := mem_jumps.1 (List.getElem_mem hlt)
    obtain ⟨n, hn⟩ := h op (List.mem_of_getElem? hop) _ hl
    have hp' := hget p _ _ (List.getElem?_eq_getElem hlt) (hrun _ n hn)
    obtain ⟨hx, hy⟩ := Prod.mk.inj (Option.some.inj (hp.symm.trans hp'))
    exact ⟨op, _, hx ▸ hop, hl, hy ▸ hn⟩
  · rintro ⟨op, l, hop, hl, hn⟩
    obtain ⟨p, hp⟩ := List.mem_iff_getElem?.1 (mem_jumps.2 ⟨op, hop, hl⟩)
    exact List.mem_of_getElem? (hget p _ _ hp (hrun (x, l) y hn))

end FlowGraph

/-- Control may pass from one position of a body to another. -/
def Body.Passes (b : Body) (p q : Nat) : Prop :=
  (∃ op, b.ops[p]? = some op ∧ op.isGoto = false ∧ q = p + 1 ∧ q < b.size) ∨
    ∃ op l, b.ops[p]? = some op ∧ op.target = some l ∧ FlowGraph.labelPosition? b.ops l = some q

/-- Control stays within the body. -/
theorem Body.Passes.exists_entry {b : Body} (hb : b.WellFormed) {p q : Nat} (h : b.Passes p q) :
    ∃ id i, b.toList[q]? = some (id, i) := by
  have hlt : q < b.toList.length := by
    rw [hb.length_toList]
    rcases h with ⟨-, -, -, -, hlt⟩ | ⟨-, l, -, -, hpos⟩
    · exact hlt
    · obtain ⟨⟨op, hop, -⟩, -⟩ := FlowGraph.labelPosition?_eq_some.1 hpos
      rw [← Body.length_ops hb]
      exact (List.getElem?_eq_some_iff.1 hop).1
  exact ⟨_, _, List.getElem?_eq_getElem hlt⟩

/-- The operands whose variables an instruction reads; one that joins definitions reads its own. -/
def Body.readsOf (id : Nat) (op : Op) : List Nat := if op.isUnify then [id] else op.operands

namespace FlowGraph

/-! ## The flow graph of a body -/

/-- A graph that describes the flow of control through a body: a node per position, with what its
instruction writes and reads, and an edge wherever control may pass. -/
structure Describes (g : FlowGraph) (b : Body) (s : Storage) : Prop where
  size_eq : g.size = b.size
  node : ∀ (p id : Nat) (i : Instr), b.toList[p]? = some (id, i) → ∃ n, g.val? p = some n ∧
    n.instr = id ∧ n.defines = (if i.op.definesValue then s.var? id else none) ∧
    ∀ v, v ∈ n.uses ↔ ∃ o ∈ Body.readsOf id i.op, s.var? o = some v
  succ_iff : ∀ p q, q ∈ g.succ p ↔ b.Passes p q

/-- The node of an instruction holds what the instruction writes and reads. -/
theorem exists_ofInstr {b : Body} {s : Storage} (hs : s.Valid b) {id : Nat} {i : Instr}
    (hid : id < b.store.size) (ho : ∀ o ∈ i.op.operands, o < b.store.size) :
    ∃ n, FlowNode.ofInstr s (id, i) = .ok n ∧ n.instr = id ∧
      n.defines = (if i.op.definesValue then s.var? id else none) ∧
      (∀ v, v ∈ n.uses ↔ ∃ o ∈ Body.readsOf id i.op, s.var? o = some v) ∧
      n.liveIn = ∅ ∧ n.liveOut = ∅ := by
  have hdef : FlowNode.definedBy s id i.op =
      .ok (if i.op.definesValue then s.var? id else none) := by
    obtain ⟨v, hv⟩ := hs.total id hid
    rw [FlowNode.definedBy]
    by_cases hd : i.op.definesValue
    · rw [if_pos hd, if_pos hd, Storage.var_eq_ok.2 hv, hv]
      rfl
    · rw [if_neg hd, if_neg hd]
      rfl
  have hreads : ∀ o ∈ Body.readsOf id i.op, ∃ v, s.var o = .ok v := by
    intro o hm
    have hlt : o < b.store.size := by
      rw [Body.readsOf] at hm
      split at hm
      · rw [List.mem_singleton.1 hm]
        exact hid
      · exact ho o hm
    obtain ⟨v, hv⟩ := hs.total o hlt
    exact ⟨v, Storage.var_eq_ok.2 hv⟩
  obtain ⟨vars, hvars, hlen, hget⟩ := mapM_eq_ok s.var _ hreads
  have huse : FlowNode.usedBy s id i.op = .ok (IdSet.ofList vars) :=
    bind_eq_ok_iff.2 ⟨vars, hvars, rfl⟩
  refine ⟨_, bind_eq_ok_iff.2 ⟨_, hdef, bind_eq_ok_iff.2 ⟨_, huse, rfl⟩⟩, rfl, rfl, fun v => ?_,
    rfl, rfl⟩
  rw [IdSet.mem_ofList]
  constructor
  · intro hm
    obtain ⟨p, hp⟩ := List.mem_iff_getElem?.1 hm
    have hlt : p < (Body.readsOf id i.op).length := hlen ▸ (List.getElem?_eq_some_iff.1 hp).1
    obtain ⟨w, hw⟩ := hreads _ (List.getElem_mem hlt)
    have hp' := hget p _ w (List.getElem?_eq_getElem hlt) hw
    obtain rfl : v = w := Option.some.inj (hp.symm.trans hp')
    exact ⟨_, List.getElem_mem hlt, Storage.var_eq_ok.1 hw⟩
  · rintro ⟨o, hm, hv⟩
    obtain ⟨p, hp⟩ := List.mem_iff_getElem?.1 hm
    exact List.mem_of_getElem? (hget p o v hp (Storage.var_eq_ok.2 hv))

end FlowGraph

/-- In a closed body every jump has a place to go. -/
theorem Body.Closed.exists_target {b : Body} (hb : b.Closed) {op : Op} (hop : op ∈ b.ops)
    {l : Label} (hl : op.target = some l) :
    ∃ n, FlowGraph.labelPosition? b.ops l = some n := by
  obtain ⟨e, he, rfl⟩ := List.mem_map.1 hop
  obtain ⟨id', i', hi', hl'⟩ := hb.targets e.1 e.2 (hb.mem_toList.1 he) l hl
  exact FlowGraph.exists_labelPosition (List.mem_map.2 ⟨(id', i'), hb.mem_toList.2 hi', rfl⟩) hl'

/-- The instructions of a closed body have nodes, with no live variables yet. -/
theorem Body.Closed.exists_nodes {b : Body} (hb : b.Closed) {s : Storage} (hs : s.Valid b) :
    ∃ nodes, b.toList.mapM (FlowNode.ofInstr s) = .ok nodes ∧ nodes.length = b.size ∧
      ∀ (p id : Nat) (i : Instr), b.toList[p]? = some (id, i) → ∃ n, nodes[p]? = some n ∧
        n.instr = id ∧ n.defines = (if i.op.definesValue then s.var? id else none) ∧
        (∀ v, v ∈ n.uses ↔ ∃ o ∈ Body.readsOf id i.op, s.var? o = some v) ∧
        n.liveIn = ∅ ∧ n.liveOut = ∅ := by
  have hnode := fun (id : Nat) (i : Instr) (hi : b.store[id]? = some i) =>
    FlowGraph.exists_ofInstr hs (Body.lt_size_of_getElem? hi) (hb.operands id i hi)
  obtain ⟨nodes, hnodes, hlen, hget⟩ := mapM_eq_ok (FlowNode.ofInstr s) b.toList
    fun e he => by
      obtain ⟨n, hn, -⟩ := hnode e.1 e.2 (hb.mem_toList.1 he)
      exact ⟨n, hn⟩
  refine ⟨nodes, hnodes, by rw [hlen, hb.length_toList], fun p id i hp => ?_⟩
  obtain ⟨n, hn, h⟩ := hnode id i (hb.getElem?_toList_eq_some.1 hp).2
  exact ⟨n, hget p _ n hp hn, h⟩

/-- Control falls through along edges that are all new. -/
theorem Body.WellFormed.exists_falls {b : Body} (hb : b.WellFormed) {nodes : List FlowNode}
    (hlen : nodes.length = b.size) :
    ∃ falls, FlowGraph.linkNew (Digraph.ofVals nodes) (FlowGraph.fallEdges 0 b.ops) = .ok falls ∧
      falls.Mirrored ∧ falls.size = b.size ∧ (∀ p, falls.val? p = nodes[p]?) ∧
      ∀ p q, q ∈ falls.succ p ↔ (p, q) ∈ FlowGraph.fallEdges 0 b.ops := by
  have hsize : (Digraph.ofVals nodes).size = b.size := by rw [Digraph.size_ofVals, hlen]
  have hlt : ∀ {p : Nat} {op : Op}, b.ops[p]? = some op → p < b.size := by
    intro p op hop
    rw [← Body.length_ops hb]
    exact (List.getElem?_eq_some_iff.1 hop).1
  obtain ⟨news, falls, hfalls, hm, hsize', hval, hsucc, hnew⟩ :=
    (Digraph.mirrored_ofVals nodes).linkAll (FlowGraph.fallEdges 0 b.ops) fun e he => by
      obtain ⟨p, op, next, hx, hy, hop, hnext, -⟩ := FlowGraph.mem_fallEdges.1 he
      have h₁ := hlt hop
      have h₂ := hlt hnext
      rw [hsize]
      omega
  refine ⟨falls, bind_eq_ok_iff.2 ⟨_, hfalls, ?_⟩, hm, hsize'.trans hsize,
    fun p => by rw [hval, Digraph.val?_ofVals], fun p q => ?_⟩
  · have hall := hnew (FlowGraph.nodup_fallEdges 0 b.ops) fun e _ =>
      Digraph.notMem_succ_ofVals nodes e.1 e.2
    show (if news.all id = true then _ else _) = _
    rw [if_pos hall]
    rfl
  · rw [hsucc, or_iff_right (Digraph.notMem_succ_ofVals nodes p q)]

/-- Between the nodes of a closed body there come to be edges wherever control may pass. -/
theorem Body.Closed.exists_links {b : Body} (hb : b.Closed) {nodes : List FlowNode}
    (hlen : nodes.length = b.size) :
    ∃ falls targets news g,
      FlowGraph.linkNew (Digraph.ofVals nodes) (FlowGraph.fallEdges 0 b.ops) = .ok falls ∧
      FlowGraph.jumpEdges b.ops = .ok targets ∧ falls.linkAll targets = .ok (news, g) ∧
      g.size = b.size ∧ (∀ p, g.val? p = nodes[p]?) ∧ ∀ p q, q ∈ g.succ p ↔ b.Passes p q := by
  have hlt : ∀ {p : Nat} {op : Op}, b.ops[p]? = some op → p < b.size := by
    intro p op hop
    rw [← Body.length_ops hb.toWellFormed]
    exact (List.getElem?_eq_some_iff.1 hop).1
  obtain ⟨falls, hlink, hm₁, hsize₁, hval₁, hsucc₁⟩ := hb.toWellFormed.exists_falls hlen
  -- jumps lead along edges that may repeat those
  obtain ⟨targets, htargets, hmem⟩ := FlowGraph.exists_jumpEdges b.ops
    fun op hop l hl => hb.exists_target hop hl
  obtain ⟨news', g, hg, -, hsize₂, hval₂, hsucc₂, -⟩ := hm₁.linkAll targets fun e he => by
    obtain ⟨op, l, hop, hl, hn⟩ := (hmem e.1 e.2).1 he
    obtain ⟨op', hop', -⟩ := (FlowGraph.labelPosition?_eq_some.1 hn).1
    rw [hsize₁]
    exact ⟨hlt hop, hlt hop'⟩
  refine ⟨falls, targets, news', g, hlink, htargets, hg, by rw [hsize₂, hsize₁],
    fun p => by rw [hval₂, hval₁], fun p q => ?_⟩
  -- there are no other edges, and control passes in the same two ways
  rw [hsucc₂, hsucc₁, hmem, FlowGraph.mem_fallEdges]
  constructor
  · rintro (⟨p', op, next, hx, hy, hop, hnext, hgoto⟩ | h)
    · obtain rfl : p = p' := by omega
      have hq := hlt hnext
      exact Or.inl ⟨op, hop, hgoto, by omega, by omega⟩
    · exact Or.inr h
  · rintro (⟨op, hop, hgoto, hq, hlt'⟩ | h)
    · have hnext : p + 1 < b.ops.length := by
        rw [Body.length_ops hb.toWellFormed]
        omega
      exact Or.inl ⟨p, op, _, by omega, by omega, hop, List.getElem?_eq_getElem hnext, hgoto⟩
    · exact Or.inr h

/-- **Flow graphs follow control.**  The flow graph of a closed body exists, describes it, and has
no live variables yet. -/
theorem Body.Closed.exists_flow {b : Body} (hb : b.Closed) {s : Storage} (hs : s.Valid b) :
    ∃ g, FlowGraph.ofBody b s = .ok g ∧ g.Describes b s ∧
      ∀ p, g.liveIn p = ∅ ∧ g.liveOut p = ∅ := by
  obtain ⟨nodes, hnodes, hlen, hnode⟩ := hb.exists_nodes hs
  obtain ⟨falls, targets, news, g, hfalls, htargets, hg, hsize, hval, hsucc⟩ :=
    hb.exists_links hlen
  refine ⟨g, ?_, ⟨hsize, fun p id i hp => ?_, hsucc⟩, fun p => ?_⟩
  · exact bind_eq_ok_iff.2 ⟨_, hnodes, bind_eq_ok_iff.2 ⟨_, hfalls, bind_eq_ok_iff.2 ⟨_, htargets,
      bind_eq_ok_iff.2 ⟨_, hg, rfl⟩⟩⟩⟩
  · obtain ⟨n, hn, hinstr, hdef, huses, -⟩ := hnode p id i hp
    exact ⟨n, by rw [hval, hn], hinstr, hdef, huses⟩
  · rw [FlowGraph.liveIn, FlowGraph.liveOut, hval]
    cases hp : nodes[p]? with
    | none => exact ⟨rfl, rfl⟩
    | some n =>
      have hlt : p < b.toList.length := by
        rw [hb.length_toList, ← hlen]
        exact (List.getElem?_eq_some_iff.1 hp).1
      obtain ⟨n', hn', -, -, -, hin, hout⟩ := hnode p _ _ (List.getElem?_eq_getElem hlt)
      obtain rfl : n = n' := Option.some.inj (hp.symm.trans hn')
      exact ⟨hin, hout⟩

/-- A flow graph comes from its nodes by adding edges. -/
theorem FlowGraph.exists_linkAll {b : Body} {s : Storage} {g : FlowGraph}
    (h : FlowGraph.ofBody b s = .ok g) :
    ∃ nodes falls news targets news', b.toList.mapM (FlowNode.ofInstr s) = .ok nodes ∧
      (Digraph.ofVals nodes).linkAll (FlowGraph.fallEdges 0 b.ops) = .ok (news, falls) ∧
      falls.linkAll targets = .ok (news', g) := by
  obtain ⟨nodes, hnodes, h⟩ := bind_eq_ok_iff.1 h
  obtain ⟨falls, hfalls, h⟩ := bind_eq_ok_iff.1 h
  obtain ⟨targets, -, h⟩ := bind_eq_ok_iff.1 h
  obtain ⟨⟨news', g'⟩, hg, h⟩ := bind_eq_ok_iff.1 h
  obtain rfl := Except.ok.inj h
  obtain ⟨⟨news, g₁⟩, hlink, hnew⟩ := bind_eq_ok_iff.1 hfalls
  replace hnew : (if news.all id then .ok g₁ else .error Fault.repeatedEdge) =
      Except.ok falls := hnew
  split_ifs at hnew
  obtain rfl := Except.ok.inj hnew
  exact ⟨nodes, g₁, news, targets, news', hnodes, hlink, hg⟩

/-- Bodies with the same operations have the same flow graph. -/
theorem FlowGraph.ofBody_congr {b c : Body} (h : b.SameOps c) (s : Storage) :
    FlowGraph.ofBody b s = FlowGraph.ofBody c s := by
  have hmap : ∀ es : List (Nat × Instr), es.mapM (FlowNode.ofInstr s) =
      (es.map fun e => (e.1, e.2.op)).mapM fun e => FlowNode.ofInstr s (e.1, { op := e.2 }) := by
    intro es
    rw [List.mapM_map]
    rfl
  rw [FlowGraph.ofBody, FlowGraph.ofBody, hmap, hmap, h.toList_map, h.ops_eq]

end Backend
