/-
# Liveness is exact

A variable is needed at a node (`FlowGraph.Live`) when on some path from there it is read before it
is written.  Sweeping over a flow graph finds the variables needed along paths of one more node with
each sweep and never finds others, and no variable needs a path longer than the graph has nodes.  So
from live sets that hold only needed variables `FlowGraph.analyze` comes to rest, and the live sets
it leaves are exact (`FlowGraph.solved_analyze`).
-/
import Mathlib
import Backend.Proofs.Flow

namespace Backend

/-! ## The transfer of one node -/

namespace FlowNode

/-- What is live behind an instruction: what it defines, and what is live in front of a next one. -/
theorem mem_outFrom {n : FlowNode} {after : List IdSet} {v : Nat} :
    v ∈ n.outFrom after ↔ n.defines = some v ∨ ∃ s ∈ after, v ∈ s := by
  have hfold : ∀ (start : IdSet),
      v ∈ after.foldl (· ∪ ·) start ↔ v ∈ start ∨ ∃ s ∈ after, v ∈ s := by
    induction after with
    | nil => simp
    | cons s after ih =>
      intro start
      rw [List.foldl_cons, ih, IdSet.mem_union, List.exists_mem_cons_iff, or_assoc]
  rw [outFrom, hfold]
  cases n.defines with
  | none => simp
  | some w => simp [eq_comm]

/-- What is live in front of an instruction: what it uses, and what passes it. -/
theorem mem_inFrom {n : FlowNode} {out : IdSet} {v : Nat} :
    v ∈ n.inFrom out ↔ v ∈ n.uses ∨ (v ∈ out ∧ n.defines ≠ some v) := by
  rw [inFrom, IdSet.mem_union, IdSet.mem_filter, bne_iff_ne]

end FlowNode

namespace FlowGraph

/-! ## Needed variables -/

/-- A variable is needed at a node: on some path from there it is read before it is written. -/
inductive Live (g : FlowGraph) (v : Nat) : Nat → Prop
  | use {p : Nat} {n : FlowNode} (hn : g.val? p = some n) (hv : v ∈ n.uses) : Live g v p
  | pass {p q : Nat} {n : FlowNode} (hn : g.val? p = some n) (hd : n.defines ≠ some v)
      (hq : q ∈ g.succ p) (hlive : Live g v q) : Live g v p

/-- A variable is needed at a node because of a path of at most so many nodes. -/
def LiveWithin (g : FlowGraph) (v : Nat) : Nat → Nat → Prop
  | 0, _ => False
  | k + 1, p => ∃ n, g.val? p = some n ∧
      (v ∈ n.uses ∨ (n.defines ≠ some v ∧ ∃ q ∈ g.succ p, LiveWithin g v k q))

/-- A path of bounded length may be longer. -/
theorem LiveWithin.mono {g : FlowGraph} {v k p : Nat} (h : g.LiveWithin v k p) :
    g.LiveWithin v (k + 1) p := by
  induction k generalizing p with
  | zero => exact h.elim
  | succ k ih =>
    obtain ⟨n, hn, hv | ⟨hd, q, hq, hlive⟩⟩ := h
    · exact ⟨n, hn, Or.inl hv⟩
    · exact ⟨n, hn, Or.inr ⟨hd, q, hq, ih hlive⟩⟩

theorem LiveWithin.mono_le {g : FlowGraph} {v j k p : Nat} (hjk : j ≤ k)
    (h : g.LiveWithin v j p) : g.LiveWithin v k p := by
  induction hjk with
  | refl => exact h
  | step _ ih => exact ih.mono

theorem LiveWithin.lt_size {g : FlowGraph} {v k p : Nat} (h : g.LiveWithin v k p) :
    p < g.size := by
  cases k with
  | zero => exact h.elim
  | succ k =>
    obtain ⟨n, hn, -⟩ := h
    obtain ⟨x, hx, -⟩ := Option.map_eq_some_iff.1 hn
    exact (Array.getElem?_eq_some_iff.1 hx).1

/-- What is live is so because of a path of some length. -/
theorem Live.exists_within {g : FlowGraph} {v p : Nat} (h : g.Live v p) :
    ∃ k, g.LiveWithin v k p := by
  induction h with
  | use hn hv => exact ⟨1, _, hn, Or.inl hv⟩
  | pass hn hd hq _ ih =>
    obtain ⟨k, hk⟩ := ih
    exact ⟨k + 1, _, hn, Or.inr ⟨hd, _, hq, hk⟩⟩

/-- No variable needs a path longer than the graph has nodes: the sets of nodes reached by longer
and longer paths grow, and once they stop growing they stay the same. -/
theorem Live.within_size {g : FlowGraph} {v p : Nat} (h : g.Live v p) :
    g.LiveWithin v g.size p := by
  classical
  let nodes (k : Nat) : Finset Nat := (Finset.range g.size).filter (g.LiveWithin v k)
  have hmem : ∀ {k q}, q ∈ nodes k ↔ g.LiveWithin v k q := by
    intro k q
    rw [Finset.mem_filter, Finset.mem_range]
    exact ⟨fun h => h.2, fun h => ⟨h.lt_size, h⟩⟩
  have hmono : ∀ k, nodes k ⊆ nodes (k + 1) := fun k q hq => hmem.2 (hmem.1 hq).mono
  have hstep : ∀ k, nodes k = nodes (k + 1) → nodes (k + 1) = nodes (k + 2) := by
    intro k hk
    refine Finset.Subset.antisymm (hmono _) fun q hq => ?_
    obtain ⟨n, hn, hv | ⟨hd, r, hr, hlive⟩⟩ := hmem.1 hq
    · exact hmem.2 ⟨n, hn, Or.inl hv⟩
    · exact hmem.2 ⟨n, hn, Or.inr ⟨hd, r, hr, hmem.1 (hk ▸ hmem.2 hlive)⟩⟩
  have hcard : ∀ k, (nodes k).card = (nodes (k + 1)).card → nodes k = nodes (k + 1) :=
    fun k hk => Finset.eq_of_subset_of_card_le (hmono k) hk.ge
  have hbound : ∀ k, (nodes k).card ≤ g.size := fun k =>
    (Finset.card_filter_le _ _).trans_eq (Finset.card_range _)
  obtain ⟨k, hk⟩ := h.exists_within
  have hstable : (nodes (max k g.size)).card = (nodes g.size).card :=
    Nat.stabilises_of_monotone
      (monotone_nat_of_le_succ fun j => Finset.card_le_card (hmono j)) hbound
      (fun j hj => by rw [hstep j (hcard j hj)]) (le_max_right k g.size)
  have hsub : nodes g.size ⊆ nodes (max k g.size) := fun q hq =>
    hmem.2 ((hmem.1 hq).mono_le (le_max_right _ _))
  rw [← hmem, Finset.eq_of_subset_of_card_le hsub hstable.le]
  exact hmem.2 (hk.mono_le (le_max_left _ _))

/-! ## Graphs that differ in their live sets -/

/-- What a node has apart from its live sets. -/
def shape (n : FlowNode) : Nat × Option Nat × IdSet := (n.instr, n.defines, n.uses)

/-- Two graphs with the same edges, and nodes that differ in their live sets at most. -/
structure SameShape (g h : FlowGraph) : Prop where
  size_eq : g.size = h.size
  succ_eq : ∀ p, g.succ p = h.succ p
  val_eq : ∀ p, (g.val? p).map shape = (h.val? p).map shape

namespace SameShape

variable {g h k : FlowGraph}

theorem refl (g : FlowGraph) : SameShape g g := ⟨rfl, fun _ => rfl, fun _ => rfl⟩

theorem symm (hgh : SameShape g h) : SameShape h g :=
  ⟨hgh.size_eq.symm, fun p => (hgh.succ_eq p).symm, fun p => (hgh.val_eq p).symm⟩

theorem trans (hgh : SameShape g h) (hhk : SameShape h k) : SameShape g k :=
  ⟨hgh.size_eq.trans hhk.size_eq, fun p => (hgh.succ_eq p).trans (hhk.succ_eq p),
    fun p => (hgh.val_eq p).trans (hhk.val_eq p)⟩

/-- Every node has a counterpart that writes and reads the same. -/
theorem exists_node (hgh : SameShape g h) {p : Nat} {n : FlowNode} (hn : g.val? p = some n) :
    ∃ m, h.val? p = some m ∧ m.instr = n.instr ∧ m.defines = n.defines ∧ m.uses = n.uses := by
  have hval := hgh.val_eq p
  rw [hn, Option.map_some] at hval
  obtain ⟨m, hm, hshape⟩ := Option.map_eq_some_iff.1 hval.symm
  simp only [shape, Prod.mk.injEq] at hshape
  exact ⟨m, hm, hshape.1, hshape.2.1, hshape.2.2⟩

/-- What is live depends on the shape of the graph only. -/
theorem live (hgh : SameShape g h) {v p : Nat} (hlive : g.Live v p) : h.Live v p := by
  induction hlive with
  | use hn hv =>
    obtain ⟨m, hm, -, -, huses⟩ := hgh.exists_node hn
    exact .use hm (huses ▸ hv)
  | pass hn hd hq _ ih =>
    obtain ⟨m, hm, -, hdef, -⟩ := hgh.exists_node hn
    exact .pass hm (hdef ▸ hd) (hgh.succ_eq _ ▸ hq) ih

theorem liveWithin (hgh : SameShape g h) {v j p : Nat} (hlive : g.LiveWithin v j p) :
    h.LiveWithin v j p := by
  induction j generalizing p with
  | zero => exact hlive.elim
  | succ j ih =>
    obtain ⟨n, hn, hor⟩ := hlive
    obtain ⟨m, hm, -, hdef, huses⟩ := hgh.exists_node hn
    refine ⟨m, hm, ?_⟩
    rcases hor with hv | ⟨hd, q, hq, hlive⟩
    · exact Or.inl (huses ▸ hv)
    · exact Or.inr ⟨hdef ▸ hd, q, hgh.succ_eq p ▸ hq, ih hlive⟩

/-- What a graph describes depends on its shape only. -/
theorem describes (hgh : SameShape g h) {b : Body} {s : Storage} (hg : g.Describes b s) :
    h.Describes b s where
  size_eq := hgh.size_eq ▸ hg.size_eq
  node p id i hp := by
    obtain ⟨n, hn, hinstr, hdef, huses⟩ := hg.node p id i hp
    obtain ⟨m, hm, hinstr', hdef', huses'⟩ := hgh.exists_node hn
    exact ⟨m, hm, hinstr'.trans hinstr, hdef'.trans hdef, fun v => huses' ▸ huses v⟩
  succ_iff p q := by rw [← hgh.succ_eq, hg.succ_iff]

end SameShape

/-! ## Visiting one node -/

section Visit

variable (g : FlowGraph) (id : Nat)

/-- A visit changes one node. -/
theorem getElem?_visit (p : Nat) : (g.visit id).vertices[p]? =
    if id = p then g.vertices[p]?.map fun x =>
      { x with val := x.val.update ((g.succ id).toList.map g.liveIn) }
    else g.vertices[p]? := by
  rw [visit, Digraph.modifyVal, Array.getElem?_modify]

/-- A visit keeps the shape of the graph. -/
theorem sameShape_visit : SameShape g (g.visit id) where
  size_eq := by rw [visit, Digraph.modifyVal, Digraph.size, Digraph.size, Array.size_modify]
  succ_eq p := by
    rw [Digraph.succ, Digraph.succ, getElem?_visit]
    split
    · cases g.vertices[p]? <;> rfl
    · rfl
  val_eq p := by
    rw [Digraph.val?, Digraph.val?, getElem?_visit]
    split
    · cases g.vertices[p]? <;> rfl
    · rfl

/-- A visit keeps the live sets of the other nodes. -/
theorem liveIn_visit_of_ne {p : Nat} (h : id ≠ p) : (g.visit id).liveIn p = g.liveIn p := by
  rw [liveIn, liveIn, Digraph.val?, Digraph.val?, getElem?_visit, if_neg h]

theorem val?_visit_self : (g.visit id).val? id =
    (g.val? id).map (·.update ((g.succ id).toList.map g.liveIn)) := by
  rw [Digraph.val?, Digraph.val?, getElem?_visit, if_pos rfl]
  cases g.vertices[id]? <;> rfl

/-- At the node visited a variable becomes live if the node reads it, or passes it on to a node
where it is live. -/
theorem mem_liveIn_visit_self {v : Nat} : v ∈ (g.visit id).liveIn id ↔
    ∃ n, g.val? id = some n ∧
      (v ∈ n.uses ∨ (n.defines ≠ some v ∧ ∃ q ∈ g.succ id, v ∈ g.liveIn q)) := by
  rw [liveIn, val?_visit_self]
  cases g.val? id with
  | none => simp
  | some n =>
    show v ∈ n.inFrom (n.outFrom _) ↔ _
    rw [FlowNode.mem_inFrom, FlowNode.mem_outFrom]
    constructor
    · rintro (hv | ⟨hd | ⟨s, hs, hv⟩, hne⟩)
      · exact ⟨n, rfl, Or.inl hv⟩
      · exact absurd hd hne
      · obtain ⟨q, hq, rfl⟩ := List.mem_map.1 hs
        exact ⟨n, rfl, Or.inr ⟨hne, q, hq, hv⟩⟩
    · rintro ⟨m, hm, hor⟩
      obtain rfl : n = m := Option.some.inj hm
      rcases hor with hv | ⟨hne, q, hq, hv⟩
      · exact Or.inl hv
      · exact Or.inr ⟨Or.inr ⟨_, List.mem_map.2 ⟨q, hq, rfl⟩, hv⟩, hne⟩

end Visit

/-! ## Sweeping over the nodes -/

section Sweep

variable {g : FlowGraph}

theorem sameShape_foldr_visit (ids : List Nat) (g : FlowGraph) :
    SameShape g (ids.foldr (fun id g => g.visit id) g) := by
  induction ids with
  | nil => exact .refl g
  | cons id ids ih => exact ih.trans (sameShape_visit _ id)

/-- A sweep keeps the shape of the graph. -/
theorem sameShape_sweep (g : FlowGraph) : SameShape g g.sweep := sameShape_foldr_visit g.ids g

/-- The live sets hold needed variables only. -/
def Sound (g : FlowGraph) : Prop := ∀ p v, v ∈ g.liveIn p → g.Live v p

/-- The live sets hold all variables needed because of paths of at most so many nodes. -/
def Covers (g : FlowGraph) (k : Nat) : Prop := ∀ p v, g.LiveWithin v k p → v ∈ g.liveIn p

/-- The live sets hold exactly the needed variables. -/
def Exact (g : FlowGraph) : Prop := ∀ p v, v ∈ g.liveIn p ↔ g.Live v p

/-- **Step lemma.**  A visit adds nothing that is not live. -/
theorem Sound.visit (hg : g.Sound) (id : Nat) : (g.visit id).Sound := by
  intro p v hv
  apply (sameShape_visit g id).live
  by_cases hp : id = p
  · subst hp
    obtain ⟨n, hn, hv | ⟨hd, q, hq, hv⟩⟩ := (mem_liveIn_visit_self g id).1 hv
    · exact .use hn hv
    · exact .pass hn hd hq (hg q v hv)
  · rw [liveIn_visit_of_ne g id hp] at hv
    exact hg p v hv

theorem Sound.foldr_visit (hg : g.Sound) (ids : List Nat) :
    (ids.foldr (fun id g => g.visit id) g).Sound := by
  induction ids with
  | nil => exact hg
  | cons id ids ih => exact ih.visit id

/-- **Step lemma.**  Visiting nodes keeps what is covered, and the nodes visited cover paths of one
more node: whichever of their successors have been visited before them, all cover the old paths. -/
theorem Covers.foldr_visit {k : Nat} (hg : g.Covers k) (ids : List Nat) :
    (ids.foldr (fun id g => g.visit id) g).Covers k ∧
      ∀ p ∈ ids, ∀ v, g.LiveWithin v (k + 1) p →
        v ∈ (ids.foldr (fun id g => g.visit id) g).liveIn p := by
  induction ids with
  | nil => exact ⟨hg, fun p hp => absurd hp List.not_mem_nil⟩
  | cons id ids ih =>
    rw [List.foldr_cons]
    have hshape := sameShape_foldr_visit ids g
    set h := ids.foldr (fun id g => g.visit id) g
    have hself : ∀ v, g.LiveWithin v (k + 1) id → v ∈ (h.visit id).liveIn id := by
      intro v hlive
      obtain ⟨n, hn, hv | ⟨hd, q, hq, hlive⟩⟩ := hshape.liveWithin hlive
      · exact (mem_liveIn_visit_self h id).2 ⟨n, hn, Or.inl hv⟩
      · exact (mem_liveIn_visit_self h id).2 ⟨n, hn, Or.inr ⟨hd, q, hq, ih.1 q v hlive⟩⟩
    constructor
    · intro p v hlive
      have hlive' := (sameShape_visit h id).symm.liveWithin hlive
      by_cases hp : id = p
      · subst hp
        exact hself v (hshape.symm.liveWithin hlive').mono
      · rw [liveIn_visit_of_ne h id hp]
        exact ih.1 p v hlive'
    · intro p hp v hlive
      by_cases hid : id = p
      · subst hid
        exact hself v hlive
      · rw [liveIn_visit_of_ne h id hid]
        exact ih.2 p ((List.mem_cons.1 hp).resolve_left (Ne.symm hid)) v hlive

/-- Every sweep covers paths that are longer by one. -/
theorem Covers.sweep {k : Nat} (hg : g.Covers k) : g.sweep.Covers (k + 1) := by
  intro p v hlive
  have hlive' := (sameShape_sweep g).symm.liveWithin hlive
  exact (hg.foldr_visit g.ids).2 p (List.mem_range.2 hlive'.lt_size) v hlive'

/-- Live sets that hold only needed variables and cover paths as long as the graph are exact. -/
theorem Sound.exact {k : Nat} (hg : g.Sound) (hk : g.Covers k) (hsize : g.size ≤ k) :
    g.Exact := fun p v => ⟨hg p v, fun h => hk p v (h.within_size.mono_le hsize)⟩

/-! ## Coming to rest -/

/-- Visiting the node would change nothing. -/
def Settled (g : FlowGraph) (p : Nat) : Prop :=
  ∀ n, g.val? p = some n → n.update ((g.succ p).toList.map g.liveIn) = n

/-- A visit to a settled node changes nothing. -/
theorem visit_eq_self {p : Nat} (h : g.Settled p) : g.visit p = g := by
  have hvert : (g.visit p).vertices = g.vertices := by
    apply Array.ext_getElem?
    intro q
    rw [getElem?_visit]
    split
    · subst q
      cases hp : g.vertices[p]? with
      | none => rfl
      | some x =>
        have hupd := h x.val (by rw [Digraph.val?, hp]; rfl)
        rw [Option.map_some, hupd]
    · rfl
  cases hv : g.visit p
  rw [hv] at hvert
  cases g
  exact congrArg Digraph.mk hvert

/-- Visits to other nodes do not touch a node. -/
theorem getElem?_foldr_visit {id : Nat} {ids : List Nat} (h : id ∉ ids) :
    (ids.foldr (fun id g => g.visit id) g).vertices[id]? = g.vertices[id]? := by
  induction ids with
  | nil => rfl
  | cons j ids ih =>
    rw [List.mem_cons, not_or] at h
    rw [List.foldr_cons, getElem?_visit, if_neg (Ne.symm h.1), ih h.2]

/-- A sweep changes nothing exactly when no node would change. -/
theorem foldr_visit_eq_self {ids : List Nat} (hd : ids.Nodup) :
    ids.foldr (fun id g => g.visit id) g = g ↔ ∀ p ∈ ids, g.Settled p := by
  induction ids with
  | nil => simp
  | cons id ids ih =>
    rw [List.nodup_cons] at hd
    rw [List.foldr_cons]
    constructor
    · intro heq
      -- the last visit cannot undo what the others did, so they did nothing
      have hrest : ids.foldr (fun id g => g.visit id) g = g := by
        have hvert : (ids.foldr (fun id g => g.visit id) g).vertices = g.vertices := by
          apply Array.ext_getElem?
          intro q
          by_cases hq : id = q
          · exact hq ▸ getElem?_foldr_visit hd.1
          · have hvisit := getElem?_visit (ids.foldr (fun id g => g.visit id) g) id q
            rw [if_neg hq, heq] at hvisit
            exact hvisit.symm
        cases hfold : ids.foldr (fun id g => g.visit id) g
        rw [hfold] at hvert
        cases g
        exact congrArg Digraph.mk hvert
      rw [hrest] at heq
      intro p hp
      rcases List.mem_cons.1 hp with rfl | hp
      · intro n hn
        have hval := val?_visit_self g p
        rw [heq, hn, Option.map_some] at hval
        exact (Option.some.inj hval).symm
      · exact (ih hd.2).1 hrest p hp
    · intro hall
      rw [(ih hd.2).2 fun p hp => hall p (List.mem_cons_of_mem id hp)]
      exact visit_eq_self (hall id List.mem_cons_self)

/-- A sweep changes nothing exactly if all nodes are settled. -/
theorem sweep_eq_self : g.sweep = g ↔ ∀ p, g.Settled p := by
  have hids : (Digraph.ids g).Nodup := List.nodup_range
  rw [sweep, foldr_visit_eq_self hids]
  constructor
  · intro h p n hn
    obtain ⟨x, hx, -⟩ := Option.map_eq_some_iff.1 hn
    exact h p (List.mem_range.2 (Array.getElem?_eq_some_iff.1 hx).1) n hn
  · exact fun h p _ => h p

/-- In a graph at rest the live sets hold all needed variables. -/
theorem mem_liveIn_of_live (hg : ∀ p, g.Settled p) {v p : Nat} (h : g.Live v p) :
    v ∈ g.liveIn p := by
  induction h with
  | @use p n hn hv =>
    rw [← visit_eq_self (hg p), mem_liveIn_visit_self]
    exact ⟨n, hn, Or.inl hv⟩
  | @pass p q n hn hd hq _ ih =>
    rw [← visit_eq_self (hg p), mem_liveIn_visit_self]
    exact ⟨n, hn, Or.inr ⟨hd, q, hq, ih⟩⟩

/-- Exact live sets stay as they are when nodes are visited. -/
theorem Exact.liveIn_eq {h : FlowGraph} (hg : g.Exact) (hh : h.Exact) (hgh : SameShape g h)
    (p : Nat) : h.liveIn p = g.liveIn p :=
  IdSet.ext fun v => by
    rw [hh p v, hg p v]
    exact ⟨hgh.symm.live, hgh.live⟩

/-- **Step lemma.**  A visit keeps sets that are exact. -/
theorem Exact.visit (hg : g.Exact) (id : Nat) : (g.visit id).Exact := by
  intro p v
  refine ⟨Sound.visit (fun p v => (hg p v).1) id p v, fun hlive => ?_⟩
  have hlive' := (sameShape_visit g id).symm.live hlive
  by_cases hp : id = p
  · subst hp
    rw [mem_liveIn_visit_self]
    cases hlive' with
    | use hn hv => exact ⟨_, hn, Or.inl hv⟩
    | pass hn hd hq hlive => exact ⟨_, hn, Or.inr ⟨hd, _, hq, (hg _ v).2 hlive⟩⟩
  · rw [liveIn_visit_of_ne g id hp]
    exact (hg p v).2 hlive'

/-- A node that has been visited with exact live sets around it is at rest, and stays so. -/
theorem Exact.settled_foldr_visit (hg : g.Exact) (ids : List Nat) :
    (ids.foldr (fun id g => g.visit id) g).Exact ∧
      ∀ p ∈ ids, (ids.foldr (fun id g => g.visit id) g).Settled p := by
  induction ids with
  | nil => exact ⟨hg, fun p hp => absurd hp List.not_mem_nil⟩
  | cons id ids ih =>
    rw [List.foldr_cons]
    set h := ids.foldr (fun id g => g.visit id) g
    have hshape := sameShape_visit h id
    have hin : (h.visit id).liveIn = h.liveIn := funext (ih.1.liveIn_eq (ih.1.visit id) hshape)
    refine ⟨ih.1.visit id, fun p hp n hn => ?_⟩
    rw [hin, ← hshape.succ_eq]
    by_cases hid : id = p
    · subst hid
      rw [val?_visit_self] at hn
      obtain ⟨m, -, rfl⟩ := Option.map_eq_some_iff.1 hn
      rfl
    · rw [Digraph.val?, getElem?_visit, if_neg hid, ← Digraph.val?] at hn
      exact ih.2 p ((List.mem_cons.1 hp).resolve_left (Ne.symm hid)) n hn

theorem Exact.settled_sweep (hg : g.Exact) (p : Nat) : g.sweep.Settled p := by
  intro n hn
  refine (hg.settled_foldr_visit g.ids).2 p (List.mem_range.2 ?_) n hn
  obtain ⟨x, hx, -⟩ := Option.map_eq_some_iff.1 hn
  have hlt : p < g.sweep.size := (Array.getElem?_eq_some_iff.1 hx).1
  rwa [← (sameShape_sweep g).size_eq] at hlt

end Sweep

/-! ## The analysis -/

/-- The live sets are the least solution of the flow equations. -/
structure Solved (g : FlowGraph) : Prop where
  liveIn_iff : ∀ p v, v ∈ g.liveIn p ↔ g.Live v p
  liveOut_iff : ∀ p v, v ∈ g.liveOut p ↔
    ∃ n, g.val? p = some n ∧ (n.defines = some v ∨ ∃ q ∈ g.succ p, v ∈ g.liveIn q)

/-- Live sets at rest that hold only needed variables are the least solution. -/
theorem Sound.solved {g : FlowGraph} (hg : g.Sound) (hrest : ∀ p, g.Settled p) : g.Solved where
  liveIn_iff p v := ⟨hg p v, mem_liveIn_of_live hrest⟩
  liveOut_iff p v := by
    rw [liveOut]
    cases hp : g.val? p with
    | none => simp
    | some n =>
      have hout : n.liveOut = n.outFrom ((g.succ p).toList.map g.liveIn) :=
        congrArg FlowNode.liveOut (hrest p n hp).symm
      rw [Option.elim_some, hout, FlowNode.mem_outFrom]
      simp only [List.mem_map, IdSet.mem_toList, exists_exists_and_eq_and, Option.some.injEq,
        exists_eq_left']

/-- **Run lemma.**  Sweeps that have covered paths of `k` nodes come to rest before the graph's size
is used up, and then hold the least solution. -/
theorem settle_solved (limit done k : Nat) (g : FlowGraph) (hg : g.Sound) (hk : g.Covers k)
    (hrest : g.size < k → ∀ p, g.Settled p) (hlimit : g.size < limit + k) :
    (settle limit done g).2.Solved ∧ SameShape g (settle limit done g).2 := by
  induction limit generalizing done k g with
  | zero => exact ⟨hg.solved (hrest (by omega)), .refl g⟩
  | succ limit ih =>
    rw [settle]
    split
    · rename_i heq
      exact ⟨hg.solved (sweep_eq_self.1 heq), .refl g⟩
    · have hshape := sameShape_sweep g
      obtain ⟨hsolved, hsame⟩ := ih (done + 1) (k + 1) g.sweep (hg.foldr_visit g.ids) hk.sweep
        (fun hlt => (hg.exact hk (by rw [← hshape.size_eq] at hlt; omega)).settled_sweep)
        (by rw [← hshape.size_eq]; omega)
      exact ⟨hsolved, hshape.trans hsame⟩

/-- Without any live variables there are none but needed ones. -/
theorem sound_of_liveIn_eq_empty {g : FlowGraph} (h : ∀ p, g.liveIn p = ∅) : g.Sound := by
  intro p v hv
  rw [h p] at hv
  exact absurd hv (IdSet.not_mem_empty v)

/-- **Liveness is exact.**  From live sets that hold only needed variables, the analysis finds the
least solution of the flow equations and changes nothing else. -/
theorem solved_analyze {g : FlowGraph} (hg : g.Sound) :
    g.analyze.2.Solved ∧ SameShape g g.analyze.2 := by
  have hlimit : g.size < g.sweepLimit + 0 := by
    rw [sweepLimit]
    nlinarith
  exact settle_solved g.sweepLimit 0 0 g hg (fun _ _ h => h.elim)
    (fun h => absurd h (Nat.not_lt_zero _)) hlimit

end FlowGraph

/-- **The liveness of a closed body** exists, describes its flow of control, and is the least
solution of the flow equations. -/
theorem Body.Closed.exists_liveness {b : Body} (hb : b.Closed) {s : Storage} (hs : s.Valid b) :
    ∃ g, FlowGraph.ofBody b s = .ok g ∧ g.analyze.2.Describes b s ∧ g.analyze.2.Solved := by
  obtain ⟨g, hrun, hdesc, hempty⟩ := hb.exists_flow hs
  obtain ⟨hsolved, hshape⟩ :=
    FlowGraph.solved_analyze (FlowGraph.sound_of_liveIn_eq_empty fun p => (hempty p).1)
  exact ⟨g, hrun, hshape.describes hdesc, hsolved⟩

/-! ## Liveness without a graph -/

namespace Body

/-- The value of the class of an instruction is needed at a position: it is read there, or it is
needed where control goes and not written before. -/
inductive LiveAt (b : Body) (x : Nat) : Nat → Prop
  | use {p id o : Nat} {i : Instr} (hp : b.toList[p]? = some (id, i)) (ho : o ∈ readsOf id i.op)
      (hlink : b.Linked o x) : LiveAt b x p
  | pass {p q id : Nat} {i : Instr} (hp : b.toList[p]? = some (id, i))
      (hd : i.op.definesValue = true → ¬ b.Linked id x) (hq : b.Passes p q)
      (hlive : LiveAt b x q) : LiveAt b x p

/-- What is live is live in front of an instruction. -/
theorem LiveAt.exists_entry {b : Body} {x p : Nat} (h : b.LiveAt x p) :
    ∃ id i, b.toList[p]? = some (id, i) := by
  cases h with
  | use hp _ _ => exact ⟨_, _, hp⟩
  | pass hp _ _ _ => exact ⟨_, _, hp⟩

/-- Only classes of the body are live. -/
theorem LiveAt.lt_size {b : Body} (hb : b.Closed) {x p : Nat} (h : b.LiveAt x p) :
    x < b.store.size := by
  induction h with
  | @use p id o i hp ho hlink =>
    have hi := (hb.getElem?_toList_eq_some.1 hp).2
    have hlt : o < b.store.size := by
      rw [readsOf] at ho
      split at ho
      · rw [List.mem_singleton.1 ho]
        exact lt_size_of_getElem? hi
      · exact hb.operands id i hi o ho
    by_contra hge
    have := ((linked_equivalence b).symm hlink).eq_of_le hb (not_lt.1 hge)
    omega
  | pass _ _ _ _ ih => exact ih

/-- What an instruction reads is live in front of it. -/
theorem liveAt_of_mem_operands {b : Body} (hb : b.WellFormed) {p id o : Nat} {i : Instr}
    (hp : b.toList[p]? = some (id, i)) (ho : o ∈ i.op.operands) : b.LiveAt o p := by
  have hi := (hb.getElem?_toList_eq_some.1 hp).2
  cases hop : i.op with
  | unify l r =>
    have hread : id ∈ readsOf id i.op := by
      rw [hop]
      exact List.mem_singleton_self id
    obtain ⟨hl, hr⟩ := linked_of_unify hi hop
    rw [hop] at ho
    rcases List.mem_pair.1 ho with rfl | rfl
    · exact .use hp hread hl
    · exact .use hp hread hr
  | _ =>
    refine .use hp ?_ ((linked_equivalence b).refl o)
    rw [readsOf, if_neg (by rw [hop]; simp [Op.isUnify])]
    exact ho

/-- What is live behind an instruction has been written by it, or was live in front of it. -/
theorem LiveAt.of_passes {b : Body} {p q id x : Nat} {i : Instr}
    (hp : b.toList[p]? = some (id, i)) (hq : b.Passes p q) (h : b.LiveAt x q) :
    (i.op.definesValue = true ∧ i.op.isUnify = false ∧ b.Linked id x) ∨
      (b.LiveAt x p ∧ (i.op.definesValue = true → i.op.isUnify = false → ¬ b.Linked id x)) := by
  by_cases hdef : i.op.definesValue = true ∧ b.Linked id x
  · cases hunify : i.op.isUnify with
    | false => exact Or.inl ⟨hdef.1, rfl, hdef.2⟩
    | true =>
      -- a join writes nothing and reads its own class
      refine Or.inr ⟨.use hp ?_ hdef.2, fun _ h => absurd h (by simp)⟩
      rw [readsOf, if_pos hunify]
      exact List.mem_singleton_self id
  · exact Or.inr ⟨.pass hp (fun h h' => hdef ⟨h, h'⟩) hq h, fun h _ h' => hdef ⟨h, h'⟩⟩

end Body

/-- The nodes of a flow graph stand for positions of the body. -/
theorem FlowGraph.Describes.exists_entry {g : FlowGraph} {b : Body} {s : Storage}
    (hg : g.Describes b s) (hb : b.WellFormed) {p : Nat} {n : FlowNode} (hn : g.val? p = some n) :
    ∃ id i, b.toList[p]? = some (id, i) := by
  obtain ⟨w, hw, -⟩ := Option.map_eq_some_iff.1 hn
  have hlt : p < b.toList.length := by
    rw [hb.length_toList, ← hg.size_eq]
    exact (Array.getElem?_eq_some_iff.1 hw).1
  exact ⟨_, _, List.getElem?_eq_getElem hlt⟩

/-- What is needed is the variable of an instruction. -/
theorem FlowGraph.Describes.exists_var_of_live {g : FlowGraph} {b : Body} {s : Storage}
    (hg : g.Describes b s) (hb : b.WellFormed) {v p : Nat} (h : g.Live v p) :
    ∃ x, s.var? x = some v := by
  induction h with
  | @use p n hn hv =>
    obtain ⟨id, i, hp⟩ := hg.exists_entry hb hn
    obtain ⟨n', hn', -, -, huses⟩ := hg.node p id i hp
    obtain rfl : n = n' := Option.some.inj (hn.symm.trans hn')
    obtain ⟨o, -, ho⟩ := (huses v).1 hv
    exact ⟨o, ho⟩
  | pass _ _ _ _ ih => exact ih

/-- **The graph computes liveness**: a variable is live where the class it stands for is. -/
theorem FlowGraph.Describes.live_iff {g : FlowGraph} {b : Body} {s : Storage} (hg : g.Describes b s)
    (hb : b.Closed) (hs : s.Describes b) {x v : Nat} (hx : s.var? x = some v) {p : Nat} :
    g.Live v p ↔ b.LiveAt x p := by
  have hlink : ∀ {o : Nat}, s.var? o = some v ↔ b.Linked o x := by
    intro o
    constructor
    · intro ho
      exact (hs.var?_eq_iff (hs.lt_size ho) (hs.lt_size hx)).1 (ho.trans hx.symm)
    · intro ho
      exact (hs.var?_eq_of_linked hb ho).trans hx
  constructor
  · intro h
    induction h with
    | @use p n hn hv =>
      obtain ⟨id, i, hp⟩ := hg.exists_entry hb.toWellFormed hn
      obtain ⟨n', hn', -, -, huses⟩ := hg.node p id i hp
      obtain rfl : n = n' := Option.some.inj (hn.symm.trans hn')
      obtain ⟨o, ho, hov⟩ := (huses v).1 hv
      exact .use hp ho (hlink.1 hov)
    | @pass p q n hn hd hq _ ih =>
      obtain ⟨id, i, hp⟩ := hg.exists_entry hb.toWellFormed hn
      obtain ⟨n', hn', -, hdef, -⟩ := hg.node p id i hp
      obtain rfl : n = n' := Option.some.inj (hn.symm.trans hn')
      refine .pass hp (fun hval hid => hd ?_) ((hg.succ_iff p q).1 hq) ih
      rw [hdef, if_pos hval, hlink.2 hid]
  · intro h
    induction h with
    | @use p id o i hp ho hox =>
      obtain ⟨n, hn, -, -, huses⟩ := hg.node p id i hp
      exact .use hn ((huses v).2 ⟨o, ho, hlink.2 hox⟩)
    | @pass p q id i hp hd hq _ ih =>
      obtain ⟨n, hn, -, hdef, -⟩ := hg.node p id i hp
      refine .pass hn (fun hdv => ?_) ((hg.succ_iff p q).2 hq) ih
      rw [hdef] at hdv
      split at hdv
      · rename_i hval
        exact hd hval (hlink.1 hdv)
      · exact absurd hdv (by simp)

end Backend
