/-
# Interference graphs are exact

An interference graph can also be built one edge after the other (`Interference.linkLive`): there is
a node for every candidate, and for each live set in turn every candidate in it is linked with every
later one, in both directions.  Most pairs are live together at many places and are linked again and
again.  No link is ever refused, since a graph that records its edges at both ends keeps doing so
(`Digraph.Mirrored.linkBoth`), and in the end there is an edge exactly where two candidates
meet in a live set (`Interference.exact_build`).
-/
import Mathlib
import Backend.Proofs.ControlFlow
import Backend.Proofs.PinnedColoring

namespace Backend

/-! ## Linking pairs of vertices -/

namespace Digraph

variable {α : Type}

theorem mirrored_ofRel (vals : List α) (rel : Nat → Nat → Bool) : (ofRel vals rel).Mirrored := by
  intro x y
  rw [mem_succ_ofRel, mem_pred_ofRel]
  tauto

/-- In a mirrored graph two vertices can always be linked in both directions. -/
theorem Mirrored.doubleLink {g : Digraph α} (hg : g.Mirrored) {a c : Nat} (ha : a < g.size)
    (hc : c < g.size) : g.doubleLink a c = .ok ((g.addEdge a c).addEdge c a) := by
  have hback := (hg.addEdge ha hc).link (a := c) (c := a) (by rwa [size_addEdge])
    (by rwa [size_addEdge])
  exact bind_eq_ok_iff.2 ⟨_, hg.link ha hc, bind_eq_ok_iff.2 ⟨_, hback, rfl⟩⟩

/-- Link every pair of a list in both directions, one pair after the other. -/
def linkBoth (g : Digraph α) (edges : List (Nat × Nat)) : Except Fault (Digraph α) :=
  edges.foldlM (fun g e => g.doubleLink e.1 e.2) g

/-- **Run lemma.**  Linking pairs of vertices is never refused, and adds exactly these edges and
their opposites, however often a pair is listed. -/
theorem Mirrored.linkBoth {g : Digraph α} (hg : g.Mirrored) {edges : List (Nat × Nat)}
    (hedges : ∀ e ∈ edges, e.1 < g.size ∧ e.2 < g.size) :
    ∃ g', g.linkBoth edges = .ok g' ∧ g'.Mirrored ∧ (∀ x, g'.val? x = g.val? x) ∧
      ∀ x y, y ∈ g'.succ x ↔ y ∈ g.succ x ∨ (x, y) ∈ edges ∨ (y, x) ∈ edges := by
  induction edges generalizing g with
  | nil => exact ⟨g, rfl, hg, fun _ => rfl, fun x y => by simp⟩
  | cons e edges ih =>
    obtain ⟨a, c⟩ := e
    obtain ⟨ha, hc⟩ := hedges (a, c) List.mem_cons_self
    have hm : ((g.addEdge a c).addEdge c a).Mirrored :=
      (hg.addEdge ha hc).addEdge (by rwa [size_addEdge]) (by rwa [size_addEdge])
    obtain ⟨g', hrun, hm', hval, hsucc⟩ := ih hm fun e he => by
      rw [size_addEdge, size_addEdge]
      exact hedges e (List.mem_cons_of_mem _ he)
    refine ⟨g', ?_, hm', fun x => ?_, fun x y => ?_⟩
    · rw [Digraph.linkBoth, List.foldlM_cons]
      exact bind_eq_ok_iff.2 ⟨_, hg.doubleLink ha hc, hrun⟩
    · rw [hval, val?_addEdge, val?_addEdge]
    · rw [hsucc, mem_succ_addEdge, mem_succ_addEdge, size_addEdge]
      simp only [List.mem_cons, Prod.mk.injEq, ha, hc, and_true]
      tauto

end Digraph

namespace Interference

/-- The pairs of an entry of a list with a later one. -/
def pairs : List Nat → List (Nat × Nat)
  | [] => []
  | a :: rest => rest.map (fun b => (a, b)) ++ pairs rest

/-- Pairs are made of listed numbers. -/
theorem mem_of_mem_pairs {ids : List Nat} {x y : Nat} (h : (x, y) ∈ pairs ids) :
    x ∈ ids ∧ y ∈ ids := by
  induction ids with
  | nil => cases h
  | cons a rest ih =>
    rcases List.mem_append.1 h with h | h
    · obtain ⟨b, hb, heq⟩ := List.mem_map.1 h
      cases heq
      exact ⟨List.mem_cons_self, List.mem_cons_of_mem _ hb⟩
    · exact (ih h).imp (List.mem_cons_of_mem a) (List.mem_cons_of_mem a)

/-- Two numbers are paired, one way or the other, exactly when both are in the list. -/
theorem mem_pairs_or_mem_pairs {ids : List Nat} (hnodup : ids.Nodup) {x y : Nat} :
    (x, y) ∈ pairs ids ∨ (y, x) ∈ pairs ids ↔ x ∈ ids ∧ y ∈ ids ∧ x ≠ y := by
  induction ids with
  | nil => simp [pairs]
  | cons a rest ih =>
    obtain ⟨ha, hrest⟩ := List.nodup_cons.1 hnodup
    simp only [pairs, List.mem_append, List.mem_map, Prod.mk.injEq, List.mem_cons]
    grind

/-! ## Building the graph edge by edge -/

/-- The nodes of the candidates in a live set, in increasing order. -/
def nodesIn (g : Interference) (live : IdSet) : List Nat :=
  (live.toList.filterMap g.node?).insertionSort (· ≤ ·)

/-- Link every candidate in a live set with every other one. -/
def linkSet (g : Interference) (live : IdSet) : Except Fault Interference :=
  g.linkBoth (pairs (g.nodesIn live))

/-- Build the interference graph edge by edge, one live set after the other. -/
def linkLive (f : FlowGraph) (cs : Candidates) : Except Fault Interference :=
  (liveSets f).foldlM linkSet (cs.toList.foldl (fun g c => (g.insert c).2) {})

/-- The graph that has the candidates for nodes and an edge between two of them that are in one of
the sets. -/
structure Meets (g : Interference) (cs : Candidates) (sets : List IdSet) : Prop where
  mirrored : g.Mirrored
  val?_eq : ∀ x, g.val? x = cs.toList[x]?
  mem_succ : ∀ x y, y ∈ g.succ x ↔ x ≠ y ∧ ∃ c d, cs.toList[x]? = some c ∧
    cs.toList[y]? = some d ∧ ∃ live ∈ sets, c.var ∈ live ∧ d.var ∈ live

section

variable {f : FlowGraph} {cs : Candidates} {sets : List IdSet} {g : Interference}

/-- Looking up the node of a variable takes the values of a graph into account and nothing else. -/
theorem node?_congr {g' : Interference} (h : ∀ x, g.val? x = g'.val? x) (v : Nat) :
    g.node? v = g'.node? v := by
  have hvals : g.vertices.map (·.val) = g'.vertices.map (·.val) := by
    apply Array.ext_getElem?
    intro x
    rw [Array.getElem?_map, Array.getElem?_map]
    exact h x
  have hnode : ∀ h : Interference,
      h.node? v = (h.vertices.map (·.val)).findIdx? fun c => c.var == v := by
    intro h
    rw [Array.findIdx?_map]
    rfl
  rw [hnode, hnode, hvals]

theorem Meets.node?_eq_some (h : g.Meets cs sets) {v x : Nat} :
    g.node? v = some x ↔ ∃ c, cs.toList[x]? = some c ∧ c.var = v := by
  have hval : ∀ y, g.val? y = (build {} cs).val? y := fun y => by rw [h.val?_eq, val?_build]
  rw [node?_congr hval, node?_build, var?_build_eq_some]

/-- The nodes that are live. -/
theorem Meets.mem_nodesIn (h : g.Meets cs sets) {live : IdSet} {x : Nat} :
    x ∈ g.nodesIn live ↔ ∃ c, cs.toList[x]? = some c ∧ c.var ∈ live := by
  rw [nodesIn, List.mem_insertionSort, List.mem_filterMap]
  constructor
  · rintro ⟨v, hv, hx⟩
    obtain ⟨c, hc, rfl⟩ := h.node?_eq_some.1 hx
    exact ⟨c, hc, hv⟩
  · rintro ⟨c, hc, hlive⟩
    exact ⟨c.var, hlive, h.node?_eq_some.2 ⟨c, hc, rfl⟩⟩

theorem Meets.nodup_nodesIn (h : g.Meets cs sets) (live : IdSet) : (g.nodesIn live).Nodup := by
  rw [nodesIn, (List.perm_insertionSort _ _).nodup_iff]
  refine live.nodup_toList.filterMap fun v w x hv hw => ?_
  obtain ⟨c, hc, rfl⟩ := h.node?_eq_some.1 hv
  obtain ⟨d, hd, rfl⟩ := h.node?_eq_some.1 hw
  rw [Option.some.inj (hc.symm.trans hd)]

/-- **Step lemma.**  Linking the candidates in one more set is never refused. -/
theorem Meets.linkSet (h : g.Meets cs sets) (live : IdSet) :
    ∃ g', g.linkSet live = .ok g' ∧ g'.Meets cs (sets ++ [live]) := by
  have hlt : ∀ x ∈ g.nodesIn live, x < g.size := by
    intro x hx
    obtain ⟨c, hc, -⟩ := h.mem_nodesIn.1 hx
    rw [← h.val?_eq] at hc
    obtain ⟨v, hv, -⟩ := Option.map_eq_some_iff.1 hc
    exact (Array.getElem?_eq_some_iff.1 hv).1
  have hpairs : ∀ e ∈ pairs (g.nodesIn live), e.1 < g.size ∧ e.2 < g.size :=
    fun e he => (mem_of_mem_pairs he).imp (hlt e.1) (hlt e.2)
  obtain ⟨g', hrun, hm, hval, hsucc⟩ := h.mirrored.linkBoth hpairs
  refine ⟨g', hrun, hm, fun x => (hval x).trans (h.val?_eq x), fun x y => ?_⟩
  rw [hsucc, mem_pairs_or_mem_pairs (h.nodup_nodesIn live), h.mem_succ, h.mem_nodesIn,
    h.mem_nodesIn]
  simp only [List.mem_append, List.mem_singleton]
  constructor
  · rintro (⟨hne, c, d, hc, hd, old, hold, hmeet⟩ | ⟨⟨c, hc, hcl⟩, ⟨d, hd, hdl⟩, hne⟩)
    · exact ⟨hne, c, d, hc, hd, old, Or.inl hold, hmeet⟩
    · exact ⟨hne, c, d, hc, hd, live, Or.inr rfl, hcl, hdl⟩
  · rintro ⟨hne, c, d, hc, hd, old, hold | rfl, hcl, hdl⟩
    · exact Or.inl ⟨hne, c, d, hc, hd, old, hold, hcl, hdl⟩
    · exact Or.inr ⟨⟨c, hc, hcl⟩, ⟨d, hd, hdl⟩, hne⟩

/-- **Run lemma.**  Linking the candidates in one set after the other is never refused. -/
theorem Meets.foldlM_linkSet (h : g.Meets cs sets) (more : List IdSet) :
    ∃ g', more.foldlM Interference.linkSet g = .ok g' ∧ g'.Meets cs (sets ++ more) := by
  induction more generalizing g sets with
  | nil => exact ⟨g, rfl, by rwa [List.append_nil]⟩
  | cons live more ih =>
    obtain ⟨g₁, hlink, h₁⟩ := h.linkSet live
    obtain ⟨g', hrun, h'⟩ := ih h₁
    rw [List.append_assoc] at h'
    exact ⟨g', bind_eq_ok_iff.2 ⟨g₁, hlink, hrun⟩, h'⟩

/-- One node for each candidate, and no edges yet. -/
theorem foldl_insert_eq (cs : List Candidate) :
    cs.foldl (fun g c => (g.insert c).2) {} = Digraph.ofVals cs := by
  induction cs using List.reverseRecOn with
  | nil => rfl
  | append_singleton cs c ih =>
    rw [List.foldl_concat, ih]
    simp [Digraph.insert, Digraph.ofVals]

theorem meets_ofVals (cs : Candidates) : Meets (Digraph.ofVals cs.toList) cs [] where
  mirrored := Digraph.mirrored_ofVals _
  val?_eq := Digraph.val?_ofVals _
  mem_succ x y := by
    refine iff_of_false (Digraph.notMem_succ_ofVals _ x y) ?_
    rintro ⟨-, c, d, -, -, live, hlive, -⟩
    cases hlive

/-- The two sets of an interference graph mirror each other. -/
theorem mirrored_build (f : FlowGraph) (cs : Candidates) : (build f cs).Mirrored :=
  Digraph.mirrored_ofRel _ _

/-- Of two neighbours each is a successor of the other. -/
theorem mem_succ_build_iff_mem_adj {x y : Nat} :
    y ∈ (build f cs).succ x ↔ y ∈ (build f cs).adj x := by
  have hback : x ∈ (build f cs).succ y → y ∈ (build f cs).succ x := by
    rw [mem_succ_build, mem_succ_build]
    rintro ⟨hy, hx, hne, live, hlive, hyl, hxl⟩
    exact ⟨hx, hy, hne.symm, live, hlive, hxl, hyl⟩
  rw [Digraph.mem_adj, ← mirrored_build f cs y x]
  exact ⟨Or.inl, fun h => h.elim id hback⟩

theorem meets_build (f : FlowGraph) (cs : Candidates) : (build f cs).Meets cs (liveSets f) where
  mirrored := mirrored_build f cs
  val?_eq := val?_build f cs
  mem_succ x y := by rw [mem_succ_build_iff_mem_adj, mem_adj_build]

/-- **The graph can be built edge by edge**, and then no link is ever refused. -/
theorem linkLive_eq (f : FlowGraph) (cs : Candidates) : linkLive f cs = .ok (build f cs) := by
  obtain ⟨g, hrun, hg⟩ := (meets_ofVals cs).foldlM_linkSet (liveSets f)
  rw [List.nil_append] at hg
  have heq : g = build f cs := by
    apply hg.mirrored.eq (mirrored_build f cs)
    · intro x
      rw [hg.val?_eq, val?_build]
    · intro x y
      rw [hg.mem_succ, (meets_build f cs).mem_succ]
  rw [linkLive, foldl_insert_eq, hrun, heq]

end

/-! ## Who interferes with whom -/

/-- The live sets are those on entry to the nodes and on exit from them. -/
theorem exists_mem_liveSets {f : FlowGraph} {a b : Nat} :
    (∃ live ∈ liveSets f, a ∈ live ∧ b ∈ live) ↔ ∃ n, (a ∈ f.liveIn n ∧ b ∈ f.liveIn n) ∨
      (a ∈ f.liveOut n ∧ b ∈ f.liveOut n) := by
  constructor
  · rintro ⟨live, hlive, h⟩
    obtain ⟨v, hv, hmem⟩ := List.mem_flatMap.1 hlive
    obtain ⟨n, hn⟩ := List.getElem?_of_mem hv
    rw [Array.getElem?_toList] at hn
    have hval : f.val? n = some v.val := Option.map_eq_some_iff.2 ⟨v, hn, rfl⟩
    refine ⟨n, ?_⟩
    rw [FlowGraph.liveIn, FlowGraph.liveOut, hval]
    rcases List.mem_pair.1 hmem with rfl | rfl
    · exact Or.inl h
    · exact Or.inr h
  · rintro ⟨n, h | h⟩
    · exact ⟨_, Body.mem_liveSets.1 h.1, h⟩
    · exact ⟨_, Body.mem_liveSets.2 h.1, h⟩

/-- A graph that shows exactly which candidates are live together.  The nodes are the candidates
with their pins, by increasing variable. -/
structure Exact (g : Interference) (f : FlowGraph) (cs : Candidates) : Prop where
  nodes : g.vertices.toList.map (·.val) = cs.toList
  sorted : (g.vertices.toList.map (·.val.var)).Pairwise (· < ·)
  interferes_iff : ∀ a b, g.interferes a b = true ↔
    a ≠ b ∧ (∃ c ∈ cs.toList, c.var = a) ∧ (∃ d ∈ cs.toList, d.var = b) ∧
      ∃ n, (a ∈ f.liveIn n ∧ b ∈ f.liveIn n) ∨ (a ∈ f.liveOut n ∧ b ∈ f.liveOut n)
  symm : ∀ a b, g.interferes a b = g.interferes b a
  irrefl : ∀ a, g.interferes a a = false
  /-- The neighbours of a node are its successors and its predecessors alike. -/
  succ_eq : ∀ x, g.succ x = g.adj x
  pred_eq : ∀ x, g.pred x = g.adj x

variable {f : FlowGraph} {cs : Candidates}

/-- The nodes of an interference graph are the candidates. -/
theorem nodes_build (f : FlowGraph) (cs : Candidates) :
    (build f cs).vertices.toList.map (·.val) = cs.toList := by
  apply List.ext_getElem?
  intro x
  rw [List.getElem?_map, Array.getElem?_toList]
  exact val?_build f cs x

/-- Two variables interfere if they are different candidates that meet in a live set. -/
theorem interferes_build_iff {a b : Nat} : (build f cs).interferes a b = true ↔
    a ≠ b ∧ (∃ c ∈ cs.toList, c.var = a) ∧ (∃ d ∈ cs.toList, d.var = b) ∧
      ∃ n, (a ∈ f.liveIn n ∧ b ∈ f.liveIn n) ∨ (a ∈ f.liveOut n ∧ b ∈ f.liveOut n) := by
  rw [interferes_build, ← exists_mem_liveSets]
  constructor
  · rintro ⟨x, y, hx, hy, hadj⟩
    obtain ⟨hne, c, d, hc, hd, hmeet⟩ := mem_adj_build.1 hadj
    obtain ⟨c', hc', rfl⟩ := var?_build_eq_some.1 hx
    obtain ⟨d', hd', rfl⟩ := var?_build_eq_some.1 hy
    obtain rfl := Option.some.inj (hc.symm.trans hc')
    obtain rfl := Option.some.inj (hd.symm.trans hd')
    refine ⟨fun heq => hne (var?_injective hx (heq ▸ hy)), ?_, ?_, hmeet⟩
    · exact ⟨c, List.mem_of_getElem? hc, rfl⟩
    · exact ⟨d, List.mem_of_getElem? hd, rfl⟩
  · rintro ⟨hne, ⟨c, hc, rfl⟩, ⟨d, hd, rfl⟩, hmeet⟩
    obtain ⟨x, hx⟩ := List.getElem?_of_mem hc
    obtain ⟨y, hy⟩ := List.getElem?_of_mem hd
    refine ⟨x, y, var?_build_eq_some.2 ⟨c, hx, rfl⟩, var?_build_eq_some.2 ⟨d, hy, rfl⟩,
      mem_adj_build.2 ⟨?_, c, d, hx, hy, hmeet⟩⟩
    rintro rfl
    exact hne (congrArg Candidate.var (Option.some.inj (hx.symm.trans hy)))

theorem interferes_build_comm (a b : Nat) :
    (build f cs).interferes a b = (build f cs).interferes b a := by
  rw [Bool.eq_iff_iff, interferes_build, interferes_build]
  constructor
  · rintro ⟨x, y, hx, hy, hadj⟩
    exact ⟨y, x, hy, hx, symmetric_build f cs x y hadj⟩
  · rintro ⟨x, y, hx, hy, hadj⟩
    exact ⟨y, x, hy, hx, symmetric_build f cs x y hadj⟩

/-- **Interference graphs are exact**, whatever the live sets and the candidates; and building them
edge by edge comes to the same. -/
theorem exact_build (f : FlowGraph) (cs : Candidates) :
    (build f cs).Exact f cs ∧ linkLive f cs = .ok (build f cs) where
  left :=
    { nodes := nodes_build f cs
      sorted := by
        have hsorted := List.pairwise_map.2 cs.sorted
        rw [← nodes_build f cs, List.map_map] at hsorted
        exact hsorted
      interferes_iff := fun _ _ => interferes_build_iff
      symm := interferes_build_comm
      irrefl := fun a => by
        rw [Bool.eq_false_iff]
        intro h
        exact (interferes_build_iff.1 h).1 rfl
      succ_eq := fun x => IdSet.ext fun y => mem_succ_build_iff_mem_adj
      pred_eq := fun x => IdSet.ext fun y => by
        rw [← mirrored_build f cs y x]
        exact mem_succ_build_iff_mem_adj.trans
          ⟨symmetric_build f cs y x, symmetric_build f cs x y⟩ }
  right := linkLive_eq f cs

/-- A pair that is live together at several places is linked each time; the candidate that is live
alone, and the variable that is no candidate, stay apart. -/
example :
    let f : FlowGraph := ⟨#[{ val := { instr := 0, liveIn := .ofList [2, 7, 9] } },
      { val := { instr := 1, liveIn := .ofList [7, 2], liveOut := .ofList [5] } }]⟩
    (linkLive f (.ofList [{ var := 7, pin := some 1 }, { var := 2 }, { var := 5 }])).toOption.map
        (·.vertices.toList.map fun v => (v.val.var, v.val.pin, v.succ.toList)) =
      some [(2, none, [2]), (5, none, []), (7, some 1, [0])] := by
  decide +kernel

end Interference

end Backend
