/-
# The least solution of the flow equations

The flow equations say what is live on entry to a node and on exit from it, given what is live
around it (`FlowGraph.Solves`).  They have many solutions when control can go in circles, and the
least of them are the variables that are read on some path before they are written
(`isLeast_least`, `live_iff_usedOnPath`).  The analysis visits the nodes in one particular order and
overwrites live sets, which may shrink on the way; still, from live sets inside the least solution
it comes to rest by itself, in the least solution (`analyzed_of_le_least`).
-/
import Mathlib
import Backend.Proofs.Liveness

namespace Backend.FlowGraph

/-! ## The flow equations -/

/-- The variable written at a node. -/
def definesAt (g : FlowGraph) (p : Nat) : Option Nat := (g.val? p).bind (·.defines)

/-- The variables read at a node. -/
def usesAt (g : FlowGraph) (p : Nat) : IdSet := (g.val? p).elim ∅ (·.uses)

/-- Sets of variables on entry to the nodes, and on exit from them, that satisfy the flow
equations. -/
structure Solves (g : FlowGraph) (live : (Nat → Set Nat) × (Nat → Set Nat)) : Prop where
  entry_eq : ∀ p, live.1 p = {v | v ∈ g.usesAt p ∨ (v ∈ live.2 p ∧ g.definesAt p ≠ some v)}
  exit_eq : ∀ p, live.2 p = {v | g.definesAt p = some v ∨ ∃ q ∈ g.succ p, v ∈ live.1 q}

/-- The needed variables on entry to each node, and what they make live on exit. -/
def least (g : FlowGraph) : (Nat → Set Nat) × (Nat → Set Nat) :=
  (fun p => {v | g.Live v p}, fun p => {v | g.definesAt p = some v ∨ ∃ q ∈ g.succ p, g.Live v q})

/-- Outside of the graph control goes nowhere. -/
theorem succ_of_val?_eq_none {g : FlowGraph} {p : Nat} (h : g.val? p = none) : g.succ p = ∅ := by
  rw [Digraph.succ, Option.map_eq_none_iff.1 h]
  rfl

theorem live_iff {g : FlowGraph} {v p : Nat} : g.Live v p ↔
    v ∈ g.usesAt p ∨ (g.definesAt p ≠ some v ∧ ∃ q ∈ g.succ p, g.Live v q) := by
  constructor
  · intro h
    cases h with
    | use hn hv =>
      left
      rw [usesAt, hn]
      exact hv
    | pass hn hd hq hlive =>
      right
      rw [definesAt, hn]
      exact ⟨hd, _, hq, hlive⟩
  · intro h
    cases hp : g.val? p with
    | none =>
      rw [usesAt, hp, succ_of_val?_eq_none hp] at h
      rcases h with h | ⟨-, q, hq, -⟩
      · exact absurd h (IdSet.not_mem_empty v)
      · exact absurd hq (IdSet.not_mem_empty q)
    | some n =>
      rw [usesAt, definesAt, hp] at h
      rcases h with hv | ⟨hd, q, hq, hlive⟩
      · exact .use hp hv
      · exact .pass hp hd hq hlive

/-- **The needed variables are the least solution of the flow equations.** -/
theorem isLeast_least (g : FlowGraph) : IsLeast {live | g.Solves live} g.least := by
  constructor
  · refine ⟨fun p => Set.ext fun v => ?_, fun p => rfl⟩
    show g.Live v p ↔ v ∈ g.usesAt p ∨
      ((g.definesAt p = some v ∨ ∃ q ∈ g.succ p, g.Live v q) ∧ g.definesAt p ≠ some v)
    rw [live_iff]
    tauto
  · intro live hlive
    have hentry : ∀ {v p : Nat}, g.Live v p → v ∈ live.1 p := by
      intro v p h
      induction h with
      | @use p n hn hv =>
        rw [hlive.entry_eq p]
        left
        rw [usesAt, hn]
        exact hv
      | @pass p q n hn hd hq _ ih =>
        rw [hlive.entry_eq p]
        right
        rw [hlive.exit_eq p, definesAt, hn]
        exact ⟨Or.inr ⟨q, hq, ih⟩, hd⟩
    refine ⟨fun p v h => hentry h, fun p v h => ?_⟩
    rw [hlive.exit_eq p]
    exact h.imp id fun ⟨q, hq, h⟩ => ⟨q, hq, hentry h⟩

/-! ## Needed along a path -/

/-- A path leads from a node to one that reads the variable, and no node before it on the path
writes it. -/
def UsedOnPath (g : FlowGraph) (v p : Nat) : Prop :=
  ∃ (m : Nat) (node : Nat → Nat), node 0 = p ∧
    (∀ i < m, node (i + 1) ∈ g.succ (node i) ∧ g.definesAt (node i) ≠ some v) ∧
    v ∈ g.usesAt (node m)

theorem live_iff_usedOnPath {g : FlowGraph} {v p : Nat} : g.Live v p ↔ g.UsedOnPath v p := by
  constructor
  · intro h
    induction h with
    | @use p n hn hv =>
      refine ⟨0, fun _ => p, rfl, fun i hi => absurd hi (Nat.not_lt_zero i), ?_⟩
      rw [usesAt, hn]
      exact hv
    | @pass p q n hn hd hq _ ih =>
      obtain ⟨m, node, rfl, hpath, hv⟩ := ih
      refine ⟨m + 1, fun i => i.casesOn p node, rfl, fun i hi => ?_, hv⟩
      cases i with
      | zero =>
        refine ⟨hq, ?_⟩
        show g.definesAt p ≠ some v
        rw [definesAt, hn]
        exact hd
      | succ i => exact hpath i (by omega)
  · rintro ⟨m, node, hstart, hpath, hv⟩
    induction m generalizing node p with
    | zero =>
      subst hstart
      exact live_iff.2 (Or.inl hv)
    | succ m ih =>
      subst hstart
      have hfirst := hpath 0 (by omega)
      refine live_iff.2 (Or.inr ⟨hfirst.2, node 1, hfirst.1, ?_⟩)
      exact ih (fun i => node (i + 1)) rfl (fun i hi => hpath (i + 1) (by omega)) hv

/-! ## The sweeps of the analysis -/

/-- Sweeping without any limit stops at a sweep that changes nothing; the sweeps are counted, this
one included. -/
inductive ComesToRest : FlowGraph → Nat → FlowGraph → Prop
  | rest {g : FlowGraph} (heq : g.sweep = g) : ComesToRest g 1 g
  | more {g h : FlowGraph} {n : Nat} (hne : g.sweep ≠ g) (later : ComesToRest g.sweep n h) :
      ComesToRest g (n + 1) h

theorem ComesToRest.sweep_eq {g h : FlowGraph} {n : Nat} (hrun : ComesToRest g n h) :
    h.sweep = h := by
  induction hrun with
  | rest heq => exact heq
  | more _ _ ih => exact ih

/-- **Run lemma.**  Sweeps that have covered paths of `k` nodes come to rest before the limit is
reached, and after no more sweeps than there are nodes and two. -/
theorem comesToRest_settle (limit done k : Nat) (g : FlowGraph) (hg : g.Sound) (hk : g.Covers k)
    (hrest : g.size < k → ∀ p, g.Settled p) (hle : k ≤ g.size + 1)
    (hlimit : g.size + 1 < limit + k) :
    ∃ n, (settle limit done g).1 = done + n ∧ ComesToRest g n (settle limit done g).2 ∧
      n + k ≤ g.size + 2 := by
  induction limit generalizing done k g with
  | zero => omega
  | succ limit ih =>
    rw [settle]
    split
    · rename_i heq
      exact ⟨1, rfl, .rest heq, by omega⟩
    · rename_i hne
      -- a graph whose paths have all been covered would be at rest
      have hlt : k ≤ g.size := by
        by_contra hgt
        exact hne (sweep_eq_self.2 (hrest (by omega)))
      have hsize : g.sweep.size = g.size := (sameShape_sweep g).size_eq.symm
      obtain ⟨n, hn, hrun, hbound⟩ := ih (done + 1) (k + 1) g.sweep (hg.foldr_visit g.ids) hk.sweep
        (fun h => (hg.exact hk (by omega)).settled_sweep) (by omega) (by omega)
      refine ⟨n + 1, by omega, .more hne hrun, by omega⟩

theorem analyze_of_sweep_eq {g : FlowGraph} (h : g.sweep = g) : g.analyze = (1, g) := by
  have hpos : ∃ limit, g.sweepLimit = limit + 1 := ⟨_, rfl⟩
  obtain ⟨limit, hlimit⟩ := hpos
  rw [analyze, hlimit, settle, if_pos h]

/-! ## The analysis -/

/-- The analysis of a graph comes to rest by itself, and in the least solution. -/
structure Analyzed (g : FlowGraph) : Prop where
  comesToRest : ComesToRest g g.analyze.1 g.analyze.2
  sweeps_le : g.analyze.1 ≤ g.size + 2
  /-- Nothing but live sets changes. -/
  sameShape : SameShape g g.analyze.2
  liveIn_iff : ∀ p v, v ∈ g.analyze.2.liveIn p ↔ g.UsedOnPath v p
  liveOut_iff : ∀ p v, v ∈ g.analyze.2.liveOut p ↔
    g.definesAt p = some v ∨ ∃ q ∈ g.succ p, v ∈ g.analyze.2.liveIn q
  /-- A second analysis finds nothing to do. -/
  again : g.analyze.2.analyze = (1, g.analyze.2)

theorem SameShape.definesAt_eq {g h : FlowGraph} (hgh : SameShape g h) (p : Nat) :
    h.definesAt p = g.definesAt p := by
  have hval := hgh.val_eq p
  rw [definesAt, definesAt]
  cases hg : g.val? p <;> cases hh : h.val? p <;> simp_all [shape]

theorem Sound.analyzed {g : FlowGraph} (hg : g.Sound) : g.Analyzed := by
  obtain ⟨hsolved, hshape⟩ := solved_analyze hg
  obtain ⟨n, hn, hrun, hbound⟩ := comesToRest_settle g.sweepLimit 0 0 g hg
    (fun _ _ h => h.elim) (fun h => absurd h (Nat.not_lt_zero _)) (Nat.zero_le _)
    (by rw [sweepLimit]; nlinarith)
  obtain rfl : g.analyze.1 = n := hn.trans (Nat.zero_add n)
  refine ⟨hrun, hbound, hshape, fun p v => ?_, fun p v => ?_, analyze_of_sweep_eq hrun.sweep_eq⟩
  · rw [hsolved.liveIn_iff, ← live_iff_usedOnPath]
    exact ⟨hshape.symm.live, hshape.live⟩
  · rw [hsolved.liveOut_iff, ← hshape.succ_eq]
    constructor
    · rintro ⟨n, hn, hor⟩
      rw [← hshape.definesAt_eq, definesAt, hn]
      exact hor
    · intro hor
      rw [← hshape.definesAt_eq, definesAt, hshape.succ_eq] at hor
      cases hp : g.analyze.2.val? p with
      | none =>
        rw [hp, succ_of_val?_eq_none hp] at hor
        rcases hor with h | ⟨q, hq, -⟩
        · exact absurd h (by simp)
        · exact absurd hq (IdSet.not_mem_empty q)
      | some n =>
        rw [hp, ← hshape.succ_eq] at hor
        exact ⟨n, rfl, hor⟩

/-- Edges change no values. -/
theorem val?_linkAll {g h : FlowGraph} {edges : List (Nat × Nat)} {news : List Bool}
    (hrun : g.linkAll edges = .ok (news, h)) (p : Nat) : h.val? p = g.val? p := by
  induction edges generalizing g news with
  | nil =>
    obtain ⟨-, rfl⟩ := Prod.mk.inj (Except.ok.inj hrun)
    rfl
  | cons e edges ih =>
    obtain ⟨⟨new, g₁⟩, hlink, hrun⟩ := bind_eq_ok_iff.1 hrun
    obtain ⟨⟨news', g₂⟩, hrest, hrun⟩ := bind_eq_ok_iff.1 hrun
    obtain ⟨-, rfl⟩ := Prod.mk.inj (Except.ok.inj hrun)
    rw [Digraph.link] at hlink
    split_ifs at hlink
    obtain ⟨-, rfl⟩ := Prod.mk.inj (Except.ok.inj hlink)
    rw [ih hrest, Digraph.val?_addEdge]

/-- What comes out of a list of runs comes out of one of them. -/
theorem exists_of_mem_mapM {α β : Type} {f : α → Except Fault β} {xs : List α} {ys : List β}
    (h : xs.mapM f = .ok ys) {y : β} (hy : y ∈ ys) : ∃ x ∈ xs, f x = .ok y := by
  induction xs generalizing ys with
  | nil =>
    obtain rfl := Except.ok.inj h
    exact absurd hy List.not_mem_nil
  | cons x xs ih =>
    rw [List.mapM_cons] at h
    obtain ⟨z, hz, h⟩ := bind_eq_ok_iff.1 h
    obtain ⟨zs, hzs, h⟩ := bind_eq_ok_iff.1 h
    obtain rfl := Except.ok.inj h
    rcases List.mem_cons.1 hy with rfl | hy
    · exact ⟨x, List.mem_cons_self, hz⟩
    · obtain ⟨x', hx', hfx⟩ := ih hzs hy
      exact ⟨x', List.mem_cons_of_mem x hx', hfx⟩

/-- A graph fresh from a body has no live variables yet. -/
theorem liveIn_ofBody {b : Body} {s : Storage} {g : FlowGraph} (h : ofBody b s = .ok g) (p : Nat) :
    g.liveIn p = ∅ := by
  obtain ⟨nodes, falls, news, targets, news', hnodes, hlink, hg⟩ := exists_linkAll h
  have hval : g.val? p = nodes[p]? := by
    rw [val?_linkAll hg, val?_linkAll hlink, Digraph.val?_ofVals]
  rw [liveIn, hval]
  cases hp : nodes[p]? with
  | none => rfl
  | some n =>
    obtain ⟨e, -, he⟩ := exists_of_mem_mapM hnodes (List.mem_of_getElem? hp)
    obtain ⟨defines, -, he⟩ := bind_eq_ok_iff.1 he
    obtain ⟨uses, -, he⟩ := bind_eq_ok_iff.1 he
    obtain rfl := Except.ok.inj he
    rfl

/-- **Liveness is exact.**  From live sets inside the least solution of the flow equations, and in
particular from the empty ones of a graph fresh from a body, the sweeps of the analysis come to rest
by themselves.  Then a variable is live on entry to a node exactly if a path leads from there to a
node that reads it, past no node that writes it; live on exit is what the node writes and what is
live on entry to the nodes that follow. -/
theorem analyzed_of_le_least (g : FlowGraph) :
    (∀ low, IsLeast {live | g.Solves live} low → (∀ p, ∀ v ∈ g.liveIn p, v ∈ low.1 p) →
      g.Analyzed) ∧
    ∀ b s, ofBody b s = .ok g → g.Analyzed := by
  constructor
  · intro low hlow hg
    rw [hlow.unique g.isLeast_least] at hg
    exact Sound.analyzed hg
  · intro b s h
    exact (sound_of_liveIn_eq_empty (liveIn_ofBody h)).analyzed

/-- Control goes in a circle against the order of the nodes.  The first node reads variable 7, which
is noted to be live at the last node only. -/
def circle : FlowGraph where
  vertices := #[
    { val := { instr := 0, defines := some 3, uses := .singleton 7 }, succ := .singleton 2,
      pred := .singleton 1 },
    { val := { instr := 1 }, succ := .singleton 0, pred := .singleton 2 },
    { val := { instr := 2, liveIn := .singleton 7 }, succ := .singleton 1, pred := .singleton 0 }]

/-- A body that computes a value and prints it. -/
def printing : Body := .ofStore #[{ op := .int 1 }, { op := .print 0 }]

/-- The first sweep over the circle forgets that variable 7 is live at the last node, and later ones
find it again.  The graph of a body starts with nothing. -/
theorem analyzed_circle :
    ((∀ p, ∀ v ∈ circle.liveIn p, v ∈ circle.least.1 p) ∧ 7 ∈ circle.liveIn 2 ∧
      7 ∉ circle.sweep.liveIn 2 ∧ circle.analyze.1 = 4 ∧ circle.Analyzed) ∧
    ∃ g, ofBody printing (.singletons printing) = .ok g ∧ g.Analyzed := by
  have hlow : ∀ p, ∀ v ∈ circle.liveIn p, v ∈ circle.least.1 p := by
    intro p v hv
    rcases p with _ | _ | _ | p
    · exact absurd hv (IdSet.not_mem_empty v)
    · exact absurd hv (IdSet.not_mem_empty v)
    · obtain rfl : v = 7 := IdSet.mem_singleton.1 hv
      have hzero : circle.Live 7 0 := .use rfl (IdSet.mem_singleton.2 rfl)
      have hone : circle.Live 7 1 := .pass rfl (by decide) (IdSet.mem_singleton.2 rfl) hzero
      exact .pass rfl (by decide) (IdSet.mem_singleton.2 rfl) hone
    · exact absurd hv (IdSet.not_mem_empty v)
  have hbody : (ofBody printing (.singletons printing)).toOption.any (fun _ => true) = true := by
    decide +kernel
  obtain ⟨g, hg, -⟩ := exists_ok_of_any hbody
  exact ⟨⟨hlow, by decide, by decide, by decide +kernel,
    (analyzed_of_le_least circle).1 _ circle.isLeast_least hlow⟩,
    g, hg, (analyzed_of_le_least g).2 _ _ hg⟩

end Backend.FlowGraph
