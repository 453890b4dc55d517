/-
# Only cores are spilled

A set of variables each of which has at least `k` neighbours in the set is a core
(`Interference.Core`): whoever removes variables with fewer neighbours, one after the other, never
gets at it.  Taking a graph apart meets a core wherever it removes a node in doubt, and any other
node without a pin has fewer than `k` neighbours that are removed after it (`Working.Guarded`).
These come first when registers are handed out, so the node finds one left, and without pins only
members of cores are spilled (`Interference.core_of_mem_spills`).
-/
import Mathlib
import Backend.Proofs.PinnedColoring

namespace Backend

namespace Coloring

/-! ## Degrees within a list of nodes -/

/-- The number of neighbours that a node has in a list. -/
def degreeIn (g : Interference) (ys : List Nat) (x : Nat) : Nat :=
  ((g.adj x).filter (· ∈ ys)).size

theorem degreeIn_mono {g : Interference} {ys zs : List Nat} (h : ∀ y ∈ ys, y ∈ zs) (x : Nat) :
    degreeIn g ys x ≤ degreeIn g zs x := by
  apply List.Sublist.length_le
  apply List.monotone_filter_right
  intro y hy
  exact decide_eq_true (h y (of_decide_eq_true hy))

namespace Working

variable {g : Interference} {k : Nat} {w : Working}

/-- The degree of a node that is left is its degree among the nodes that are left. -/
theorem Faithful.degreeOf_eq_degreeIn (hw : w.Faithful g) (hirr : g.Irreflexive) {x : Nat}
    (hx : x ∈ w.remaining) : w.degreeOf x = degreeIn g w.remaining x := by
  rw [hw.degreeOf_eq, degreeIn]
  congr 1
  apply IdSet.ext
  intro y
  rw [hw.mem_adjacentTo, IdSet.mem_filter, decide_eq_true_eq]
  constructor
  · rintro ⟨-, hy, hadj, -⟩
    exact ⟨hadj, hy⟩
  · rintro ⟨hadj, hy⟩
    refine ⟨hx, hy, hadj, ?_⟩
    rintro rfl
    exact hirr y hadj

/-! ## What removals guarantee -/

/-- The removals so far: a node removed in doubt was in a core then, and any other node without a
pin has fewer than `k` neighbours among those removed after it and those that are left. -/
structure Guarded (g : Interference) (k : Nat) (w : Working) : Prop where
  doubtful : ∀ x ∈ w.doubtful, ∃ ys : List Nat, x ∈ ys ∧ ∀ y ∈ ys, y < g.size ∧ k ≤ degreeIn g ys y
  safe : ∀ later x earlier, w.stack = later ++ x :: earlier → x ∉ w.doubtful →
    pinOf g k x = none → degreeIn g (later ++ w.remaining) x < k

theorem doubtful_foldl_detach (removed : Nat) (ids : List Nat) (w : Working) :
    (ids.foldl (detach removed) w).doubtful = w.doubtful := by
  induction ids generalizing w with
  | nil => rfl
  | cons id ids ih =>
    rw [List.foldl_cons, ih, detach]
    split <;> rfl

theorem doubtful_remove (w : Working) (id : Nat) : (w.remove id).doubtful = w.doubtful :=
  doubtful_foldl_detach id (w.adjacentTo id).toList _

/-- **Step lemma.**  A node may be removed if it has few neighbours left, is pinned, or is in
doubt. -/
theorem Guarded.remove (hw : w.Guarded g k) {id : Nat} (hid : id ∈ w.remaining)
    (h : degreeIn g w.remaining id < k ∨ pinOf g k id ≠ none ∨ id ∈ w.doubtful) :
    (w.remove id).Guarded g k := by
  have hleft : ∀ y ∈ (w.remove id).remaining, y ∈ w.remaining := by
    intro y hy
    rw [remaining_remove] at hy
    exact (List.mem_filter.1 hy).1
  refine ⟨by rw [doubtful_remove]; exact hw.doubtful, fun later x earlier hstack hx hpin => ?_⟩
  rw [doubtful_remove] at hx
  rw [stack_remove] at hstack
  cases later with
  | nil =>
    obtain rfl : id = x := (List.cons.inj hstack).1
    have hlt := (h.resolve_right fun h => h.elim (· hpin) (hx ·))
    exact lt_of_le_of_lt (degreeIn_mono hleft id) hlt
  | cons y later =>
    -- the removed node has moved from the nodes that are left to those removed later
    obtain ⟨rfl, htail⟩ := List.cons.inj hstack
    refine lt_of_le_of_lt (degreeIn_mono (fun z hz => ?_) x) (hw.safe later x earlier htail hx hpin)
    rw [List.cons_append, List.mem_cons, List.mem_append] at hz
    rw [List.mem_append]
    rcases hz with rfl | hz | hz
    · exact Or.inr hid
    · exact Or.inl hz
    · exact Or.inr (hleft z hz)

theorem Guarded.foldl_remove (hw : w.Guarded g k) {ids : List Nat} (hnodup : ids.Nodup)
    (hids : ∀ id ∈ ids, id ∈ w.remaining) (hpin : ∀ id ∈ ids, pinOf g k id ≠ none) :
    (ids.foldl Working.remove w).Guarded g k := by
  induction ids generalizing w with
  | nil => exact hw
  | cons id ids ih =>
    rw [List.nodup_cons] at hnodup
    refine ih (hw.remove (hids id List.mem_cons_self)
      (Or.inr (Or.inl (hpin id List.mem_cons_self)))) hnodup.2 (fun x hx => ?_)
      fun x hx => hpin x (List.mem_cons_of_mem id hx)
    rw [remaining_remove, List.mem_filter, bne_iff_ne]
    refine ⟨hids x (List.mem_cons_of_mem id hx), ?_⟩
    rintro rfl
    exact hnodup.1 hx

/-- Doubt is noted only when all nodes that are left have many neighbours left. -/
theorem Guarded.doubt (hw : w.Guarded g k) (hcomplete : w.Complete g) {id : Nat}
    (hid : id ∈ w.remaining) (hall : ∀ y ∈ w.remaining, k ≤ degreeIn g w.remaining y) :
    (w.doubt id).Guarded g k := by
  refine ⟨fun x hx => ?_, fun later x earlier hstack hx hpin => ?_⟩
  · rcases List.mem_append.1 hx with hx | hx
    · exact hw.doubtful x hx
    · obtain rfl := List.mem_singleton.1 hx
      exact ⟨w.remaining, hid, fun y hy => ⟨(hcomplete y).1 (Or.inr hy), hall y hy⟩⟩
  · exact hw.safe later x earlier hstack (fun h => hx (List.mem_append_left _ h)) hpin

/-- **Step lemma** for the steps that take the graph apart. -/
theorem Guarded.step (hw : w.Guarded g k) (hf : w.Faithful g) (hirr : g.Irreflexive) :
    (w.step g k).Guarded g k := by
  rcases step_cases g k w with ⟨-, heq⟩ | ⟨id, hid, ⟨heq, hfew | hpin⟩ | ⟨heq, -, hmany⟩⟩
  · rw [heq]
    exact hw
  · rw [hf.degreeOf_eq_degreeIn hirr hid] at hfew
    rw [heq]
    exact hw.remove hid (Or.inl hfew)
  · rw [heq]
    exact hw.remove hid (Or.inr (Or.inl hpin))
  · have hcore : ∀ y ∈ w.remaining, k ≤ degreeIn g w.remaining y := by
      intro y hy
      rw [← hf.degreeOf_eq_degreeIn hirr hy]
      exact hmany y hy
    rw [heq]
    exact (hw.doubt hf.complete hid hcore).remove hid
      (Or.inr (Or.inr (List.mem_append_right _ (List.mem_singleton_self id))))

/-- **Run lemma** for the steps that take the graph apart. -/
theorem Guarded.steps (hw : w.Guarded g k) (hf : w.Faithful g) (hsym : g.Symmetric)
    (hirr : g.Irreflexive) (n : Nat) : (Working.steps g k n w).Guarded g k := by
  induction n generalizing w with
  | zero => exact hw
  | succ n ih => exact ih (hw.step hf hirr) (hf.step hsym)

theorem guarded_dismantle (hsym : g.Symmetric) (hirr : g.Irreflexive) (k : Nat) :
    (dismantle g k).Guarded g k := by
  have hstart : (ofGraph g).Guarded g k :=
    ⟨fun x hx => absurd hx List.not_mem_nil,
      fun later x earlier hstack => absurd hstack (by simp [ofGraph])⟩
  refine (hstart.foldl_remove (List.nodup_range.filter _) (fun x hx => (List.mem_filter.1 hx).1)
    fun x hx => ?_).steps (faithful_removeEasyPins hsym k) hsym hirr _
  have hpin := (List.mem_filter.1 hx).2
  rw [Bool.and_eq_true] at hpin
  exact Option.isSome_iff_ne_none.1 hpin.1

end Working

/-! ## Handing out registers without pins -/

namespace Selection

variable {g : Interference} {k : Nat} {s : Selection}

theorem length_usedAround_le {ys : List Nat} (hs : ∀ y, s.colorOf y ≠ none → y ∈ ys) (x : Nat) :
    (s.usedAround g x).length ≤ degreeIn g ys x := by
  show (List.filterMap s.colorOf (g.adj x).toList).length ≤
    (List.filter (fun y => decide (y ∈ ys)) (g.adj x).toList).length
  rw [List.length_filterMap_eq_countP, ← List.countP_eq_length_filter]
  apply List.countP_mono_left
  intro y _ hy
  exact decide_eq_true (hs y (Option.isSome_iff_ne_none.1 hy))

/-- **Run lemma.**  Nodes of which each has few neighbours among those placed before it all find a
register. -/
theorem spilled_foldl_placeFree (placed : List Nat) {ids : List Nat}
    (hs : ∀ y, s.colorOf y ≠ none → y ∈ placed)
    (hids : ∀ before x after, ids = before ++ x :: after →
      degreeIn g (placed ++ before) x < k) :
    (ids.foldl (placeFree g k []) s).spilled = s.spilled := by
  induction ids generalizing s placed with
  | nil => rfl
  | cons x ids ih =>
    have hfew : (s.usedAround g x).length < k := by
      have hlt := hids [] x ids rfl
      rw [List.append_nil] at hlt
      exact lt_of_le_of_lt (length_usedAround_le hs x) hlt
    cases hfree : lowestFree k ([] ++ s.usedAround g x) with
    | none =>
      have hle := le_length_of_forall_mem (lowestFree_eq_none_iff.1 hfree)
      rw [List.nil_append] at hle
      omega
    | some r =>
      have hplace : s.placeFree g k [] x = s.assign x r := by rw [placeFree, hfree]
      rw [List.foldl_cons, hplace]
      refine ih (placed ++ [x]) (fun y hy => ?_) fun before z after heq => ?_
      · by_cases hyx : y = x
        · exact List.mem_append_right _ (List.mem_singleton.2 hyx)
        · rw [colorOf_assign_of_ne hyx] at hy
          exact List.mem_append_left _ (hs y hy)
      · have hlt := hids (x :: before) z after (by rw [heq, List.cons_append])
        rwa [List.append_assoc, List.singleton_append]

end Selection

variable {g : Interference} {k : Nat}

/-- The nodes that get their registers first have few neighbours among those before them. -/
theorem degreeIn_before_lt (hsym : g.Symmetric) (hirr : g.Irreflexive) {before after : List Nat}
    {x : Nat} (h : ((Working.dismantle g k).stack.filter fun id => (pinOf g k id).isNone).filter
      (· ∉ (Working.dismantle g k).doubtful) = before ++ x :: after) :
    degreeIn g before x < k := by
  have hguarded := Working.guarded_dismantle hsym hirr k
  rw [List.filter_filter, List.filter_eq_append_iff] at h
  obtain ⟨later, rest, hstack, hbefore, hrest⟩ := h
  obtain ⟨skipped, earlier, rfl, -, hx, -⟩ := List.filter_eq_cons_iff.1 hrest
  rw [Bool.and_eq_true, decide_eq_true_eq, Option.isNone_iff_eq_none] at hx
  have hlt := hguarded.safe (later ++ skipped) x earlier (by rw [hstack, List.append_assoc])
    hx.1 hx.2
  refine lt_of_le_of_lt (degreeIn_mono (fun y hy => ?_) x) hlt
  rw [← hbefore] at hy
  exact List.mem_append_left _ (List.mem_append_left _ (List.mem_filter.1 hy).1)

/-- **Without pins only nodes in doubt are spilled.** -/
theorem mem_doubtful_of_mem_spilled (hsym : g.Symmetric) (hirr : g.Irreflexive)
    (hpins : ∀ x, pinOf g k x = none) {x : Nat}
    (hx : x ∈ (select g k (Working.dismantle g k)).spilled) :
    x ∈ (Working.dismantle g k).doubtful := by
  have hnone : pins g k = [] := by
    rw [pins, List.filterMap_eq_nil_iff]
    intro y _
    rw [hpins y]
    rfl
  rw [select, hnone, freeOrder, List.foldl_append] at hx
  by_contra hnot
  -- the nodes in doubt come last, and before them none is spilled
  rw [(Selection.foldl_placeFree_of_notMem fun h =>
    hnot (of_decide_eq_true (List.mem_filter.1 h).2)).2] at hx
  rw [List.map_nil, List.reverse_nil, List.foldl_nil,
    Selection.spilled_foldl_placeFree []
      (fun y hy => absurd (colorOf_start g.size y) hy)
      fun before y after h => degreeIn_before_lt hsym hirr h] at hx
  exact List.not_mem_nil hx

end Coloring

/-! ## Cores -/

namespace Interference

/-- The number of variables of a set that interfere with a variable. -/
def degreeWithin (g : Interference) (vs : Finset Nat) (v : Nat) : Nat :=
  (vs.filter fun w => g.interferes v w = true).card

/-- Each variable of the set is in the graph and interferes with at least `k` variables of the
set. -/
def Core (g : Interference) (k : Nat) (vs : Finset Nat) : Prop :=
  ∀ v ∈ vs, (∃ x, g.var? x = some v) ∧ k ≤ g.degreeWithin vs v

variable {f : FlowGraph} {cs : Candidates} {k : Nat}

theorem exists_var? {g : Interference} {x : Nat} (h : x < g.size) : ∃ v, g.var? x = some v := by
  rw [var?, Digraph.val?, Array.getElem?_eq_getElem h]
  exact ⟨_, rfl⟩

/-- The variables at nodes that have many neighbours among each other are a core. -/
theorem core_toFinset {ys : List Nat}
    (hys : ∀ y ∈ ys, y < (build f cs).size ∧ k ≤ Coloring.degreeIn (build f cs) ys y) :
    (build f cs).Core k (ys.filterMap (build f cs).var?).toFinset := by
  intro v hv
  obtain ⟨y, hy, hvar⟩ := List.mem_filterMap.1 (List.mem_toFinset.1 hv)
  refine ⟨⟨y, hvar⟩, le_trans (hys y hy).2 ?_⟩
  set near := ((build f cs).adj y).filter (· ∈ ys)
  have hcard : Coloring.degreeIn (build f cs) ys y = near.toList.toFinset.card :=
    (List.toFinset_card_of_nodup near.nodup_toList).symm
  have hval : ∀ z ∈ near, ∃ w, (build f cs).var? z = some w := fun z hz =>
    exists_var? (hys z (of_decide_eq_true (IdSet.mem_filter.1 hz).2)).1
  rw [hcard]
  -- neighbours are counted by their variables, which are different
  refine Finset.card_le_card_of_injOn (fun z => ((build f cs).var? z).getD 0) ?_ ?_
  · intro z hz
    have hz := List.mem_toFinset.1 hz
    obtain ⟨w, hw⟩ := hval z hz
    obtain ⟨hadj, hmem⟩ := IdSet.mem_filter.1 hz
    simp only [hw, Option.getD_some]
    rw [Finset.mem_coe, Finset.mem_filter, List.mem_toFinset, List.mem_filterMap]
    exact ⟨⟨z, of_decide_eq_true hmem, hw⟩, interferes_build.2 ⟨y, z, hvar, hw, hadj⟩⟩
  · intro z hz z' hz' heq
    obtain ⟨w, hw⟩ := hval z (List.mem_toFinset.1 hz)
    obtain ⟨w', hw'⟩ := hval z' (List.mem_toFinset.1 hz')
    simp only [hw, hw', Option.getD_some] at heq
    exact var?_injective hw (heq ▸ hw')

/-- **Without pins only members of cores are spilled.**  So if every set of variables has a member
with fewer than `k` neighbours in the set, `k` registers are enough. -/
theorem core_of_mem_spills (f : FlowGraph) (cs : Candidates) (k : Nat)
    (hpins : ∀ x d r, (build f cs).val? x = some d → d.pin = some r → k ≤ r) :
    (∀ v ∈ ((build f cs).color k).spills, ∃ vs, v ∈ vs ∧ (build f cs).Core k vs) ∧
      ((∀ vs : Finset Nat, vs.Nonempty → (∀ v ∈ vs, ∃ x, (build f cs).var? x = some v) →
          ∃ v ∈ vs, (build f cs).degreeWithin vs v < k) →
        ((build f cs).color k).spills = []) := by
  have hsym := symmetric_build f cs
  have hirr := irreflexive_build f cs
  have hnone : ∀ x, Coloring.pinOf (build f cs) k x = none := by
    intro x
    rw [Option.eq_none_iff_forall_ne_some]
    intro r hr
    obtain ⟨d, hd, hpin, hlt⟩ := Coloring.pinOf_eq_some_iff.1 hr
    exact absurd (hpins x d r hd hpin) (not_le.2 hlt)
  have hcore : ∀ v ∈ ((build f cs).color k).spills,
      ∃ vs, v ∈ vs ∧ (build f cs).Core k vs := by
    intro v hv
    obtain ⟨x, hx, hspilled⟩ := mem_spills_color.1 hv
    obtain ⟨ys, hxs, hys⟩ := (Coloring.Working.guarded_dismantle hsym hirr k).doubtful x
      (Coloring.mem_doubtful_of_mem_spilled hsym hirr hnone hspilled)
    exact ⟨_, List.mem_toFinset.2 (List.mem_filterMap.2 ⟨x, hxs, hx⟩), core_toFinset hys⟩
  refine ⟨hcore, fun hsparse => List.eq_nil_iff_forall_not_mem.2 fun v hv => ?_⟩
  obtain ⟨vs, hvs, hvsCore⟩ := hcore v hv
  obtain ⟨w, hw, hlt⟩ := hsparse vs ⟨v, hvs⟩ fun w hw => (hvsCore w hw).1
  exact absurd (hvsCore w hw).2 (not_le.2 hlt)

/-- Variables 0, 1 and 2 are live together, and so are 2 and 3. -/
def kite : FlowGraph where
  vertices := #[{ val := { instr := 0, liveIn := .ofList [0, 1, 2], liveOut := .ofList [2, 3] } }]

/-- Variable 3 is pinned to a register out of reach. -/
def kiteVars : Candidates :=
  .ofList [{ var := 0 }, { var := 1 }, { var := 2 }, { var := 3, pin := some 7 }]

/-- With two registers, one of the three variables that are live together is spilled; three
registers are enough. -/
theorem core_of_mem_spills_kite :
    (∀ x d r, (build kite kiteVars).val? x = some d → d.pin = some r → 3 ≤ r) ∧
    ((build kite kiteVars).color 2).spills = [0] ∧
    (∃ vs, 0 ∈ vs ∧ (build kite kiteVars).Core 2 vs) ∧
    ((build kite kiteVars).color 3).spills = [] := by
  have hpins : ∀ x d r, (build kite kiteVars).val? x = some d → d.pin = some r → 3 ≤ r := by
    intro x d r hd hpin
    rw [val?_build] at hd
    have hall : ∀ c ∈ kiteVars.toList, ∀ q ∈ c.pin, 3 ≤ q := by decide
    exact hall d (List.mem_of_getElem? hd) r hpin
  have hvars : ∀ v, (∃ x, (build kite kiteVars).var? x = some v) → v ∈ Finset.range 4 := by
    rintro v ⟨x, hx⟩
    obtain ⟨d, hd, rfl⟩ := Option.map_eq_some_iff.1 hx
    rw [val?_build] at hd
    have hall : ∀ c ∈ kiteVars.toList, c.var ∈ Finset.range 4 := by decide
    exact hall d (List.mem_of_getElem? hd)
  have hsparse : ∀ vs ∈ (Finset.range 4).powerset, vs.Nonempty →
      ∃ v ∈ vs, (build kite kiteVars).degreeWithin vs v < 3 := by decide +kernel
  have hspills : ((build kite kiteVars).color 2).spills = [0] := by decide +kernel
  refine ⟨hpins, hspills, ?_, ?_⟩
  · refine (core_of_mem_spills kite kiteVars 2 fun x d r hd hpin => ?_).1 0 ?_
    · exact Nat.le_of_succ_le (hpins x d r hd hpin)
    · rw [hspills]
      exact List.mem_singleton_self 0
  · refine (core_of_mem_spills kite kiteVars 3 hpins).2 fun vs hne hvs => ?_
    exact hsparse vs (Finset.mem_powerset.2 fun v hv => hvars v (hvs v hv)) hne

end Interference

end Backend
