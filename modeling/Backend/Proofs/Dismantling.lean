/-
# Working graphs are faithful

A graph is taken apart on copies of its neighbour sets and with running counts of neighbours.
Between any two removals these are what they should be (`Working.Faithful`): every node has been
removed once or is left, and the neighbours and the degree noted for a node that is left are those
among the nodes that are left.  Counted by removals (`Working.after`), a graph is consistent behind
each of them and while one is under way, no count falls below zero, and nothing is left behind the
last one (`Interference.consistent_after`).
-/
import Mathlib
import Backend.Proofs.Coloring

namespace Backend

/-! ## Neighbours -/

namespace IdSet

/-- Erasing an element makes a set smaller by one. -/
theorem size_erase_of_mem {s : IdSet} {a : Nat} (h : a ∈ s) : (s.erase a).size = s.size - 1 :=
  List.length_erase_of_mem h

theorem erase_of_notMem {s : IdSet} {a : Nat} (h : a ∉ s) : s.erase a = s := by
  apply ext
  intro x
  rw [mem_erase, and_iff_left_iff_imp]
  rintro hx rfl
  exact h hx

theorem erase_erase (s : IdSet) (a : Nat) : (s.erase a).erase a = s.erase a := by
  apply erase_of_notMem
  rw [mem_erase]
  exact fun h => h.2 rfl

end IdSet

/-- Where being neighbours is mutual, neighbours are nodes. -/
theorem Interference.Symmetric.lt_size {g : Interference} (hsym : g.Symmetric) {x y : Nat}
    (h : y ∈ g.adj x) : y < g.size := by
  by_contra hge
  have hnone : g.vertices[y]? = none := Array.getElem?_eq_none (not_lt.1 hge)
  have hx := hsym x y h
  rw [Digraph.mem_adj, Digraph.succ, Digraph.pred, hnone] at hx
  rcases hx with hx | hx <;> exact absurd hx (IdSet.not_mem_empty x)

namespace Coloring.Working

variable {g : Interference} {k : Nat} {w : Working}

/-! ## What a removal does to one node -/

/-- The neighbours after a node has been taken off those of another one. -/
theorem adjacentTo_detach (removed : Nat) (w : Working) (id x : Nat) :
    (detach removed w id).adjacentTo x =
      if x = id then (w.adjacentTo x).erase removed else w.adjacentTo x := by
  unfold detach
  split
  · rename_i hmem
    simp only [adjacentTo, Array.getD_eq_getD_getElem?, Array.getElem?_modify]
    by_cases hx : x = id
    · subst hx
      rw [if_pos rfl, if_pos rfl]
      cases w.adjacent[x]? <;> rfl
    · rw [if_neg (Ne.symm hx), if_neg hx]
  · rename_i hmem
    by_cases hx : x = id
    · subst hx
      rw [if_pos rfl, IdSet.erase_of_notMem hmem]
    · rw [if_neg hx]

/-- The degree goes down with the neighbours. -/
theorem degreeOf_detach {removed id x : Nat} (h : w.degreeOf x = (w.adjacentTo x).size) :
    (detach removed w id).degreeOf x = ((detach removed w id).adjacentTo x).size := by
  rw [adjacentTo_detach]
  unfold detach
  split
  · rename_i hmem
    by_cases hx : x = id
    · subst hx
      rw [if_pos rfl, IdSet.size_erase_of_mem hmem, ← h]
      simp only [degreeOf, Array.getD_eq_getD_getElem?, Array.getElem?_modify, if_true]
      cases w.degree[x]? <;> rfl
    · rw [if_neg hx, ← h]
      simp only [degreeOf, Array.getD_eq_getD_getElem?, Array.getElem?_modify]
      rw [if_neg (Ne.symm hx)]
  · rename_i hmem
    by_cases hx : x = id
    · subst hx
      rw [if_pos rfl, IdSet.erase_of_notMem hmem, h]
    · rw [if_neg hx, h]

/-- The neighbours after a node has been taken off those of several others. -/
theorem adjacentTo_foldl_detach (removed : Nat) (ids : List Nat) (w : Working) (x : Nat) :
    (ids.foldl (detach removed) w).adjacentTo x =
      if x ∈ ids then (w.adjacentTo x).erase removed else w.adjacentTo x := by
  induction ids generalizing w with
  | nil => rfl
  | cons id ids ih =>
    rw [List.foldl_cons, ih, adjacentTo_detach]
    by_cases hx : x = id
    · subst hx
      rw [if_pos rfl, if_pos List.mem_cons_self, IdSet.erase_erase, ite_self]
    · rw [if_neg hx]
      simp only [List.mem_cons, hx, false_or]

/-- The counted degree follows the neighbours when a node is taken off. -/
theorem degreeOf_foldl_detach {removed x : Nat} (ids : List Nat)
    (h : w.degreeOf x = (w.adjacentTo x).size) :
    (ids.foldl (detach removed) w).degreeOf x =
      ((ids.foldl (detach removed) w).adjacentTo x).size := by
  induction ids generalizing w with
  | nil => exact h
  | cons id ids ih => exact ih (degreeOf_detach h)

/-- The working graph while a node is being removed and has been taken away from the listed ones of
its neighbours. -/
def removing (w : Working) (id : Nat) (told : List Nat) : Working :=
  told.foldl (detach id)
    { w with remaining := w.remaining.filter (· != id)
             stack := id :: w.stack
             adjacent := w.adjacent.setIfInBounds id ∅ }

/-- The neighbours after a node has been removed and the listed ones have been told. -/
theorem adjacentTo_removing (w : Working) (id : Nat) (told : List Nat) (x : Nat) :
    (w.removing id told).adjacentTo x =
      if x = id then ∅ else if x ∈ told then (w.adjacentTo x).erase id else w.adjacentTo x := by
  have hstart : ∀ v : Working, v.adjacent = w.adjacent.setIfInBounds id ∅ →
      v.adjacentTo x = if x = id then ∅ else w.adjacentTo x := by
    intro v hv
    rw [adjacentTo, adjacentTo, hv, Array.getD_eq_getD_getElem?, Array.getD_eq_getD_getElem?,
      Array.getElem?_setIfInBounds]
    by_cases hx : x = id
    · subst hx
      rw [if_pos rfl, if_pos rfl]
      split <;> rfl
    · rw [if_neg (Ne.symm hx), if_neg hx]
  rw [removing, adjacentTo_foldl_detach, hstart _ rfl]
  by_cases hx : x = id
  · rw [if_pos hx, if_pos hx, IdSet.erase_of_notMem (IdSet.not_mem_empty id), ite_self]
  · rw [if_neg hx, if_neg hx]

/-- Until the removal is over, the degree of the removed node itself is left as it is. -/
theorem degreeOf_removing {id x : Nat} (h : w.degreeOf x = (w.adjacentTo x).size) (hx : x ≠ id)
    (told : List Nat) :
    (w.removing id told).degreeOf x = ((w.removing id told).adjacentTo x).size := by
  refine degreeOf_foldl_detach told ?_
  show w.degreeOf x = _
  rw [h, adjacentTo, adjacentTo, Array.getD_eq_getD_getElem?, Array.getD_eq_getD_getElem?,
    Array.getElem?_setIfInBounds_ne (Ne.symm hx)]

/-- The neighbours after a node has been removed. -/
theorem adjacentTo_remove (w : Working) (id x : Nat) : (w.remove id).adjacentTo x =
    if x = id then ∅
    else if x ∈ w.adjacentTo id then (w.adjacentTo x).erase id else w.adjacentTo x :=
  w.adjacentTo_removing id (w.adjacentTo id).toList x

/-- The counted degree follows the neighbours when a node is removed. -/
theorem degreeOf_remove {id : Nat} (h : ∀ x, w.degreeOf x = (w.adjacentTo x).size) (x : Nat) :
    (w.remove id).degreeOf x = ((w.remove id).adjacentTo x).size := by
  by_cases hx : x = id
  · rw [adjacentTo_remove, if_pos hx]
    subst hx
    simp only [remove, degreeOf, Array.getD_eq_getD_getElem?, Array.getElem?_setIfInBounds, if_true]
    split <;> rfl
  · have hdegree : (w.remove id).degreeOf x =
        (w.removing id (w.adjacentTo id).toList).degreeOf x := by
      simp only [remove, removing, degreeOf, Array.getD_eq_getD_getElem?]
      rw [Array.getElem?_setIfInBounds_ne (Ne.symm hx)]
    rw [hdegree]
    exact degreeOf_removing (h x) hx _

/-! ## Faithful working graphs -/

/-- The working graph is what is left of a graph. -/
structure Faithful (g : Interference) (w : Working) : Prop where
  nodup : (w.stack ++ w.remaining).Nodup
  complete : w.Complete g
  sorted : w.remaining.Pairwise (· < ·)
  mem_adjacentTo : ∀ x y, y ∈ w.adjacentTo x ↔
    x ∈ w.remaining ∧ y ∈ w.remaining ∧ y ∈ g.adj x ∧ y ≠ x
  degreeOf_eq : ∀ x, w.degreeOf x = (w.adjacentTo x).size

/-- At the beginning the working graph is the graph itself. -/
theorem faithful_ofGraph (hsym : g.Symmetric) : (ofGraph g).Faithful g := by
  have hadj : ∀ x, (ofGraph g).adjacentTo x = (g.adj x).erase x := by
    intro x
    show ((g.ids.toArray.map fun id => (g.adj id).erase id).getD x ∅) = _
    rw [Array.getD_eq_getD_getElem?, Array.getElem?_map, List.getElem?_toArray]
    by_cases hx : x < g.size
    · rw [Digraph.ids, List.getElem?_range hx]
      rfl
    · rw [Digraph.ids, List.getElem?_eq_none (by rw [List.length_range]; omega)]
      apply IdSet.ext
      intro y
      refine ⟨fun h => absurd h (IdSet.not_mem_empty y), fun h => ?_⟩
      exact absurd (hsym.lt_size (hsym x y (IdSet.mem_erase.1 h).1)) hx
  refine ⟨?_, ?_, List.pairwise_lt_range, fun x y => ?_, fun x => ?_⟩
  · exact List.nodup_range
  · intro x
    show x ∈ [] ∨ x ∈ List.range g.size ↔ x < g.size
    rw [List.mem_range, or_iff_right List.not_mem_nil]
  · rw [hadj, IdSet.mem_erase]
    show _ ↔ x ∈ List.range g.size ∧ y ∈ List.range g.size ∧ _
    rw [List.mem_range, List.mem_range]
    exact ⟨fun h => ⟨hsym.lt_size (hsym x y h.1), hsym.lt_size h.1, h⟩, fun h => h.2.2⟩
  · show ((ofGraph g).adjacent.map (·.size)).getD x 0 = ((ofGraph g).adjacent.getD x ∅).size
    rw [Array.getD_eq_getD_getElem?, Array.getD_eq_getD_getElem?, Array.getElem?_map]
    cases (ofGraph g).adjacent[x]? <;> rfl

/-- **Step lemma.**  Removing a node that is left leaves a faithful working graph. -/
theorem Faithful.remove (hw : w.Faithful g) (hsym : g.Symmetric) {id : Nat}
    (hid : id ∈ w.remaining) : (w.remove id).Faithful g := by
  obtain ⟨hstack, hremaining, hdisj⟩ := List.nodup_append.1 hw.nodup
  refine ⟨?_, hw.complete.remove ((hw.complete id).1 (Or.inr hid)), ?_, fun x y => ?_,
    degreeOf_remove hw.degreeOf_eq⟩
  · rw [stack_remove, remaining_remove, List.nodup_append]
    refine ⟨List.nodup_cons.2 ⟨fun h => hdisj id h id hid rfl, hstack⟩, hremaining.filter _, ?_⟩
    rintro x hx y hy rfl
    obtain ⟨hy, hne⟩ := List.mem_filter.1 hy
    rcases List.mem_cons.1 hx with rfl | hx
    · simp at hne
    · exact hdisj x hx x hy rfl
  · rw [remaining_remove]
    exact hw.sorted.filter _
  · have hmem : ∀ {z : Nat}, z ∈ (w.remove id).remaining ↔ z ∈ w.remaining ∧ z ≠ id := by
      intro z
      rw [remaining_remove, List.mem_filter, bne_iff_ne]
    rw [adjacentTo_remove, hmem, hmem]
    by_cases hx : x = id
    · simp [hx]
    · rw [if_neg hx]
      split
      · rw [IdSet.mem_erase, hw.mem_adjacentTo]
        tauto
      · rename_i hnot
        -- who was no neighbour of the removed node did not have it for a neighbour
        have hback : y ∈ w.adjacentTo x → y ≠ id := by
          rintro hy rfl
          obtain ⟨hxr, hyr, hadj, hne⟩ := (hw.mem_adjacentTo x y).1 hy
          exact hnot ((hw.mem_adjacentTo y x).2 ⟨hyr, hxr, hsym x y hadj, Ne.symm hne⟩)
        constructor
        · intro hy
          obtain ⟨hxr, hyr, hadj⟩ := (hw.mem_adjacentTo x y).1 hy
          exact ⟨⟨hxr, hx⟩, ⟨hyr, hback hy⟩, hadj⟩
        · rintro ⟨⟨hxr, -⟩, ⟨hyr, -⟩, hadj⟩
          exact (hw.mem_adjacentTo x y).2 ⟨hxr, hyr, hadj⟩

/-- Putting a node on the list of doubtful ones changes no neighbours. -/
theorem Faithful.doubt (hw : w.Faithful g) (id : Nat) : (w.doubt id).Faithful g :=
  ⟨hw.nodup, hw.complete, hw.sorted, hw.mem_adjacentTo, hw.degreeOf_eq⟩

/-- **Run lemma** for a list of removals. -/
theorem Faithful.foldl_remove (hw : w.Faithful g) (hsym : g.Symmetric) {ids : List Nat}
    (hnodup : ids.Nodup) (hids : ∀ id ∈ ids, id ∈ w.remaining) :
    (ids.foldl Working.remove w).Faithful g := by
  induction ids generalizing w with
  | nil => exact hw
  | cons id ids ih =>
    rw [List.nodup_cons] at hnodup
    refine ih (hw.remove hsym (hids id List.mem_cons_self)) hnodup.2 fun x hx => ?_
    rw [remaining_remove, List.mem_filter, bne_iff_ne]
    refine ⟨hids x (List.mem_cons_of_mem id hx), ?_⟩
    rintro rfl
    exact hnodup.1 hx

/-- Removing pinned nodes that are easy to color keeps the working graph faithful. -/
theorem faithful_removeEasyPins (hsym : g.Symmetric) (k : Nat) :
    ((ofGraph g).removeEasyPins g k).Faithful g :=
  (faithful_ofGraph hsym).foldl_remove hsym (List.nodup_range.filter _)
    fun _ hx => (List.mem_filter.1 hx).1

/-- **Step lemma.**  A step of dismantling keeps the working graph faithful. -/
theorem Faithful.step (hw : w.Faithful g) (hsym : g.Symmetric) : (w.step g k).Faithful g := by
  rcases step_cases g k w with ⟨-, heq⟩ | ⟨id, hid, ⟨heq, -⟩ | ⟨heq, -⟩⟩
  · rw [heq]
    exact hw
  · rw [heq]
    exact hw.remove hsym hid
  · rw [heq]
    exact (hw.doubt id).remove hsym hid

/-- **Run lemma** for the steps that take the graph apart. -/
theorem Faithful.steps (hw : w.Faithful g) (hsym : g.Symmetric) (n : Nat) :
    (Working.steps g k n w).Faithful g := by
  induction n generalizing w with
  | zero => exact hw
  | succ n ih => exact ih (hw.step hsym)

/-- **No node is removed twice.** -/
theorem faithful_dismantle (hsym : g.Symmetric) (k : Nat) : (dismantle g k).Faithful g :=
  (faithful_removeEasyPins hsym k).steps hsym _

/-! ## One removal after the other -/

/-- One node that is left is removed, perhaps in doubt. -/
def Removes (w w' : Working) : Prop :=
  ∃ id ∈ w.remaining, w' = w.remove id ∨ w' = (w.doubt id).remove id

/-- The pinned nodes that have fewer neighbours than registers to begin with. -/
def easyPins (g : Interference) (k : Nat) : List Nat :=
  (ofGraph g).remaining.filter fun id => (pinOf g k id).isSome && (ofGraph g).degreeOf id < k

/-- The working graph after `n` removals: first go the easy pins, then one node with each step. -/
def after (g : Interference) (k n : Nat) : Working :=
  steps g k (n - (easyPins g k).length) (((easyPins g k).take n).foldl remove (ofGraph g))

/-- Take steps as long as nodes are left. -/
def drain (g : Interference) (k : Nat) (w : Working) : Working :=
  if w.remaining = [] then w else drain g k (w.step g k)
termination_by w.remaining.length
decreasing_by
  have hlen := length_remaining_step (g := g) (k := k) w
  have hpos := List.length_pos_iff.2 ‹¬w.remaining = []›
  omega

/-- A limit on the steps does not matter, as long as there are enough of them. -/
theorem drain_eq_steps {n : Nat} (h : w.remaining.length ≤ n) : drain g k w = steps g k n w := by
  induction n generalizing w with
  | zero => rw [drain, if_pos (List.length_eq_zero_iff.1 (Nat.le_zero.1 h)), steps]
  | succ n ih =>
    have hlen := length_remaining_step (g := g) (k := k) w
    rw [steps, ← ih (by omega), drain]
    split
    · rename_i hnil
      -- without nodes a step changes nothing
      rcases step_cases g k w with ⟨-, heq⟩ | ⟨id, hid, -⟩
      · rw [heq, drain, if_pos hnil]
      · rw [hnil] at hid
        cases hid
    · rfl

theorem steps_succ (n : Nat) (w : Working) : steps g k (n + 1) w = (steps g k n w).step g k := by
  induction n generalizing w with
  | zero => rfl
  | succ n ih => exact ih (w.step g k)

/-- Before the first removal. -/
theorem after_zero (g : Interference) (k : Nat) : after g k 0 = ofGraph g := by
  rw [after, Nat.zero_sub, List.take_zero]
  rfl

/-- After all the pinned nodes that are easy to color. -/
theorem after_length_easyPins (g : Interference) (k : Nat) :
    after g k (easyPins g k).length = (ofGraph g).removeEasyPins g k := by
  rw [after, Nat.sub_self, List.take_length]
  rfl

/-- As long as there are pinned nodes that are easy to color, the next one is removed. -/
theorem after_succ_of_lt {n : Nat} (h : n < (easyPins g k).length) :
    after g k (n + 1) = (after g k n).remove (easyPins g k)[n] := by
  rw [after, after, Nat.sub_eq_zero_of_le h, Nat.sub_eq_zero_of_le (le_of_lt h), steps, steps,
    ← List.take_concat_get' _ _ h, List.foldl_concat]

/-- Behind them, every removal is a step of dismantling. -/
theorem after_succ_of_le {n : Nat} (h : (easyPins g k).length ≤ n) :
    after g k (n + 1) = (after g k n).step g k := by
  rw [after, after, List.take_of_length_le h, List.take_of_length_le (Nat.le_succ_of_le h),
    Nat.succ_sub h, steps_succ]

/-- What remains after several removals. -/
theorem mem_remaining_foldl_remove {ids : List Nat} {x : Nat} :
    x ∈ (ids.foldl remove w).remaining ↔ x ∈ w.remaining ∧ x ∉ ids := by
  induction ids generalizing w with
  | nil => simp
  | cons id ids ih =>
    rw [List.foldl_cons, ih, remaining_remove, List.mem_filter, bne_iff_ne, List.mem_cons, not_or,
      and_assoc]

/-- What a working graph is after `n` removals. -/
structure Consistent (g : Interference) (n : Nat) (w : Working) : Prop where
  /-- Every node has been removed or is left, and there is none twice. -/
  perm : (w.stack ++ w.remaining).Perm g.ids
  length_stack : w.stack.length = n
  sorted : w.remaining.Pairwise (· < ·)
  /-- A node that is left has those of its neighbours that are left, and their number. -/
  left : ∀ x ∈ w.remaining, ∃ s, w.adjacent[x]? = some s ∧ w.degree[x]? = some s.size ∧
    ∀ y, y ∈ s ↔ y ∈ g.adj x ∧ y ≠ x ∧ y ∈ w.remaining
  /-- Whichever node is removed next, and in whatever order it is taken away from its neighbours:
  when it comes to one of them, that one still has it and has a degree that can go down. -/
  falls : ∀ id ∈ w.remaining, ∀ told x rest, (told ++ x :: rest).Perm (w.adjacentTo id).toList →
    id ∈ (w.removing id told).adjacentTo x ∧ ∃ d, (w.removing id told).degree[x]? = some (d + 1)

/-- There is room for the neighbours and the degree of every node. -/
structure Sized (g : Interference) (w : Working) : Prop where
  adjacent : w.adjacent.size = g.size
  degree : w.degree.size = g.size

/-- Taking a node off the neighbours of another one keeps the tables as long as they are. -/
theorem Sized.detach (hw : w.Sized g) (removed id : Nat) : (detach removed w id).Sized g := by
  unfold Working.detach
  split
  · exact ⟨Array.size_modify.trans hw.adjacent, Array.size_modify.trans hw.degree⟩
  · exact hw

theorem Sized.removing (hw : w.Sized g) (id : Nat) (told : List Nat) :
    (w.removing id told).Sized g := by
  have hfold : ∀ v : Working, v.Sized g → (told.foldl (Working.detach id) v).Sized g := by
    induction told with
    | nil => exact fun _ hv => hv
    | cons x told ih => exact fun v hv => ih _ (hv.detach id x)
  exact hfold _ ⟨Array.size_setIfInBounds.trans hw.adjacent, hw.degree⟩

theorem Sized.remove (hw : w.Sized g) (id : Nat) : (w.remove id).Sized g :=
  ⟨(hw.removing id _).adjacent, Array.size_setIfInBounds.trans (hw.removing id _).degree⟩

theorem sized_ofGraph (g : Interference) : (ofGraph g).Sized g := by
  constructor <;> simp [ofGraph, Digraph.ids]

/-- **Step lemma.**  A removal keeps the working graph faithful and puts one node on the stack. -/
theorem Removes.keeps {w' : Working} (h : w.Removes w') (hsym : g.Symmetric) (hw : w.Faithful g)
    (hsize : w.Sized g) :
    w'.Faithful g ∧ w'.Sized g ∧ w'.stack.length = w.stack.length + 1 := by
  obtain ⟨id, hid, rfl | rfl⟩ := h
  · refine ⟨hw.remove hsym hid, hsize.remove id, ?_⟩
    rw [stack_remove, List.length_cons]
  · have hsize' : (w.doubt id).Sized g := ⟨hsize.adjacent, hsize.degree⟩
    refine ⟨(hw.doubt id).remove hsym hid, hsize'.remove id, ?_⟩
    rw [stack_remove, List.length_cons]
    rfl

/-- What has been removed and what remains are all the nodes. -/
theorem Faithful.perm_ids (hw : w.Faithful g) : (w.stack ++ w.remaining).Perm g.ids := by
  refine (List.perm_ext_iff_of_nodup hw.nodup List.nodup_range).2 fun x => ?_
  rw [List.mem_append, hw.complete x, List.mem_range]

/-- Every node has been removed or remains. -/
theorem Faithful.length_eq (hw : w.Faithful g) :
    w.stack.length + w.remaining.length = g.size := by
  have hlen := hw.perm_ids.length_eq
  rwa [List.length_append, Digraph.ids, List.length_range] at hlen

/-- As long as nodes are left, the next removal takes one of them. -/
theorem removes_after {n : Nat} (hw : (after g k n).Faithful g)
    (hlen : (after g k n).stack.length = n) (hn : n < g.size) :
    (after g k n).Removes (after g k (n + 1)) := by
  rcases Nat.lt_or_ge n (easyPins g k).length with hlt | hge
  · rw [after_succ_of_lt hlt]
    refine ⟨_, ?_, Or.inl rfl⟩
    rw [after, Nat.sub_eq_zero_of_le (le_of_lt hlt), steps, mem_remaining_foldl_remove]
    refine ⟨(List.mem_filter.1 (List.getElem_mem hlt)).1, fun hmem => ?_⟩
    -- an easy pin is not among those in front of it
    obtain ⟨m, hm, heq⟩ := List.getElem_of_mem hmem
    rw [List.length_take] at hm
    rw [List.getElem_take] at heq
    have hnodup : (easyPins g k).Nodup := List.nodup_range.filter _
    have := (hnodup.getElem_inj_iff).1 heq
    omega
  · rw [after_succ_of_le hge]
    have hlength := hw.length_eq
    rcases step_cases g k (after g k n) with ⟨hnil, -⟩ | ⟨id, hid, ⟨heq, -⟩ | ⟨heq, -⟩⟩
    · rw [hnil, List.length_nil] at hlength
      omega
    · exact ⟨id, hid, Or.inl heq⟩
    · exact ⟨id, hid, Or.inr heq⟩

/-- **Run lemma.**  After `n` removals the working graph is faithful, and `n` nodes are on the
stack. -/
theorem faithful_after (hsym : g.Symmetric) {n : Nat} (hn : n ≤ g.size) :
    (after g k n).Faithful g ∧ (after g k n).Sized g ∧ (after g k n).stack.length = n := by
  induction n with
  | zero =>
    rw [after_zero]
    exact ⟨faithful_ofGraph hsym, sized_ofGraph g, rfl⟩
  | succ n ih =>
    obtain ⟨hw, hsize, hlen⟩ := ih (Nat.le_of_succ_le hn)
    obtain ⟨hw', hsize', hlen'⟩ := (removes_after hw hlen hn).keeps hsym hw hsize
    exact ⟨hw', hsize', by rw [hlen', hlen]⟩

/-- The last removal leaves nothing. -/
theorem after_size (hsym : g.Symmetric) (k : Nat) : after g k g.size = dismantle g k := by
  have hle : (easyPins g k).length ≤ g.size := by
    refine (List.length_filter_le _ _).trans_eq ?_
    exact List.length_range
  obtain ⟨hw, -, hlen⟩ := faithful_after (k := k) hsym hle
  have hlength := hw.length_eq
  rw [hlen, after_length_easyPins] at hlength
  rw [after, List.take_of_length_le hle, dismantle]
  show steps g k _ ((ofGraph g).removeEasyPins g k) = _
  congr 1
  omega

/-! ## What is looked up is there -/

theorem Sized.adjacent_eq (hw : w.Sized g) {x : Nat} (hx : x < g.size) :
    w.adjacent[x]? = some (w.adjacentTo x) := by
  have hlt : x < w.adjacent.size := by rwa [hw.adjacent]
  rw [adjacentTo, Array.getD_eq_getD_getElem?, Array.getElem?_eq_getElem hlt, Option.getD_some]

theorem Sized.degree_eq (hw : w.Sized g) {x : Nat} (hx : x < g.size) :
    w.degree[x]? = some (w.degreeOf x) := by
  have hlt : x < w.degree.size := by rwa [hw.degree]
  rw [degreeOf, Array.getD_eq_getD_getElem?, Array.getElem?_eq_getElem hlt, Option.getD_some]

/-- A neighbour that has not been told yet still has the node that is being removed. -/
theorem Faithful.mem_adjacentTo_removing (hw : w.Faithful g) (hsym : g.Symmetric) {id x : Nat}
    {told : List Nat} (hx : x ∈ w.adjacentTo id) (htold : x ∉ told) :
    id ∈ (w.removing id told).adjacentTo x := by
  obtain ⟨hid, hxr, hadj, hne⟩ := (hw.mem_adjacentTo id x).1 hx
  rw [adjacentTo_removing, if_neg hne, if_neg htold]
  exact (hw.mem_adjacentTo x id).2 ⟨hxr, hid, hsym id x hadj, Ne.symm hne⟩

/-- **A faithful working graph is consistent**: nothing that is looked up is missing, and no degree
goes below zero. -/
theorem Faithful.consistent (hw : w.Faithful g) (hsym : g.Symmetric) (hsize : w.Sized g) :
    w.Consistent g w.stack.length where
  perm := hw.perm_ids
  length_stack := rfl
  sorted := hw.sorted
  left x hx := by
    have hlt : x < g.size := (hw.complete x).1 (Or.inr hx)
    refine ⟨_, hsize.adjacent_eq hlt, ?_, fun y => ?_⟩
    · rw [hsize.degree_eq hlt, hw.degreeOf_eq]
    · rw [hw.mem_adjacentTo]
      tauto
  falls id hid told x rest hperm := by
    have hx : x ∈ w.adjacentTo id := hperm.mem_iff.1 (by simp)
    have htold : x ∉ told := by
      have hnodup := hperm.nodup_iff.2 (w.adjacentTo id).nodup_toList
      rw [List.nodup_append] at hnodup
      exact fun h => hnodup.2.2 x h x List.mem_cons_self rfl
    obtain ⟨-, hxr, -, hne⟩ := (hw.mem_adjacentTo id x).1 hx
    have hmem := hw.mem_adjacentTo_removing hsym hx htold
    have hdegree := degreeOf_removing (hw.degreeOf_eq x) hne told
    have hpos : 0 < ((w.removing id told).adjacentTo x).size := List.length_pos_of_mem hmem
    refine ⟨hmem, ((w.removing id told).adjacentTo x).size - 1, ?_⟩
    rw [(hsize.removing id told).degree_eq ((hw.complete x).1 (Or.inr hxr)), hdegree,
      Nat.sub_add_cancel hpos]

end Coloring.Working

namespace Interference

open Coloring (Working)

/-- **Between any two removals the working graph is consistent**, whatever the graph and the number
of registers.  There is one removal for each node: afterwards nothing is left, and a loop that goes
on as long as nodes are left stops there. -/
theorem consistent_after (f : FlowGraph) (cs : Candidates) (k : Nat) :
    (∀ n ≤ (build f cs).size, (Working.after (build f cs) k n).Consistent (build f cs) n) ∧
      Working.after (build f cs) k 0 = .ofGraph (build f cs) ∧
      (∀ n < (build f cs).size,
        (Working.after (build f cs) k n).Removes (Working.after (build f cs) k (n + 1))) ∧
      Working.after (build f cs) k (build f cs).size = Working.dismantle (build f cs) k ∧
      Working.drain (build f cs) k ((Working.ofGraph (build f cs)).removeEasyPins (build f cs) k) =
        Working.dismantle (build f cs) k ∧
      (Working.dismantle (build f cs) k).remaining = [] := by
  have hsym := symmetric_build f cs
  refine ⟨fun n hn => ?_, Working.after_zero _ k, fun n hn => ?_, Working.after_size hsym k,
    Working.drain_eq_steps (le_refl _), ?_⟩
  · obtain ⟨hw, hsize, hlen⟩ := Working.faithful_after (k := k) hsym hn
    have hconsistent := hw.consistent hsym hsize
    rwa [hlen] at hconsistent
  · obtain ⟨hw, -, hlen⟩ := Working.faithful_after (k := k) hsym (le_of_lt hn)
    exact Working.removes_after hw hlen hn
  · obtain ⟨hw, -, hlen⟩ := Working.faithful_after (k := k) hsym (le_refl _)
    have hlength := hw.length_eq
    rw [hlen] at hlength
    rw [← Working.after_size hsym k, ← List.length_eq_zero_iff]
    omega

end Interference

end Backend
