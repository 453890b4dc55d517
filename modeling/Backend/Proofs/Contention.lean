/-
# What is spilled finds every register taken

Whether a node is spilled is decided in the middle of handing out registers, against those that
have been handed out by then.  No register is taken back, so the decision still stands in the end:
every register that a spilled node without a pin could have had is with a neighbour or kept for
pinned nodes (`Coloring.taken_of_mem_spilled`).  And no register is kept in vain, since of the nodes
that are pinned to it one has it (`Coloring.exists_holder`).
-/
import Mathlib
import Backend.Proofs.PinnedColoring

namespace Backend

namespace Coloring

/-! ## Registers are not taken back -/

namespace Selection

variable {g : Interference} {k : Nat} {s : Selection} {reserved ids : List Nat}

/-- Placing nodes that have no register yet leaves those that have one alone. -/
theorem colorOf_foldl_placeFree (hnew : ∀ x ∈ ids, s.colorOf x = none) {y r : Nat}
    (hy : s.colorOf y = some r) :
    (ids.foldl (placeFree g k reserved) s).colorOf y = some r := by
  have hnot : y ∉ ids := by
    intro hmem
    rw [hnew y hmem] at hy
    cases hy
  rw [(foldl_placeFree_of_notMem hnot).1, hy]

/-- **Step lemma.**  A node that is spilled when it is placed finds every register reserved or with
a neighbour. -/
theorem taken_placeFree {id : Nat} (hid : id ∈ (s.placeFree g k reserved id).spilled)
    (hnot : id ∉ s.spilled) {r : Nat} (hr : r < k) :
    r ∈ reserved ∨ ∃ y ∈ g.adj id, s.colorOf y = some r := by
  unfold placeFree at hid
  split at hid
  · exact absurd hid hnot
  · rename_i hnone
    have hmem := lowestFree_eq_none_iff.1 hnone r hr
    rwa [List.mem_append, mem_usedAround] at hmem

/-- **Run lemma.**  A node that is spilled when some nodes are placed, each once, finds in the end
every register reserved or with a neighbour. -/
theorem taken_foldl_placeFree (hnodup : ids.Nodup) (hnew : ∀ x ∈ ids, s.colorOf x = none) {id : Nat}
    (hid : id ∈ (ids.foldl (placeFree g k reserved) s).spilled) (hnot : id ∉ s.spilled) {r : Nat}
    (hr : r < k) : r ∈ reserved ∨
      ∃ y ∈ g.adj id, (ids.foldl (placeFree g k reserved) s).colorOf y = some r := by
  induction ids generalizing s with
  | nil => exact absurd hid hnot
  | cons x ids ih =>
    obtain ⟨hx, hnodup'⟩ := List.nodup_cons.1 hnodup
    have hnew' : ∀ z ∈ ids, (s.placeFree g k reserved x).colorOf z = none := by
      intro z hz
      have hne : z ≠ x := by
        rintro rfl
        exact hx hz
      rw [colorOf_placeFree_of_ne hne]
      exact hnew z (List.mem_cons_of_mem x hz)
    rw [List.foldl_cons] at hid
    by_cases hnow : id ∈ (s.placeFree g k reserved x).spilled
    · obtain rfl : id = x := by
        by_contra hne
        exact hnot (((places_placeFree g k reserved s x).mem_spilled hne).1 hnow)
      refine (taken_placeFree hnow hnot hr).imp_right ?_
      rintro ⟨y, hadj, hy⟩
      exact ⟨y, hadj, colorOf_foldl_placeFree hnew hy⟩
    · exact ih hnodup' hnew' hid hnow

end Selection

/-! ## Who has the registers -/

variable {g : Interference} {k : Nat}

/-- **A register that nodes are pinned to is held by one of them.** -/
theorem exists_holder (hsym : g.Symmetric) (hirr : g.Irreflexive) {x r : Nat}
    (hpin : pinOf g k x = some r) :
    ∃ y, pinOf g k y = some r ∧ (select g k (Working.dismantle g k)).colorOf y = some r := by
  obtain ⟨hsane, hplaced⟩ := sane_select (k := k) hsym hirr
  rcases hplaced x (Selection.lt_size_of_pinOf hpin) with h | h
  · obtain ⟨q, hq⟩ := Option.ne_none_iff_exists'.1 h
    rcases hsane.honest x q hq with hpin' | ⟨hnone, -⟩
    · exact ⟨x, hpin, by rw [hq, ← hpin', hpin]⟩
    · rw [hpin] at hnone
      cases hnone
  · obtain ⟨y, -, -, hy, hcolor⟩ := exists_rival_select hsym hirr hpin h
    exact ⟨y, hy, hcolor⟩

/-- **A spilled node without a pin finds every register taken**, by a pinned node or by a
neighbour. -/
theorem taken_of_mem_spilled (hsym : g.Symmetric) (hirr : g.Irreflexive) {x r : Nat}
    (hx : x ∈ (select g k (Working.dismantle g k)).spilled) (hnone : pinOf g k x = none)
    (hr : r < k) :
    (∃ y, pinOf g k y = some r ∧ (select g k (Working.dismantle g k)).colorOf y = some r) ∨
      ∃ y ∈ g.adj x, (select g k (Working.dismantle g k)).colorOf y = some r := by
  obtain ⟨-, hfree⟩ := apart_placePinned g k rfl
  have hnodup : (freeOrder g k (Working.dismantle g k)).Nodup :=
    nodup_freeOrder (List.nodup_append.1 (Working.faithful_dismantle hsym k).nodup).1
  rcases Selection.taken_foldl_placeFree hnodup
    (fun y hy => not_not.1 (not_or.1 (hfree y (mem_freeOrder.1 hy).2)).1) hx
    (not_or.1 (hfree x hnone)).2 hr with hmem | hneighbour
  · obtain ⟨p, hp, rfl⟩ := List.mem_map.1 hmem
    exact Or.inl (exists_holder hsym hirr (Selection.mem_pins hp).2)
  · exact Or.inr hneighbour

end Coloring

namespace Interference

/-- No variable is spilled that could have a register. -/
structure SpillsNeeded (g : Interference) (k : Nat) (c : Coloring) : Prop where
  mem_graph : ∀ v ∈ c.spills, ∃ x d, g.val? x = some d ∧ d.var = v
  /-- Of a spilled variable without a pin every register is with a variable pinned to it or with a
  neighbour. -/
  free : ∀ x d, g.val? x = some d → d.var ∈ c.spills → (∀ q, d.pin = some q → k ≤ q) →
    ∀ r < k, (∃ y e, g.val? y = some e ∧ e.pin = some r ∧ (e.var, r) ∈ c.colors) ∨
      ∃ w, g.interferes d.var w = true ∧ (w, r) ∈ c.colors
  /-- The register of a spilled variable with a pin is with a neighbour. -/
  pinned : ∀ x d r, g.val? x = some d → d.var ∈ c.spills → d.pin = some r → r < k →
    ∃ w, g.interferes d.var w = true ∧ (w, r) ∈ c.colors
  /-- A register that variables are pinned to is with one of them. -/
  held : ∀ x d r, g.val? x = some d → d.pin = some r → r < k →
    ∃ y e, g.val? y = some e ∧ e.pin = some r ∧ (e.var, r) ∈ c.colors

variable {f : FlowGraph} {cs : Candidates} {k : Nat}

/-- A node that is pinned to a register and has it stands for a variable that does. -/
theorem exists_mem_colors_of_pinOf {y r : Nat}
    (hpin : Coloring.pinOf (build f cs) k y = some r)
    (hcolor : (Coloring.select (build f cs) k
      (Coloring.Working.dismantle (build f cs) k)).colorOf y = some r) :
    ∃ y e, (build f cs).val? y = some e ∧ e.pin = some r ∧
      (e.var, r) ∈ ((build f cs).color k).colors := by
  obtain ⟨e, he, hepin, -⟩ := Coloring.pinOf_eq_some_iff.1 hpin
  exact ⟨y, e, he, hepin, mem_colors_color.2 ⟨y, var?_of_val? he, hcolor⟩⟩

/-- **No needless spill**, whatever the graph, the pins and the number of registers. -/
theorem spillsNeeded_color (f : FlowGraph) (cs : Candidates) (k : Nat) :
    (build f cs).SpillsNeeded k ((build f cs).color k) where
  mem_graph v hv := by
    obtain ⟨x, hx, -⟩ := mem_spills_color.1 hv
    obtain ⟨d, hd, hdv⟩ := Option.map_eq_some_iff.1 hx
    exact ⟨x, d, hd, hdv⟩
  free x d hd hspill hnone r hr := by
    obtain ⟨x', hx', hspilled⟩ := mem_spills_color.1 hspill
    obtain rfl : x = x' := var?_injective (var?_of_val? hd) hx'
    have hpin : Coloring.pinOf (build f cs) k x = none := by
      rw [Option.eq_none_iff_forall_ne_some]
      intro q hq
      obtain ⟨d', hd', hpin', hlt⟩ := Coloring.pinOf_eq_some_iff.1 hq
      obtain rfl : d = d' := Option.some.inj (hd.symm.trans hd')
      exact absurd (hnone q hpin') (not_le.2 hlt)
    rcases Coloring.taken_of_mem_spilled (symmetric_build f cs) (irreflexive_build f cs) hspilled
      hpin hr with ⟨y, hy, hcolor⟩ | ⟨y, hadj, hcolor⟩
    · exact Or.inl (exists_mem_colors_of_pinOf hy hcolor)
    · obtain ⟨-, c, e, hc, he, -⟩ := mem_adj_build.1 hadj
      have hy : (build f cs).var? y = some e.var := var?_build_eq_some.2 ⟨e, he, rfl⟩
      exact Or.inr ⟨e.var, interferes_build.2 ⟨x, y, hx', hy, hadj⟩,
        mem_colors_color.2 ⟨y, hy, hcolor⟩⟩
  pinned x d r hd hspill hpin hr := by
    obtain ⟨y, e, -, -, hadj, -, hcolor⟩ := exists_younger_of_mem_spills hd hpin hr hspill
    exact ⟨e.var, hadj, hcolor⟩
  held x d r hd hpin hr := by
    obtain ⟨y, hy, hcolor⟩ := Coloring.exists_holder (symmetric_build f cs) (irreflexive_build f cs)
      (Coloring.pinOf_eq_some_iff.2 ⟨d, hd, hpin, hr⟩)
    exact exists_mem_colors_of_pinOf hy hcolor

end Interference

end Backend
