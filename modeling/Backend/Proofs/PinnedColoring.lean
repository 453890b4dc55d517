/-
# Proper colourings with pins

Colouring hands out registers in two passes and four orders, and every variable of the graph comes
out of it once: with a register or among the spills (`Selection.Apart`).  What the registers are
like is `Interference.Colored`: neighbours have different ones, pins are honoured or lost to a
younger neighbour with the same pin, and registers that are asked for by a pin are for pinned
variables only (`Interference.colored_color`).
-/
import Mathlib
import Backend.Proofs.Dismantling
import Backend.Proofs.Pins

namespace Backend

/-! ## Looking up variables -/

namespace Interference

variable {f : FlowGraph} {cs : Candidates} {k : Nat}

/-- The node of a variable is the one that carries it. -/
theorem node?_build {v x : Nat} : (build f cs).node? v = some x ↔
    (build f cs).var? x = some v := by
  have hvar : ∀ {y : Nat}, (build f cs).node? v = some y → (build f cs).var? y = some v := by
    intro y hy
    obtain ⟨hlt, hval, -⟩ := Array.findIdx?_eq_some_iff_getElem.1 hy
    rw [var?, Digraph.val?, Array.getElem?_eq_getElem hlt]
    exact congrArg some (beq_iff_eq.1 hval)
  refine ⟨hvar, fun hx => ?_⟩
  cases hnode : (build f cs).node? v with
  | none =>
    obtain ⟨d, hd, hdv⟩ := Option.map_eq_some_iff.1 hx
    obtain ⟨n, hn, hnd⟩ := Option.map_eq_some_iff.1 hd
    have hall := Array.findIdx?_eq_none_iff.1 hnode n (Array.mem_of_getElem? hn)
    rw [hnd, hdv, beq_self_eq_true] at hall
    exact absurd hall (by simp)
  | some y => rw [var?_injective (hvar hnode) hx]

/-- Two variables interfere if their nodes are neighbours. -/
theorem interferes_build {v w : Nat} : (build f cs).interferes v w = true ↔
    ∃ x y, (build f cs).var? x = some v ∧ (build f cs).var? y = some w ∧
      y ∈ (build f cs).adj x := by
  rw [interferes]
  constructor
  · intro h
    split at h
    · rename_i x y hx hy
      exact ⟨x, y, node?_build.1 hx, node?_build.1 hy, of_decide_eq_true h⟩
    · exact absurd h (by simp)
  · rintro ⟨x, y, hx, hy, hadj⟩
    rw [node?_build.2 hx, node?_build.2 hy]
    exact decide_eq_true hadj

end Interference

/-! ## Every node is placed once -/

namespace Coloring

/-- A pin counts if it is one of the registers. -/
theorem pinOf_eq_some_iff {g : Interference} {k x r : Nat} : pinOf g k x = some r ↔
    ∃ d, g.val? x = some d ∧ d.pin = some r ∧ r < k := by
  rw [pinOf, Option.filter_eq_some_iff, Option.bind_eq_some_iff, decide_eq_true_eq]
  constructor
  · rintro ⟨⟨d, hd, hpin⟩, hlt⟩
    exact ⟨d, hd, hpin, hlt⟩
  · rintro ⟨d, hd, hpin, hlt⟩
    exact ⟨⟨d, hd, hpin⟩, hlt⟩

namespace Selection

variable {g : Interference} {k : Nat} {s t : Selection} {id : Nat}

/-- A node is given a register or spilled, and no other node is concerned. -/
def Places (s t : Selection) (id : Nat) : Prop :=
  (∃ r, t.colors = (s.assign id r).colors ∧ t.spilled = s.spilled) ∨
    (t.colors = s.colors ∧ t.spilled = id :: s.spilled)

/-- Coloring a pinned node places this node. -/
theorem places_placePinned (g : Interference) (s : Selection) (p : Nat × Nat) :
    Places s (s.placePinned g p) p.1 := by
  unfold placePinned
  split
  · exact Or.inr ⟨rfl, rfl⟩
  · exact Or.inl ⟨p.2, rfl, rfl⟩

/-- Coloring a node that is not pinned places this node. -/
theorem places_placeFree (g : Interference) (k : Nat) (reserved : List Nat) (s : Selection)
    (id : Nat) : Places s (s.placeFree g k reserved id) id := by
  unfold placeFree
  split
  · rename_i r hr
    exact Or.inl ⟨r, rfl, rfl⟩
  · exact Or.inr ⟨rfl, rfl⟩

/-- Placing a node keeps the colors of all others. -/
theorem Places.colorOf_eq (h : Places s t id) {x : Nat} (hx : x ≠ id) :
    t.colorOf x = s.colorOf x := by
  rcases h with ⟨r, hcolors, -⟩ | ⟨hcolors, -⟩
  · have hassign : t.colorOf x = (s.assign id r).colorOf x := by rw [colorOf, hcolors, ← colorOf]
    rw [hassign, colorOf_assign_of_ne hx]
  · rw [colorOf, hcolors, ← colorOf]

/-- Placing a node spills no other. -/
theorem Places.mem_spilled (h : Places s t id) {x : Nat} (hx : x ≠ id) :
    x ∈ t.spilled ↔ x ∈ s.spilled := by
  rcases h with ⟨r, -, hspilled⟩ | ⟨-, hspilled⟩
  · rw [hspilled]
  · rw [hspilled, List.mem_cons, or_iff_right hx]

/-- What is spilled has no register. -/
def Apart (s : Selection) : Prop := ∀ x ∈ s.spilled, s.colorOf x = none

/-- **Step lemma.**  Placing a node for the first time keeps spills and registers apart. -/
theorem Places.apart (h : Places s t id) (hs : s.Apart) (hid : ¬ s.Placed id) : t.Apart := by
  obtain ⟨hnone, hnot⟩ := not_or.1 hid
  intro x hx
  by_cases hxid : x = id
  · subst hxid
    rcases h with ⟨r, -, hspilled⟩ | ⟨hcolors, -⟩
    · rw [hspilled] at hx
      exact absurd hx hnot
    · rw [colorOf, hcolors]
      exact not_not.1 hnone
  · rw [h.colorOf_eq hxid]
    exact hs x ((h.mem_spilled hxid).1 hx)

/-- **Run lemma.**  Placing each of several nodes once keeps spills and registers apart, and places
no other node. -/
theorem Apart.foldl {α : Type} {place : Selection → α → Selection} (key : α → Nat)
    (hplace : ∀ s a, Places s (place s a) (key a)) {as : List α} (hnodup : (as.map key).Nodup)
    (hs : s.Apart) (hnew : ∀ a ∈ as, ¬ s.Placed (key a)) :
    (as.foldl place s).Apart ∧
      ∀ x, x ∉ as.map key → (as.foldl place s).Placed x → s.Placed x := by
  induction as generalizing s with
  | nil => exact ⟨hs, fun x _ h => h⟩
  | cons a as ih =>
    rw [List.map_cons, List.nodup_cons] at hnodup
    have hstep := hplace s a
    have hback : ∀ {x : Nat}, x ≠ key a → (place s a).Placed x → s.Placed x := by
      intro x hx h
      rwa [Placed, hstep.colorOf_eq hx, hstep.mem_spilled hx] at h
    obtain ⟨hapart, hkeep⟩ := ih hnodup.2
      (hstep.apart hs (hnew a List.mem_cons_self)) fun b hb h => by
        refine hnew b (List.mem_cons_of_mem a hb) (hback ?_ h)
        intro heq
        exact hnodup.1 (heq ▸ List.mem_map_of_mem hb)
    refine ⟨hapart, fun x hx h => ?_⟩
    rw [List.map_cons, List.mem_cons, not_or] at hx
    exact hback hx.1 (hkeep x hx.2 h)

end Selection

variable {g : Interference} {k : Nat}

theorem nodup_freeOrder {w : Working} (h : w.stack.Nodup) : (freeOrder g k w).Nodup := by
  have hfree : (w.stack.filter fun id => (pinOf g k id).isNone).Nodup := h.filter _
  refine List.nodup_append.2 ⟨hfree.filter _, hfree.filter _, ?_⟩
  rintro x hx y hy rfl
  have hnot := (List.mem_filter.1 hx).2
  have hmem := (List.mem_filter.1 hy).2
  simp only [decide_eq_true_eq] at hnot hmem
  exact hnot hmem

/-- The first pass, which places the pinned nodes, leaves all others alone. -/
theorem apart_placePinned (g : Interference) (k : Nat) {s : Selection}
    (hs : s = (pins g k).reverse.foldl (Selection.placePinned g)
      { colors := Array.replicate g.size none }) :
    s.Apart ∧ ∀ x, pinOf g k x = none → ¬ s.Placed x := by
  have hstart : ∀ x, ¬ Selection.Placed { colors := Array.replicate g.size none } x := by
    rintro x (h | h)
    · exact h (colorOf_start g.size x)
    · exact absurd h List.not_mem_nil
  have hkeys : ((pins g k).reverse.map (·.1)).Nodup := by
    rw [List.map_reverse, List.nodup_reverse]
    exact (List.pairwise_map.2 (pairwise_pins g k)).imp ne_of_lt
  obtain ⟨hapart, hkeep⟩ := Selection.Apart.foldl Prod.fst (Selection.places_placePinned g) hkeys
    (fun x hx => absurd hx List.not_mem_nil) fun p _ => hstart _
  rw [hs]
  refine ⟨hapart, fun x hx h => hstart x (hkeep x (fun hmem => ?_) h)⟩
  obtain ⟨p, hp, rfl⟩ := List.mem_map.1 hmem
  rw [(Selection.mem_pins (List.mem_reverse.1 hp)).2] at hx
  exact absurd hx (by simp)

/-- **No node has a register and is spilled.** -/
theorem apart_select (hsym : g.Symmetric) : (select g k (Working.dismantle g k)).Apart := by
  obtain ⟨hpinned, hfree⟩ := apart_placePinned g k rfl
  have hfaithful := Working.faithful_dismantle hsym k
  refine (Selection.Apart.foldl (fun id => id) (Selection.places_placeFree g k _) ?_
    hpinned fun id hid => hfree id (mem_freeOrder.1 hid).2).1
  rw [List.map_id']
  exact nodup_freeOrder (List.nodup_append.1 hfaithful.nodup).1

end Coloring

/-! ## What a colouring is like -/

namespace Interference

/-- What colouring a graph with `k` registers has to achieve. -/
structure Colored (g : Interference) (k : Nat) (c : Coloring) : Prop where
  nodup : (c.colors.map (·.1) ++ c.spills).Nodup
  /-- The variables of the graph, and nothing else, have a register or are spilled. -/
  mem_iff : ∀ v, v ∈ c.colors.map (·.1) ++ c.spills ↔ ∃ x, g.var? x = some v
  sorted : c.spills.Pairwise (· < ·)
  bound : ∀ v r, (v, r) ∈ c.colors → r < k
  proper : ∀ v w r, g.interferes v w = true → (v, r) ∈ c.colors → (w, r) ∉ c.colors
  pinned : ∀ x d r, g.val? x = some d → d.pin = some r → r < k →
    (d.var, r) ∈ c.colors ∨ d.var ∈ c.spills
  /-- A pin is lost to a younger neighbour with the same pin, and only to such a one. -/
  lost_iff : ∀ x d r, g.val? x = some d → d.pin = some r → r < k →
    (d.var ∈ c.spills ↔ ∃ y e q, g.val? y = some e ∧ e.pin = some r ∧
      g.interferes d.var e.var = true ∧ d.var < e.var ∧ (e.var, q) ∈ c.colors)
  /-- What some variable is pinned to goes to no variable without a pin. -/
  reserved : ∀ x d y e r, g.val? x = some d → (∀ q, d.pin = some q → k ≤ q) →
    g.val? y = some e → e.pin = some r → r < k → (d.var, r) ∉ c.colors

variable {f : FlowGraph} {cs : Candidates} {k : Nat}

/-- Variables picked from increasing nodes are increasing. -/
theorem pairwise_filterMap_ids (f : FlowGraph) (cs : Candidates) {pick : Nat → Option Nat}
    (hpick : ∀ x v, pick x = some v → (build f cs).var? x = some v) {ids : List Nat}
    (hids : ids.Pairwise (· < ·)) : (ids.filterMap pick).Pairwise (· < ·) := by
  refine List.pairwise_filterMap.2 (hids.imp ?_)
  intro x y hxy v hv w hw
  exact var?_lt (hpick x v hv) (hpick y w hw) hxy

/-- Spilled variables are listed in ascending order. -/
theorem pairwise_spills (f : FlowGraph) (cs : Candidates) (k : Nat) :
    ((build f cs).color k).spills.Pairwise (· < ·) :=
  pairwise_filterMap_ids f cs (fun _ _ h => h) (List.pairwise_lt_range.filter _)

/-- Colored variables are listed in ascending order. -/
theorem pairwise_colors (f : FlowGraph) (cs : Candidates) (k : Nat) :
    (((build f cs).color k).colors.map (·.1)).Pairwise (· < ·) := by
  set g := build f cs
  set s := Coloring.select g k (Coloring.Working.dismantle g k)
  show ((g.ids.filterMap fun id => do return (← g.var? id, ← s.colorOf id)).map (·.1)).Pairwise _
  rw [List.map_filterMap]
  refine pairwise_filterMap_ids f cs (fun x v hv => ?_) List.pairwise_lt_range
  obtain ⟨q, hq, rfl⟩ := Option.map_eq_some_iff.1 hv
  obtain ⟨a, ha, hq⟩ := Option.bind_eq_some_iff.1 hq
  obtain ⟨c, -, hq⟩ := Option.bind_eq_some_iff.1 hq
  obtain rfl := Option.some.inj hq
  exact ha

/-- A variable that has a register is not spilled. -/
theorem notMem_spills {v r : Nat} (h : (v, r) ∈ ((build f cs).color k).colors) :
    v ∉ ((build f cs).color k).spills := by
  intro hspill
  obtain ⟨x, hx, hcolor⟩ := mem_colors_color.1 h
  obtain ⟨y, hy, hspilled⟩ := mem_spills_color.1 hspill
  obtain rfl : x = y := var?_injective hx hy
  rw [Coloring.apart_select (symmetric_build f cs) x hspilled] at hcolor
  exact absurd hcolor (by simp)

theorem var?_of_val? {g : Interference} {x : Nat} {d : Candidate} (h : g.val? x = some d) :
    g.var? x = some d.var := by
  rw [var?, h]
  rfl

/-- A pinned variable has the register it is pinned to or none. -/
theorem eq_of_mem_colors {x r q : Nat} {d : Candidate} (hd : (build f cs).val? x = some d)
    (hpin : d.pin = some r) (hr : r < k) (hq : (d.var, q) ∈ ((build f cs).color k).colors) :
    q = r := by
  obtain ⟨hsane, -⟩ := Coloring.sane_select (k := k) (symmetric_build f cs)
    (irreflexive_build f cs)
  obtain ⟨y, hy, hcolor⟩ := mem_colors_color.1 hq
  obtain rfl : x = y := var?_injective (var?_of_val? hd) hy
  have hpinOf := Coloring.pinOf_eq_some_iff.2 ⟨d, hd, hpin, hr⟩
  rcases hsane.honest x q hcolor with h | ⟨h, -⟩
  · exact Option.some.inj (h.symm.trans hpinOf)
  · exact absurd (h.symm.trans hpinOf) (by simp)

/-- The variables of the graph are those that have a register and those that are spilled. -/
theorem mem_colors_or_spills {v : Nat} :
    v ∈ ((build f cs).color k).colors.map (·.1) ++ ((build f cs).color k).spills ↔
      ∃ x, (build f cs).var? x = some v := by
  rw [List.mem_append, List.mem_map]
  constructor
  · rintro (⟨⟨w, r⟩, hw, rfl⟩ | h)
    · obtain ⟨x, hx, -⟩ := mem_colors_color.1 hw
      exact ⟨x, hx⟩
    · obtain ⟨x, hx, -⟩ := mem_spills_color.1 h
      exact ⟨x, hx⟩
  · rintro ⟨x, hx⟩
    obtain ⟨-, hplaced⟩ := Coloring.sane_select (k := k) (symmetric_build f cs)
      (irreflexive_build f cs)
    rcases hplaced x (lt_size_of_var? hx) with h | h
    · obtain ⟨r, hr⟩ := Option.ne_none_iff_exists'.1 h
      exact Or.inl ⟨(v, r), mem_colors_color.2 ⟨x, hx, hr⟩, rfl⟩
    · exact Or.inr (mem_spills_color.2 ⟨x, hx, h⟩)

/-- No variable is listed twice. -/
theorem nodup_colors_append_spills (f : FlowGraph) (cs : Candidates) (k : Nat) :
    (((build f cs).color k).colors.map (·.1) ++ ((build f cs).color k).spills).Nodup := by
  rw [List.nodup_append]
  refine ⟨(pairwise_colors f cs k).imp ne_of_lt, (pairwise_spills f cs k).imp ne_of_lt, ?_⟩
  rintro v hv w hw rfl
  obtain ⟨⟨v, r⟩, hr, rfl⟩ := List.mem_map.1 hv
  exact notMem_spills hr hw

/-- Variables that interfere have different registers. -/
theorem notMem_colors_of_interferes {v w r : Nat} (h : (build f cs).interferes v w = true)
    (hv : (v, r) ∈ ((build f cs).color k).colors) : (w, r) ∉ ((build f cs).color k).colors := by
  intro hw
  obtain ⟨hsane, -⟩ := Coloring.sane_select (k := k) (symmetric_build f cs)
    (irreflexive_build f cs)
  obtain ⟨x, y, hx, hy, hadj⟩ := interferes_build.1 h
  obtain ⟨x', hx', hcx⟩ := mem_colors_color.1 hv
  obtain ⟨y', hy', hcy⟩ := mem_colors_color.1 hw
  obtain rfl : x = x' := var?_injective hx hx'
  obtain rfl : y = y' := var?_injective hy hy'
  exact hsane.proper x y r hadj hcx hcy

/-- A pinned variable has its register or is spilled. -/
theorem mem_colors_or_mem_spills_of_pin {x r : Nat} {d : Candidate}
    (hd : (build f cs).val? x = some d) (hpin : d.pin = some r) (hr : r < k) :
    (d.var, r) ∈ ((build f cs).color k).colors ∨ d.var ∈ ((build f cs).color k).spills := by
  rcases List.mem_append.1 (mem_colors_or_spills.2 ⟨x, var?_of_val? hd⟩) with h | h
  · obtain ⟨⟨v, q⟩, hq, rfl⟩ := List.mem_map.1 h
    exact Or.inl (eq_of_mem_colors hd hpin hr hq ▸ hq)
  · exact Or.inr h

/-- A pin is lost to a younger neighbour that has the register. -/
theorem exists_younger_of_mem_spills {x r : Nat} {d : Candidate}
    (hd : (build f cs).val? x = some d) (hpin : d.pin = some r) (hr : r < k)
    (h : d.var ∈ ((build f cs).color k).spills) :
    ∃ y e, (build f cs).val? y = some e ∧ e.pin = some r ∧
      (build f cs).interferes d.var e.var = true ∧ d.var < e.var ∧
      (e.var, r) ∈ ((build f cs).color k).colors := by
  obtain ⟨x', hx', hspilled⟩ := mem_spills_color.1 h
  obtain rfl : x = x' := var?_injective (var?_of_val? hd) hx'
  obtain ⟨y, hadj, hlt, hypin, hcolor⟩ := Coloring.exists_rival_select (symmetric_build f cs)
    (irreflexive_build f cs) (Coloring.pinOf_eq_some_iff.2 ⟨d, hd, hpin, hr⟩) hspilled
  obtain ⟨e, he, hepin, -⟩ := Coloring.pinOf_eq_some_iff.1 hypin
  have hx := var?_of_val? hd
  have hy := var?_of_val? he
  exact ⟨y, e, he, hepin, interferes_build.2 ⟨x, y, hx, hy, hadj⟩, var?_lt hx hy hlt,
    mem_colors_color.2 ⟨y, hy, hcolor⟩⟩

/-- A register that is asked for by a pin goes to no variable without a pin. -/
theorem notMem_colors_of_reserved {x y r : Nat} {d e : Candidate}
    (hd : (build f cs).val? x = some d) (hnone : ∀ q, d.pin = some q → k ≤ q)
    (he : (build f cs).val? y = some e) (hpin : e.pin = some r) (hr : r < k) :
    (d.var, r) ∉ ((build f cs).color k).colors := by
  intro h
  obtain ⟨hsane, -⟩ := Coloring.sane_select (k := k) (symmetric_build f cs)
    (irreflexive_build f cs)
  obtain ⟨x', hx', hcolor⟩ := mem_colors_color.1 h
  obtain rfl : x = x' := var?_injective (var?_of_val? hd) hx'
  rcases hsane.honest x r hcolor with hx | ⟨-, hx⟩
  · obtain ⟨d', hd', hdpin, -⟩ := Coloring.pinOf_eq_some_iff.1 hx
    obtain rfl : d = d' := Option.some.inj (hd.symm.trans hd')
    exact absurd (hnone r hdpin) (not_le.2 hr)
  · exact hx y (Coloring.pinOf_eq_some_iff.2 ⟨e, he, hpin, hr⟩)

/-- **Colouring is proper and keeps to the pins**, whatever the graph, the pins and the number of
registers. -/
theorem colored_color (f : FlowGraph) (cs : Candidates) (k : Nat) :
    (build f cs).Colored k ((build f cs).color k) where
  nodup := nodup_colors_append_spills f cs k
  mem_iff _ := mem_colors_or_spills
  sorted := pairwise_spills f cs k
  bound v r h := by
    obtain ⟨x, -, hcolor⟩ := mem_colors_color.1 h
    exact (Coloring.sane_select (symmetric_build f cs) (irreflexive_build f cs)).1.bound x r hcolor
  proper _ _ _ h hv := notMem_colors_of_interferes h hv
  pinned _ _ _ hd hpin hr := mem_colors_or_mem_spills_of_pin hd hpin hr
  lost_iff x d r hd hpin hr := by
    constructor
    · intro h
      obtain ⟨y, e, he, hepin, hadj, hlt, hcolor⟩ := exists_younger_of_mem_spills hd hpin hr h
      exact ⟨y, e, r, he, hepin, hadj, hlt, hcolor⟩
    · -- a neighbour with the same pin that has a register has this one
      rintro ⟨y, e, q, he, hepin, hadj, -, hq⟩
      obtain rfl := eq_of_mem_colors he hepin hr hq
      exact (mem_colors_or_mem_spills_of_pin hd hpin hr).resolve_left
        fun h => notMem_colors_of_interferes hadj h hq
  reserved _ _ _ _ _ hd hnone he hpin hr := notMem_colors_of_reserved hd hnone he hpin hr

end Interference

end Backend
