/-
# Colourings are proper

Handing out registers to the candidates of an interference graph gives neighbours different
registers, stays below the number of registers, honours pins and leaves pinned registers to pinned
candidates (`Selection.Sane`, an invariant of every placement).  Every candidate is placed, so what
has no register is among the spills.
-/
import Mathlib
import Backend.Coloring
import Backend.Proofs.Liveness

namespace Backend

/-! ## The nodes of an interference graph -/

/-- The nodes of a graph that is given by a relation. -/
theorem Digraph.val?_ofRel {α : Type} {vals : List α} {rel : Nat → Nat → Bool} (x : Nat) :
    (ofRel vals rel).val? x = vals[x]? := by
  rw [val?, ofRel, Array.getElem?_mapIdx, List.getElem?_toArray, Option.map_map]
  exact Option.map_id'

namespace Interference

variable {f : FlowGraph} {cs : Candidates}

/-- There is one node for each candidate. -/
@[simp] theorem size_build (f : FlowGraph) (cs : Candidates) :
    (build f cs).size = cs.toList.length := by
  rw [build, Digraph.size_ofRel]

/-- The nodes are the candidates in order. -/
theorem val?_build (f : FlowGraph) (cs : Candidates) (id : Nat) :
    (build f cs).val? id = cs.toList[id]? := Digraph.val?_ofRel id

/-- Which candidates are live. -/
theorem mem_placesOf_vars {z : Nat} {live : IdSet} : z ∈ cs.vars.placesOf live ↔
    ∃ c, cs.toList[z]? = some c ∧ c.var ∈ live := by
  rw [IdSet.mem_placesOf]
  show (∃ a, (cs.toList.map (·.var))[z]? = some a ∧ a ∈ live) ↔ _
  rw [List.getElem?_map]
  constructor
  · rintro ⟨a, ha, hlive⟩
    obtain ⟨c, hc, rfl⟩ := Option.map_eq_some_iff.1 ha
    exact ⟨c, hc, hlive⟩
  · rintro ⟨c, hc, hlive⟩
    exact ⟨c.var, by rw [hc]; rfl, hlive⟩

/-- Neighbours are two different candidates that some live set holds together. -/
theorem mem_adj_build {x y : Nat} : y ∈ (build f cs).adj x ↔
    x ≠ y ∧ ∃ c d, cs.toList[x]? = some c ∧ cs.toList[y]? = some d ∧
      ∃ live ∈ liveSets f, c.var ∈ live ∧ d.var ∈ live := by
  have hpred : y ∈ (build f cs).pred x ↔ x ∈ (build f cs).succ y := by
    rw [build, Digraph.mem_pred_ofRel, Digraph.mem_succ_ofRel]
    tauto
  rw [Digraph.mem_adj, hpred, mem_succ_build, mem_succ_build]
  simp only [mem_placesOf_vars]
  constructor
  · rintro (⟨-, -, hne, live, hlive, ⟨c, hc, hcl⟩, d, hd, hdl⟩ |
      ⟨-, -, hne, live, hlive, ⟨d, hd, hdl⟩, c, hc, hcl⟩)
    · exact ⟨hne, c, d, hc, hd, live, hlive, hcl, hdl⟩
    · exact ⟨hne.symm, c, d, hc, hd, live, hlive, hcl, hdl⟩
  · rintro ⟨hne, c, d, hc, hd, live, hlive, hcl, hdl⟩
    exact Or.inl ⟨(List.getElem?_eq_some_iff.1 hc).1, (List.getElem?_eq_some_iff.1 hd).1, hne, live,
      hlive, ⟨c, hc, hcl⟩, d, hd, hdl⟩

/-- Being neighbours is mutual. -/
def Symmetric (g : Interference) : Prop := ∀ x y, y ∈ g.adj x → x ∈ g.adj y

/-- No node is its own neighbour. -/
def Irreflexive (g : Interference) : Prop := ∀ x, x ∉ g.adj x

/-- Interference goes both ways. -/
theorem symmetric_build (f : FlowGraph) (cs : Candidates) : (build f cs).Symmetric := by
  intro x y h
  obtain ⟨hne, c, d, hc, hd, live, hlive, hcl, hdl⟩ := mem_adj_build.1 h
  exact mem_adj_build.2 ⟨hne.symm, d, c, hd, hc, live, hlive, hdl, hcl⟩

/-- Nothing interferes with itself. -/
theorem irreflexive_build (f : FlowGraph) (cs : Candidates) : (build f cs).Irreflexive :=
  fun _ h => (mem_adj_build.1 h).1 rfl

end Interference

namespace Coloring

/-! ## Taking the graph apart reaches every node -/

namespace Working

@[simp] theorem remaining_detach (removed : Nat) (w : Working) (id : Nat) :
    (detach removed w id).remaining = w.remaining := by
  rw [detach]
  split <;> rfl

@[simp] theorem stack_detach (removed : Nat) (w : Working) (id : Nat) :
    (detach removed w id).stack = w.stack := by
  rw [detach]
  split <;> rfl

/-- Taking a node off its neighbours does not touch what remains. -/
theorem foldl_detach (removed : Nat) (ids : List Nat) (w : Working) :
    (ids.foldl (detach removed) w).remaining = w.remaining ∧
      (ids.foldl (detach removed) w).stack = w.stack := by
  induction ids generalizing w with
  | nil => exact ⟨rfl, rfl⟩
  | cons id ids ih =>
    rw [List.foldl_cons, (ih _).1, (ih _).2, remaining_detach, stack_detach]
    exact ⟨rfl, rfl⟩

/-- A removed node does not remain. -/
theorem remaining_remove (w : Working) (id : Nat) :
    (w.remove id).remaining = w.remaining.filter (· != id) :=
  (foldl_detach id (w.adjacentTo id).toList _).1

/-- A removed node is on top of the stack. -/
theorem stack_remove (w : Working) (id : Nat) : (w.remove id).stack = id :: w.stack :=
  (foldl_detach id (w.adjacentTo id).toList _).2

/-- The nodes are those that have been removed and those that are left. -/
def Complete (g : Interference) (w : Working) : Prop :=
  ∀ id, (id ∈ w.stack ∨ id ∈ w.remaining) ↔ id < g.size

variable {g : Interference} {k : Nat} {w : Working}

/-- Removing a node loses none. -/
theorem Complete.remove (hw : w.Complete g) {id : Nat} (hid : id < g.size) :
    (w.remove id).Complete g := by
  intro x
  rw [stack_remove, remaining_remove, List.mem_cons, List.mem_filter, bne_iff_ne, ← hw x]
  constructor
  · rintro ((rfl | h) | h)
    · exact (hw x).2 hid
    · exact Or.inl h
    · exact Or.inr h.1
  · intro h
    by_cases hx : x = id
    · exact Or.inl (Or.inl hx)
    · exact h.imp Or.inr fun h => ⟨h, hx⟩

/-- Removing several nodes loses none. -/
theorem Complete.foldl_remove (hw : w.Complete g) (ids : List Nat)
    (hids : ∀ id ∈ ids, id < g.size) : (ids.foldl Working.remove w).Complete g := by
  induction ids generalizing w with
  | nil => exact hw
  | cons id ids ih =>
    exact ih (hw.remove (hids id List.mem_cons_self))
      fun x hx => hids x (List.mem_cons_of_mem id hx)

/-- A step removes one of the nodes that are left: one with few neighbours, one with a pin, or, when
all of them have many neighbours, one without a pin in doubt. -/
theorem step_cases (g : Interference) (k : Nat) (w : Working) :
    (w.remaining = [] ∧ w.step g k = w) ∨
      ∃ id ∈ w.remaining,
        (w.step g k = w.remove id ∧ (w.degreeOf id < k ∨ pinOf g k id ≠ none)) ∨
        (w.step g k = (w.doubt id).remove id ∧ pinOf g k id = none ∧
          ∀ x ∈ w.remaining, k ≤ w.degreeOf x) := by
  rw [step]
  split
  · rename_i id hfind
    have hfew := List.find?_some hfind
    rw [decide_eq_true_eq] at hfew
    exact Or.inr ⟨id, List.mem_of_find?_eq_some hfind, Or.inl ⟨rfl, Or.inl hfew⟩⟩
  · rename_i hfind
    have hmany : ∀ x ∈ w.remaining, k ≤ w.degreeOf x := by
      intro x hx
      have hnot := List.find?_eq_none.1 hfind x hx
      rwa [decide_eq_true_eq, not_lt] at hnot
    split
    · rename_i hnil
      exact Or.inl ⟨hnil, rfl⟩
    · rename_i id rest hcons
      refine Or.inr ⟨id, by rw [hcons]; exact List.mem_cons_self, ?_⟩
      split
      · rename_i hpin
        exact Or.inl ⟨rfl, Or.inr (Option.isSome_iff_ne_none.1 hpin)⟩
      · rename_i hpin
        exact Or.inr ⟨rfl, by rwa [Option.not_isSome_iff_eq_none] at hpin, hmany⟩

/-- **Step lemma.**  A step of dismantling loses no node. -/
theorem Complete.step (hw : w.Complete g) : (w.step g k).Complete g := by
  rcases step_cases g k w with ⟨-, heq⟩ | ⟨id, hid, ⟨heq, -⟩ | ⟨heq, -⟩⟩
  · rw [heq]
    exact hw
  · rw [heq]
    exact hw.remove ((hw id).1 (Or.inr hid))
  · have hdoubt : (w.doubt id).Complete g := hw
    rw [heq]
    exact hdoubt.remove ((hw id).1 (Or.inr hid))

/-- A step of dismantling removes at least one node, as long as there are any. -/
theorem length_remaining_step (w : Working) :
    (w.step g k).remaining.length ≤ w.remaining.length - 1 := by
  have hlt : ∀ id ∈ w.remaining,
      (w.remaining.filter (· != id)).length ≤ w.remaining.length - 1 := by
    intro id hid
    have h : (w.remaining.filter (· != id)).length < w.remaining.length :=
      List.length_filter_lt_length_iff_exists.2 ⟨id, hid, by simp⟩
    omega
  rcases step_cases g k w with ⟨hnil, heq⟩ | ⟨id, hid, ⟨heq, -⟩ | ⟨heq, -⟩⟩
  · rw [heq, hnil]
    exact le_refl _
  · rw [heq, remaining_remove]
    exact hlt id hid
  · rw [heq, remaining_remove]
    exact hlt id hid

/-- As many steps as there are nodes left remove them all. -/
theorem Complete.steps (hw : w.Complete g) (n : Nat) (hn : w.remaining.length ≤ n) :
    (Working.steps g k n w).Complete g ∧ (Working.steps g k n w).remaining = [] := by
  induction n generalizing w with
  | zero => exact ⟨hw, List.length_eq_zero_iff.1 (Nat.le_zero.1 hn)⟩
  | succ n ih =>
    have hlen := length_remaining_step (g := g) (k := k) w
    exact ih hw.step (by omega)

/-- Taking the graph apart removes every node. -/
theorem mem_stack_dismantle {id : Nat} : id ∈ (dismantle g k).stack ↔ id < g.size := by
  have hstart : (ofGraph g).Complete g := by
    intro x
    show x ∈ [] ∨ x ∈ List.range g.size ↔ x < g.size
    rw [List.mem_range, or_iff_right List.not_mem_nil]
  have hpins : ((ofGraph g).removeEasyPins g k).Complete g :=
    hstart.foldl_remove _ fun x hx => List.mem_range.1 (List.mem_filter.1 hx).1
  obtain ⟨hdone, hnil⟩ := hpins.steps (k := k) _ (le_refl _)
  have hiff := hdone id
  rwa [hnil, or_iff_left List.not_mem_nil] at hiff

end Working

/-! ## Placing one node -/

namespace Selection

variable {g : Interference} {k : Nat}

/-- The registers handed out are proper: neighbours have different ones, all are below `k`, a pinned
node has the register it is pinned to, and no other node has a register some node is pinned to. -/
structure Sane (g : Interference) (k : Nat) (s : Selection) : Prop where
  size_colors : s.colors.size = g.size
  proper : ∀ x y r, y ∈ g.adj x → s.colorOf x = some r → s.colorOf y ≠ some r
  bound : ∀ x r, s.colorOf x = some r → r < k
  honest : ∀ x r, s.colorOf x = some r →
    pinOf g k x = some r ∨ (pinOf g k x = none ∧ ∀ y, pinOf g k y ≠ some r)

/-- The colors after a node has been colored. -/
theorem colorOf_assign (s : Selection) (id r x : Nat) (hid : id < s.colors.size) :
    (s.assign id r).colorOf x = if id = x then some r else s.colorOf x := by
  rw [colorOf, colorOf, assign, Array.getElem?_setIfInBounds]
  by_cases h : id = x
  · subst h
    rw [if_pos rfl, if_pos rfl, if_pos hid]
    rfl
  · rw [if_neg h, if_neg h]

/-- The colors in use around a node. -/
theorem mem_usedAround {s : Selection} {id r : Nat} :
    r ∈ s.usedAround g id ↔ ∃ y ∈ g.adj id, s.colorOf y = some r := by
  rw [usedAround, List.mem_filterMap]
  rfl

/-- **Step lemma.**  A register that no neighbour uses can be given to a node it suits. -/
theorem Sane.assign {s : Selection} (hs : s.Sane g k) (hsym : g.Symmetric) (hirr : g.Irreflexive)
    {id r : Nat} (hid : id < g.size) (hr : r < k) (hfree : r ∉ s.usedAround g id)
    (hpin : pinOf g k id = some r ∨ (pinOf g k id = none ∧ ∀ y, pinOf g k y ≠ some r)) :
    (s.assign id r).Sane g k := by
  have hcolor := fun x => colorOf_assign s id r x (by rw [hs.size_colors]; exact hid)
  refine ⟨?_, ?_, ?_, ?_⟩
  · show (s.colors.setIfInBounds id (some r)).size = _
    rw [Array.size_setIfInBounds, hs.size_colors]
  · intro x y q hadj hx hy
    rw [hcolor] at hx hy
    split_ifs at hx hy with hidx hidy hidy
    · subst hidx
      subst hidy
      exact hirr id hadj
    · subst hidx
      obtain rfl : r = q := Option.some.inj hx
      exact hfree (mem_usedAround.2 ⟨y, hadj, hy⟩)
    · subst hidy
      obtain rfl : r = q := Option.some.inj hy
      exact hfree (mem_usedAround.2 ⟨x, hsym x id hadj, hx⟩)
    · exact hs.proper x y q hadj hx hy
  · intro x q hx
    rw [hcolor] at hx
    split_ifs at hx with hidx
    · exact Option.some.inj hx ▸ hr
    · exact hs.bound x q hx
  · intro x q hx
    rw [hcolor] at hx
    split_ifs at hx with hidx
    · subst hidx
      obtain rfl : r = q := Option.some.inj hx
      exact hpin
    · exact hs.honest x q hx

/-- Spilling a node colors nothing, so it breaks nothing. -/
theorem Sane.spill {s : Selection} (hs : s.Sane g k) (id : Nat) : (s.spill id).Sane g k :=
  ⟨hs.size_colors, hs.proper, hs.bound, hs.honest⟩

/-- What is listed as pinned is pinned. -/
theorem mem_pins {p : Nat × Nat} (h : p ∈ pins g k) : p.1 < g.size ∧ pinOf g k p.1 = some p.2 := by
  obtain ⟨id, hid, hp⟩ := List.mem_filterMap.1 h
  obtain ⟨r, hr, rfl⟩ := Option.map_eq_some_iff.1 hp
  exact ⟨List.mem_range.1 hid, hr⟩

/-- Pins are colors. -/
theorem pinOf_lt {id r : Nat} (h : pinOf g k id = some r) : r < k := by
  have h' := (Option.filter_eq_some_iff.1 h).2
  simpa using h'

theorem lt_size_of_pinOf {id r : Nat} (h : pinOf g k id = some r) : id < g.size := by
  obtain ⟨c, hc, -⟩ := Option.bind_eq_some_iff.1 (Option.filter_eq_some_iff.1 h).1
  obtain ⟨x, hx, -⟩ := Option.map_eq_some_iff.1 hc
  exact (Array.getElem?_eq_some_iff.1 hx).1

theorem mem_pins_of_pinOf {id r : Nat} (h : pinOf g k id = some r) : (id, r) ∈ pins g k :=
  List.mem_filterMap.2 ⟨id, List.mem_range.2 (lt_size_of_pinOf h), by rw [h]; rfl⟩

/-- **Step lemma.**  Coloring a pinned node breaks nothing. -/
theorem Sane.placePinned {s : Selection} (hs : s.Sane g k) (hsym : g.Symmetric)
    (hirr : g.Irreflexive) {p : Nat × Nat} (hp : p ∈ pins g k) : (s.placePinned g p).Sane g k := by
  obtain ⟨hlt, hpin⟩ := mem_pins hp
  rw [Selection.placePinned]
  split
  · have h := hs.spill p.1
    exact ⟨h.size_colors, h.proper, h.bound, h.honest⟩
  · exact hs.assign hsym hirr hlt (pinOf_lt hpin) ‹_› (Or.inl hpin)

/-- **Step lemma.**  Coloring a node that is not pinned breaks nothing. -/
theorem Sane.placeFree {s : Selection} (hs : s.Sane g k) (hsym : g.Symmetric)
    (hirr : g.Irreflexive) {id : Nat} (hid : id < g.size) (hnone : pinOf g k id = none) :
    (s.placeFree g k ((pins g k).map (·.2)) id).Sane g k := by
  rw [Selection.placeFree]
  split
  · rename_i r hr
    obtain ⟨hlt, hfree, -⟩ := lowestFree_eq_some_iff.1 hr
    rw [List.mem_append, not_or] at hfree
    refine hs.assign hsym hirr hid hlt hfree.2 (Or.inr ⟨hnone, fun y hy => hfree.1 ?_⟩)
    exact List.mem_map.2 ⟨(y, r), mem_pins_of_pinOf hy, rfl⟩
  · exact hs.spill id

/-! ## Placing all nodes -/

/-- A node has been placed: it has a register or is spilled. -/
def Placed (s : Selection) (id : Nat) : Prop := s.colorOf id ≠ none ∨ id ∈ s.spilled

theorem Placed.assign {s : Selection} {x : Nat} (h : s.Placed x) (id r : Nat) :
    (s.assign id r).Placed x := by
  rcases h with h | h
  · left
    rw [colorOf, Selection.assign, Array.getElem?_setIfInBounds]
    by_cases hx : id = x
    · rw [if_pos hx]
      split
      · simp
      · rename_i hlt
        rw [colorOf, Array.getElem?_eq_none (by omega)] at h
        exact absurd rfl h
    · rw [if_neg hx]
      exact h
  · exact Or.inr h

theorem Placed.spill {s : Selection} {x : Nat} (h : s.Placed x) (id : Nat) :
    (s.spill id).Placed x := by
  rcases h with h | h
  · exact Or.inl h
  · exact Or.inr (List.mem_cons_of_mem id h)

/-- A pinned node gets its color or is spilled. -/
theorem placed_placePinned {s : Selection} (hs : s.Sane g k) {p : Nat × Nat} (hp : p ∈ pins g k) :
    (s.placePinned g p).Placed p.1 ∧ ∀ x, s.Placed x → (s.placePinned g p).Placed x := by
  rw [Selection.placePinned]
  split
  · exact ⟨Or.inr List.mem_cons_self, fun x hx => hx.spill p.1⟩
  · refine ⟨Or.inl ?_, fun x hx => hx.assign _ _⟩
    rw [colorOf_assign _ _ _ _ (by rw [hs.size_colors]; exact (mem_pins hp).1), if_pos rfl]
    simp

/-- A node that is not pinned gets a color or is spilled. -/
theorem placed_placeFree {s : Selection} (hs : s.Sane g k) (reserved : List Nat) {id : Nat}
    (hid : id < g.size) :
    (s.placeFree g k reserved id).Placed id ∧
      ∀ x, s.Placed x → (s.placeFree g k reserved id).Placed x := by
  rw [Selection.placeFree]
  split
  · refine ⟨Or.inl ?_, fun x hx => hx.assign _ _⟩
    rw [colorOf_assign _ _ _ _ (by rw [hs.size_colors]; exact hid), if_pos rfl]
    simp
  · exact ⟨Or.inr List.mem_cons_self, fun x hx => hx.spill id⟩

/-- **Run lemma** for the pinned nodes. -/
theorem Sane.foldl_placePinned {s : Selection} (hs : s.Sane g k) (hsym : g.Symmetric)
    (hirr : g.Irreflexive) (ps : List (Nat × Nat)) (hps : ∀ p ∈ ps, p ∈ pins g k) :
    (ps.foldl (Selection.placePinned g) s).Sane g k ∧
      (∀ x, s.Placed x → (ps.foldl (Selection.placePinned g) s).Placed x) ∧
      ∀ p ∈ ps, (ps.foldl (Selection.placePinned g) s).Placed p.1 := by
  induction ps generalizing s with
  | nil => exact ⟨hs, fun _ h => h, fun p hp => absurd hp List.not_mem_nil⟩
  | cons p ps ih =>
    have hp := hps p List.mem_cons_self
    obtain ⟨hself, hkeep⟩ := placed_placePinned hs hp
    obtain ⟨hsane, hmono, hall⟩ := ih (hs.placePinned hsym hirr hp)
      fun q hq => hps q (List.mem_cons_of_mem p hq)
    refine ⟨hsane, fun x hx => hmono x (hkeep x hx), fun q hq => ?_⟩
    rcases List.mem_cons.1 hq with rfl | hq
    · exact hmono q.1 hself
    · exact hall q hq

/-- **Run lemma** for the nodes without a pin. -/
theorem Sane.foldl_placeFree {s : Selection} (hs : s.Sane g k) (hsym : g.Symmetric)
    (hirr : g.Irreflexive) (ids : List Nat)
    (hids : ∀ id ∈ ids, id < g.size ∧ pinOf g k id = none) :
    (ids.foldl (Selection.placeFree g k ((pins g k).map (·.2))) s).Sane g k ∧
      (∀ x, s.Placed x →
        (ids.foldl (Selection.placeFree g k ((pins g k).map (·.2))) s).Placed x) ∧
      ∀ id ∈ ids, (ids.foldl (Selection.placeFree g k ((pins g k).map (·.2))) s).Placed id := by
  induction ids generalizing s with
  | nil => exact ⟨hs, fun _ h => h, fun id hid => absurd hid List.not_mem_nil⟩
  | cons id ids ih =>
    obtain ⟨hlt, hnone⟩ := hids id List.mem_cons_self
    obtain ⟨hself, hkeep⟩ := placed_placeFree hs ((pins g k).map (·.2)) hlt
    obtain ⟨hsane, hmono, hall⟩ := ih (hs.placeFree hsym hirr hlt hnone)
      fun x hx => hids x (List.mem_cons_of_mem id hx)
    refine ⟨hsane, fun x hx => hmono x (hkeep x hx), fun x hx => ?_⟩
    rcases List.mem_cons.1 hx with rfl | hx
    · exact hmono x hself
    · exact hall x hx

end Selection

variable {g : Interference} {k : Nat}

/-- The nodes that are colored in the order of the stack. -/
theorem mem_freeOrder {w : Working} {id : Nat} :
    id ∈ freeOrder g k w ↔ id ∈ w.stack ∧ pinOf g k id = none := by
  simp only [freeOrder, List.mem_append, List.mem_filter, Option.isNone_iff_eq_none,
    decide_eq_true_iff]
  tauto

/-- Before any node is placed, none has a register. -/
theorem colorOf_start (n x : Nat) :
    Selection.colorOf { colors := Array.replicate n none } x = none := by
  rw [Selection.colorOf, Array.getElem?_replicate]
  split <;> rfl

/-- Where nothing is colored, nothing is wrong. -/
theorem sane_start : Selection.Sane g k { colors := Array.replicate g.size none } := by
  refine ⟨Array.size_replicate, fun x y r _ hx => ?_, fun x r hx => ?_, fun x r hx => ?_⟩ <;>
    exact absurd ((colorOf_start g.size x).symm.trans hx) (Option.some_ne_none r).symm

/-- **The registers selected are proper and every node has been placed.** -/
theorem sane_select (hsym : g.Symmetric) (hirr : g.Irreflexive) :
    (select g k (Working.dismantle g k)).Sane g k ∧
      ∀ id < g.size, (select g k (Working.dismantle g k)).Placed id := by
  obtain ⟨hpinned, -, hallPinned⟩ := sane_start.foldl_placePinned hsym hirr (pins g k).reverse
    fun p hp => List.mem_reverse.1 hp
  have hfree : ∀ id ∈ freeOrder g k (Working.dismantle g k),
      id < g.size ∧ pinOf g k id = none := by
    intro id hid
    obtain ⟨hstack, hpin⟩ := mem_freeOrder.1 hid
    exact ⟨Working.mem_stack_dismantle.1 hstack, hpin⟩
  obtain ⟨hsane, hmono, hallFree⟩ := hpinned.foldl_placeFree hsym hirr _ hfree
  refine ⟨hsane, fun id hid => ?_⟩
  -- a pinned node is placed by the first pass, any other by the second
  cases hpin : pinOf g k id with
  | some r =>
    exact hmono id (hallPinned (id, r) (List.mem_reverse.2 (Selection.mem_pins_of_pinOf hpin)))
  | none => exact hallFree id (mem_freeOrder.2 ⟨Working.mem_stack_dismantle.2 hid, hpin⟩)

end Coloring

/-! ## What a colouring promises about variables -/

namespace Candidate

/-- The pin of a candidate, if it is among the first `k` registers. -/
def effectivePin (k : Nat) (c : Candidate) : Option Nat := c.pin.filter (· < k)

end Candidate

/-- What a colouring of candidates with `k` registers promises. -/
structure Coloring.Fits (c : Coloring) (k : Nat) (cs : Candidates) (sets : List IdSet) :
    Prop where
  candidate : ∀ v r, c.register? v = some r → ∃ d ∈ cs.toList, d.var = v
  bound : ∀ v r, c.register? v = some r → r < k
  /-- Variables that are live together have different registers. -/
  proper : ∀ live ∈ sets, ∀ v ∈ live, ∀ w ∈ live, v ≠ w → ∀ r, c.register? v = some r →
    c.register? w ≠ some r
  /-- A register is the pin of the variable, or the variable has no pin and no other one has this
  register for a pin. -/
  honest : ∀ d ∈ cs.toList, ∀ r, c.register? d.var = some r → d.effectivePin k = some r ∨
    (d.effectivePin k = none ∧ ∀ e ∈ cs.toList, e.effectivePin k ≠ some r)
  complete : ∀ d ∈ cs.toList, (∃ r, c.register? d.var = some r) ∨ d.var ∈ c.spills
  spilled : ∀ v ∈ c.spills, ∃ d ∈ cs.toList, d.var = v
  nodup : c.spills.Nodup

namespace Interference

variable {f : FlowGraph} {cs : Candidates} {k : Nat}

/-- The nodes stand for the candidates, in order. -/
theorem var?_build_eq_some {id v : Nat} :
    (build f cs).var? id = some v ↔ ∃ d, cs.toList[id]? = some d ∧ d.var = v := by
  rw [var?, val?_build]
  exact Option.map_eq_some_iff

/-- The nodes stand for increasing variables. -/
theorem var?_lt {x y v w : Nat} (hx : (build f cs).var? x = some v)
    (hy : (build f cs).var? y = some w) (hlt : x < y) : v < w := by
  obtain ⟨c, hc, rfl⟩ := var?_build_eq_some.1 hx
  obtain ⟨d, hd, rfl⟩ := var?_build_eq_some.1 hy
  obtain ⟨hx', rfl⟩ := List.getElem?_eq_some_iff.1 hc
  obtain ⟨hy', rfl⟩ := List.getElem?_eq_some_iff.1 hd
  exact List.pairwise_iff_getElem.1 cs.sorted x y hx' hy' hlt

/-- A candidate variable has one node. -/
theorem var?_injective {x y v : Nat} (hx : (build f cs).var? x = some v)
    (hy : (build f cs).var? y = some v) : x = y := by
  rcases Nat.lt_trichotomy x y with hlt | heq | hlt
  · exact absurd (var?_lt hx hy hlt) (lt_irrefl v)
  · exact heq
  · exact absurd (var?_lt hy hx hlt) (lt_irrefl v)

theorem lt_size_of_var? {g : Interference} {x v : Nat} (h : g.var? x = some v) : x < g.size := by
  obtain ⟨d, hd, -⟩ := Option.map_eq_some_iff.1 h
  obtain ⟨n, hn, -⟩ := Option.map_eq_some_iff.1 hd
  exact (Array.getElem?_eq_some_iff.1 hn).1

/-- The pins of a graph are those of the candidates. -/
theorem pinOf_build {id : Nat} {d : Candidate} (hd : cs.toList[id]? = some d) :
    Coloring.pinOf (build f cs) k id = d.effectivePin k := by
  rw [Coloring.pinOf, val?_build, hd]
  rfl

/-- The registers are those of the nodes. -/
theorem mem_colors_color {g : Interference} {v r : Nat} : (v, r) ∈ (g.color k).colors ↔
    ∃ id, g.var? id = some v ∧
      (Coloring.select g k (Coloring.Working.dismantle g k)).colorOf id = some r := by
  set s := Coloring.select g k (Coloring.Working.dismantle g k)
  show (v, r) ∈ g.ids.filterMap (fun id => do return (← g.var? id, ← s.colorOf id)) ↔ _
  rw [List.mem_filterMap]
  constructor
  · rintro ⟨id, -, hq⟩
    obtain ⟨a, ha, hq⟩ := Option.bind_eq_some_iff.1 hq
    obtain ⟨c, hc, hq⟩ := Option.bind_eq_some_iff.1 hq
    obtain ⟨rfl, rfl⟩ := Prod.mk.inj (Option.some.inj hq)
    exact ⟨id, ha, hc⟩
  · rintro ⟨id, hv, hc⟩
    exact ⟨id, List.mem_range.2 (lt_size_of_var? hv), by rw [hv, hc]; rfl⟩

/-- The spills are the variables of the spilled nodes. -/
theorem mem_spills_color {g : Interference} {v : Nat} : v ∈ (g.color k).spills ↔
    ∃ id, g.var? id = some v ∧
      id ∈ (Coloring.select g k (Coloring.Working.dismantle g k)).spilled := by
  set s := Coloring.select g k (Coloring.Working.dismantle g k)
  show v ∈ (g.ids.filter fun id => decide (id ∈ s.spilled)).filterMap g.var? ↔ _
  simp only [List.mem_filterMap, List.mem_filter, decide_eq_true_eq]
  constructor
  · rintro ⟨id, ⟨-, hid⟩, hv⟩
    exact ⟨id, hv, hid⟩
  · rintro ⟨id, hv, hid⟩
    exact ⟨id, ⟨List.mem_range.2 (lt_size_of_var? hv), hid⟩, hv⟩

/-- The register of a variable is that of its node. -/
theorem register?_color {v r : Nat} : ((build f cs).color k).register? v = some r ↔
    ∃ id, (build f cs).var? id = some v ∧
      (Coloring.select (build f cs) k (Coloring.Working.dismantle (build f cs) k)).colorOf id =
        some r := by
  rw [← mem_colors_color]
  constructor
  · exact mem_of_lookup_eq_some
  · intro h
    -- the first entry for `v` is that of some node of `v`, of which there is only one
    cases hlook : ((build f cs).color k).register? v with
    | none => exact absurd (List.lookup_eq_none_iff.1 hlook (v, r) h) (by simp)
    | some q =>
      obtain ⟨id, hv, hc⟩ := mem_colors_color.1 h
      obtain ⟨id', hv', hc'⟩ := mem_colors_color.1 (mem_of_lookup_eq_some hlook)
      obtain rfl : id = id' := var?_injective hv hv'
      rw [← hc, ← hc']

/-- **Colouring keeps its promises.** -/
theorem fits_color (f : FlowGraph) (cs : Candidates) (k : Nat) :
    ((build f cs).color k).Fits k cs (liveSets f) := by
  obtain ⟨hsane, hplaced⟩ := Coloring.sane_select (k := k) (symmetric_build f cs)
    (irreflexive_build f cs)
  have hvar : ∀ {id : Nat} {d : Candidate}, cs.toList[id]? = some d →
      (build f cs).var? id = some d.var := fun h => var?_build_eq_some.2 ⟨_, h, rfl⟩
  refine ⟨fun v r h => ?_, fun v r h => ?_, ?_, ?_, ?_, ?_, ?_⟩
  · obtain ⟨id, hv, -⟩ := register?_color.1 h
    obtain ⟨d, hd, hdv⟩ := var?_build_eq_some.1 hv
    exact ⟨d, List.mem_of_getElem? hd, hdv⟩
  · obtain ⟨id, -, hc⟩ := register?_color.1 h
    exact hsane.bound id r hc
  · intro live hlive v hv w hw hne r hr hr'
    obtain ⟨x, hx, hcx⟩ := register?_color.1 hr
    obtain ⟨y, hy, hcy⟩ := register?_color.1 hr'
    obtain ⟨c, hc, rfl⟩ := var?_build_eq_some.1 hx
    obtain ⟨d, hd, rfl⟩ := var?_build_eq_some.1 hy
    have hxy : x ≠ y := by
      rintro rfl
      exact hne (congrArg Candidate.var (Option.some.inj (hc.symm.trans hd)))
    exact hsane.proper x y r (mem_adj_build.2 ⟨hxy, c, d, hc, hd, live, hlive, hv, hw⟩) hcx hcy
  · intro d hd r hr
    obtain ⟨id, hv, hc⟩ := register?_color.1 hr
    obtain ⟨id', hid'⟩ := List.getElem?_of_mem hd
    obtain rfl : id = id' := var?_injective hv (hvar hid')
    have hhonest := hsane.honest id r hc
    rw [pinOf_build hid'] at hhonest
    refine hhonest.imp_right fun h => ⟨h.1, fun e he => ?_⟩
    obtain ⟨y, hy⟩ := List.getElem?_of_mem he
    have := h.2 y
    rwa [pinOf_build hy] at this
  · intro d hd
    obtain ⟨id, hid⟩ := List.getElem?_of_mem hd
    have hlt : id < (build f cs).size := by
      rw [size_build]
      exact (List.getElem?_eq_some_iff.1 hid).1
    rcases hplaced id hlt with h | h
    · obtain ⟨r, hr⟩ := Option.ne_none_iff_exists'.1 h
      exact Or.inl ⟨r, register?_color.2 ⟨id, hvar hid, hr⟩⟩
    · exact Or.inr (mem_spills_color.2 ⟨id, hvar hid, h⟩)
  · intro v hv
    obtain ⟨id, hid, -⟩ := mem_spills_color.1 hv
    obtain ⟨d, hd, hdv⟩ := var?_build_eq_some.1 hid
    exact ⟨d, List.mem_of_getElem? hd, hdv⟩
  · refine List.Nodup.filterMap ?_ (List.Nodup.filter _ List.nodup_range)
    intro x y v hx hy
    exact var?_injective hx hy

end Interference

end Backend
