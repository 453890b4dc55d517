/-
# Interference

Two candidates interfere when both are live on entry to, or both on exit from, some instruction;
then they cannot share a register.  The graph is built from a table that notes which candidates
occur together in a live set (`together`); `mem_succ_build` says what its edges are.
-/
import Backend.Candidate
import Backend.Flow.Liveness

namespace Backend

/-- Which candidates interfere. -/
abbrev Interference := Digraph Candidate

namespace Interference

/-- The candidate variable at a node. -/
def var? (g : Interference) (id : Nat) : Option Nat := (g.val? id).map (·.var)

/-- The node of a candidate variable. -/
def node? (g : Interference) (v : Nat) : Option Nat :=
  g.vertices.findIdx? fun c => c.val.var == v

/-- Whether two variables are candidates that cannot share a register. -/
def interferes (g : Interference) (a b : Nat) : Bool :=
  match g.node? a, g.node? b with
  | some m, some n => n ∈ g.adj m
  | _, _ => false

/-- The sets of variables that are live together. -/
def liveSets (f : FlowGraph) : List IdSet :=
  f.vertices.toList.flatMap fun v => [v.val.liveIn, v.val.liveOut]

/-- Note that every member of a set has been seen. -/
def markRow (s : IdSet) (row : Array Bool) : Array Bool :=
  s.toList.foldl (fun row b => row.setIfInBounds b true) row

/-- Note for every member of a set that it has been seen together with every member. -/
def markSet (m : Array (Array Bool)) (s : IdSet) : Array (Array Bool) :=
  s.toList.foldl (fun m a => m.modify a (markRow s)) m

/-- What a table of marks says about a row and a column. -/
def marked (m : Array (Array Bool)) (a b : Nat) : Bool := (m.getD a #[]).getD b false

/-- For any two numbers below `n`, whether both are in one of the sets. -/
def together (n : Nat) (sets : List IdSet) : Array (Array Bool) :=
  sets.foldl markSet (Array.replicate n (Array.replicate n false))

/-- The interference graph of candidates. -/
def build (f : FlowGraph) (cs : Candidates) : Interference :=
  let m := together cs.size ((liveSets f).map cs.vars.placesOf)
  Digraph.ofRel cs.toList fun a b => a != b && marked m a b

/-! ## Who interferes with whom -/

theorem getElem?_markRow (s : IdSet) (row : Array Bool) (b : Nat) :
    (markRow s row)[b]? = if b ∈ s ∧ b < row.size then some true else row[b]? :=
  getElem?_foldl_set s.toList true row b

theorem size_markRow (s : IdSet) (row : Array Bool) : (markRow s row).size = row.size := by
  unfold markRow
  generalize s.toList = bs
  induction bs generalizing row with
  | nil => rfl
  | cons b bs ih => rw [List.foldl_cons, ih, Array.size_setIfInBounds]

/-- Marking a set in several rows changes each of these rows once. -/
theorem getElem?_foldl_markRow (s : IdSet) (as : List Nat) (hd : as.Nodup)
    (m : Array (Array Bool)) (a : Nat) :
    (as.foldl (fun m a => m.modify a (markRow s)) m)[a]? =
      if a ∈ as then m[a]?.map (markRow s) else m[a]? := by
  induction as generalizing m with
  | nil => simp
  | cons x as ih =>
    rw [List.nodup_cons] at hd
    rw [List.foldl_cons, ih hd.2, Array.getElem?_modify]
    by_cases hx : x = a
    · subst hx
      simp [hd.1]
    · have hx' : ¬ a = x := fun h => hx h.symm
      simp [hx, hx']

/-- Marking a set changes the rows of its members. -/
theorem getElem?_markSet (m : Array (Array Bool)) (s : IdSet) (a : Nat) :
    (markSet m s)[a]? = if a ∈ s then m[a]?.map (markRow s) else m[a]? :=
  getElem?_foldl_markRow s s.toList s.nodup_toList m a

/-- Marking keeps the length of every row. -/
theorem size_row_markSet (m : Array (Array Bool)) (s : IdSet) (a : Nat) :
    ((markSet m s).getD a #[]).size = (m.getD a #[]).size := by
  rw [Array.getD_eq_getD_getElem?, Array.getD_eq_getD_getElem?, getElem?_markSet]
  by_cases h : a ∈ s
  · rw [if_pos h]
    cases m[a]? with
    | none => rfl
    | some row => exact size_markRow s row
  · rw [if_neg h]

theorem marked_markSet {m : Array (Array Bool)} {s : IdSet} {a b : Nat} :
    marked (markSet m s) a b = true ↔
      marked m a b = true ∨ (a ∈ s ∧ b ∈ s ∧ b < (m.getD a #[]).size) := by
  simp only [marked, Array.getD_eq_getD_getElem?, getElem?_markSet]
  by_cases h : a ∈ s
  · rw [if_pos h]
    cases m[a]? with
    | none => simp
    | some row =>
      simp only [Option.map_some, Option.getD_some, getElem?_markRow]
      by_cases hb : b ∈ s ∧ b < row.size
      · rw [if_pos hb]
        simp [h, hb]
      · rw [if_neg hb]
        simp [h, hb]
  · simp [h]

theorem marked_foldl_markSet {sets : List IdSet} {m : Array (Array Bool)} {a b : Nat} :
    marked (sets.foldl markSet m) a b = true ↔
      marked m a b = true ∨ (b < (m.getD a #[]).size ∧ ∃ s ∈ sets, a ∈ s ∧ b ∈ s) := by
  induction sets generalizing m with
  | nil => simp
  | cons s sets ih =>
    rw [List.foldl_cons, ih, marked_markSet, size_row_markSet]
    constructor
    · rintro ((h | ⟨ha, hb, hlt⟩) | ⟨hlt, t, ht, h⟩)
      · exact Or.inl h
      · exact Or.inr ⟨hlt, s, List.mem_cons_self, ha, hb⟩
      · exact Or.inr ⟨hlt, t, List.mem_cons_of_mem s ht, h⟩
    · rintro (h | ⟨hlt, t, ht, ha, hb⟩)
      · exact Or.inl (Or.inl h)
      · rcases List.mem_cons.1 ht with rfl | ht
        · exact Or.inl (Or.inr ⟨ha, hb, hlt⟩)
        · exact Or.inr ⟨hlt, t, ht, ha, hb⟩

/-- Two numbers are marked exactly when both are below `n` and one of the sets holds both. -/
theorem marked_together {n : Nat} {sets : List IdSet} {a b : Nat} :
    marked (together n sets) a b = true ↔ a < n ∧ b < n ∧ ∃ s ∈ sets, a ∈ s ∧ b ∈ s := by
  rw [together, marked_foldl_markSet]
  simp only [marked, Array.getD_eq_getD_getElem?, Array.getElem?_replicate]
  by_cases ha : a < n
  · by_cases hb : b < n <;> simp [ha, hb]
  · simp [ha]

/-- Two nodes are neighbours exactly when they are the places of two different candidates that are
live together. -/
theorem mem_succ_build {f : FlowGraph} {cs : Candidates} {a b : Nat} :
    b ∈ (build f cs).succ a ↔ a < cs.size ∧ b < cs.size ∧ a ≠ b ∧
      ∃ live ∈ liveSets f, a ∈ cs.vars.placesOf live ∧ b ∈ cs.vars.placesOf live := by
  rw [build, Digraph.mem_succ_ofRel, Bool.and_eq_true, marked_together, bne_iff_ne]
  simp only [List.mem_map]
  constructor
  · rintro ⟨ha, hb, hne, -, -, s, ⟨live, hlive, rfl⟩, h⟩
    exact ⟨ha, hb, hne, live, hlive, h⟩
  · rintro ⟨ha, hb, hne, live, hlive, h⟩
    exact ⟨ha, hb, hne, ha, hb, _, ⟨live, hlive, rfl⟩, h⟩

/-- The number of pairs that interfere. -/
def edgeCount (g : Interference) : Nat := g.vertices.foldl (fun n v => n + v.succ.size) 0 / 2

/-- What is reported about a finished interference graph. -/
def built (g : Interference) : Event := .interferenceBuilt g.size g.edgeCount

end Interference

end Backend
