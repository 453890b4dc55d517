/-
# Finite sets of identifiers

Identifiers (of instructions, variables, graph vertices) are natural numbers, and a finite set of
them is the strictly increasing list of its members.  The order belongs to the type, so that two
sets with the same members are equal (`IdSet.ext`) and listing a set always gives the same list.

Everything outside this file looks at a set through membership: `mem_insert`, `mem_union`,
`mem_erase`, `mem_filter`, `mem_ofList` say what each operation does to it.
-/

namespace Backend

/-! ## Strictly increasing lists -/

/-- Insert a number into an increasing list at its place, once. -/
def insertAsc (a : Nat) : List Nat → List Nat
  | [] => [a]
  | x :: xs => if a < x then a :: x :: xs else if a = x then x :: xs else x :: insertAsc a xs

theorem mem_insertAsc {a b : Nat} {xs : List Nat} : b ∈ insertAsc a xs ↔ b = a ∨ b ∈ xs := by
  induction xs with
  | nil => simp [insertAsc]
  | cons x xs ih => grind [insertAsc]

/-- Inserting keeps a list ascending. -/
theorem pairwise_insertAsc {a : Nat} {xs : List Nat} (h : xs.Pairwise (· < ·)) :
    (insertAsc a xs).Pairwise (· < ·) := by
  induction xs with
  | nil => simp [insertAsc]
  | cons x xs ih =>
    rw [List.pairwise_cons] at h
    unfold insertAsc
    split
    · rw [List.pairwise_cons, List.pairwise_cons]
      exact ⟨fun y hy => by rcases List.mem_cons.1 hy with rfl | hy <;> grind, h⟩
    · split
      · exact List.pairwise_cons.2 h
      · rw [List.pairwise_cons]
        refine ⟨fun y hy => ?_, ih h.2⟩
        rcases mem_insertAsc.1 hy with rfl | hy
        · omega
        · exact h.1 y hy

/-- Put `a` into an increasing list whose part above `a` is still to be merged by `rest`. -/
def mergeStep (a : Nat) (rest : List Nat → List Nat) : List Nat → List Nat
  | [] => a :: rest []
  | y :: ys =>
    if a < y then a :: rest (y :: ys)
    else if a = y then a :: rest ys
    else y :: mergeStep a rest ys

/-- Merge two increasing lists in one pass, keeping a common number once. -/
def mergeAsc : List Nat → List Nat → List Nat
  | [] => fun ys => ys
  | x :: xs => mergeStep x (mergeAsc xs)

/-- One step of a merge: what the rest of the merge has, and one more number. -/
theorem mem_mergeStep {a b : Nat} {xs : List Nat} {rest : List Nat → List Nat}
    (h : ∀ zs, b ∈ rest zs ↔ b ∈ xs ∨ b ∈ zs) (ys : List Nat) :
    b ∈ mergeStep a rest ys ↔ b ∈ a :: xs ∨ b ∈ ys := by
  induction ys with
  | nil => simp [mergeStep, h]
  | cons y ys ih => grind [mergeStep]

/-- A merge has the numbers of both lists. -/
theorem mem_mergeAsc {b : Nat} {xs ys : List Nat} : b ∈ mergeAsc xs ys ↔ b ∈ xs ∨ b ∈ ys := by
  induction xs generalizing ys with
  | nil => simp [mergeAsc]
  | cons x xs ih => exact mem_mergeStep (fun _ => ih) ys

/-- Merging keeps lists ascending. -/
theorem pairwise_mergeAsc {xs ys : List Nat} (hx : xs.Pairwise (· < ·))
    (hy : ys.Pairwise (· < ·)) : (mergeAsc xs ys).Pairwise (· < ·) := by
  induction xs generalizing ys with
  | nil => simpa [mergeAsc] using hy
  | cons x xs ih =>
    rw [List.pairwise_cons] at hx
    show (mergeStep x (mergeAsc xs) ys).Pairwise (· < ·)
    induction ys with
    | nil =>
      refine List.pairwise_cons.2 ⟨fun z hz => ?_, ih hx.2 List.Pairwise.nil⟩
      exact hx.1 z ((mem_mergeAsc.1 hz).resolve_right List.not_mem_nil)
    | cons y ys ihy =>
      have hy' := List.pairwise_cons.1 hy
      unfold mergeStep
      split
      · refine List.pairwise_cons.2 ⟨fun z hz => ?_, ih hx.2 hy⟩
        rcases mem_mergeAsc.1 hz with hz | hz
        · exact hx.1 z hz
        · rcases List.mem_cons.1 hz with rfl | hz
          · assumption
          · exact Nat.lt_trans ‹x < y› (hy'.1 z hz)
      · split
        · subst y
          refine List.pairwise_cons.2 ⟨fun z hz => ?_, ih hx.2 hy'.2⟩
          rcases mem_mergeAsc.1 hz with hz | hz
          · exact hx.1 z hz
          · exact hy'.1 z hz
        · refine List.pairwise_cons.2 ⟨fun z hz => ?_, ihy hy'.2⟩
          rcases (mem_mergeStep (fun _ => mem_mergeAsc) ys).1 hz with hz | hz
          · rcases List.mem_cons.1 hz with rfl | hz
            · omega
            · have := hx.1 z hz
              omega
          · exact hy'.1 z hz

/-- Two strictly increasing lists with the same members are equal. -/
theorem eq_of_pairwise_lt {xs ys : List Nat} (hx : xs.Pairwise (· < ·))
    (hy : ys.Pairwise (· < ·)) (h : ∀ a, a ∈ xs ↔ a ∈ ys) : xs = ys := by
  induction xs generalizing ys with
  | nil =>
    cases ys with
    | nil => rfl
    | cons y ys => exact absurd ((h y).2 List.mem_cons_self) List.not_mem_nil
  | cons x xs ih =>
    cases ys with
    | nil => exact absurd ((h x).1 List.mem_cons_self) List.not_mem_nil
    | cons y ys =>
      rw [List.pairwise_cons] at hx hy
      have hxy : x = y := by
        rcases List.mem_cons.1 ((h x).1 List.mem_cons_self) with hx1 | hx1
        · exact hx1
        · rcases List.mem_cons.1 ((h y).2 List.mem_cons_self) with hy1 | hy1
          · exact hy1.symm
          · exact absurd (Nat.lt_trans (hx.1 y hy1) (hy.1 x hx1)) (Nat.lt_irrefl x)
      subst hxy
      congr 1
      refine ih hx.2 hy.2 fun a => ⟨fun ha => ?_, fun ha => ?_⟩
      · rcases List.mem_cons.1 ((h a).1 (List.mem_cons_of_mem x ha)) with rfl | hm
        · exact absurd (hx.1 a ha) (Nat.lt_irrefl a)
        · exact hm
      · rcases List.mem_cons.1 ((h a).2 (List.mem_cons_of_mem x ha)) with rfl | hm
        · exact absurd (hy.1 a ha) (Nat.lt_irrefl a)
        · exact hm

/-- The places, counted from `n`, of those entries of an increasing list that are also in another
one, found in one pass over both. -/
def placesFrom (n : Nat) : List Nat → List Nat → List Nat
  | [], _ => []
  | x :: xs, ys =>
    match ys.dropWhile (· < x) with
    | [] => []
    | y :: rest =>
      if x = y then n :: placesFrom (n + 1) xs rest else placesFrom (n + 1) xs (y :: rest)

/-- Places are counted from the given number. -/
theorem le_of_mem_placesFrom {n m : Nat} {xs ys : List Nat} (h : m ∈ placesFrom n xs ys) :
    n ≤ m := by
  induction xs generalizing n ys with
  | nil => exact absurd h List.not_mem_nil
  | cons x xs ih =>
    unfold placesFrom at h
    split at h
    · exact absurd h List.not_mem_nil
    · split at h
      · rcases List.mem_cons.1 h with rfl | h
        · exact Nat.le_refl m
        · exact Nat.le_of_succ_le (ih h)
      · exact Nat.le_of_succ_le (ih h)

/-- Places are listed in ascending order. -/
theorem pairwise_placesFrom (n : Nat) (xs ys : List Nat) :
    (placesFrom n xs ys).Pairwise (· < ·) := by
  induction xs generalizing n ys with
  | nil => exact List.Pairwise.nil
  | cons x xs ih =>
    unfold placesFrom
    split
    · exact List.Pairwise.nil
    · split
      · exact List.pairwise_cons.2 ⟨fun m hm => le_of_mem_placesFrom hm, ih _ _⟩
      · exact ih _ _

/-- In an increasing list, what is at least `x` is what remains after dropping all that is less. -/
theorem mem_dropWhile_lt {x a : Nat} {ys : List Nat} (hy : ys.Pairwise (· < ·)) :
    a ∈ ys.dropWhile (· < x) ↔ a ∈ ys ∧ x ≤ a := by
  induction ys with
  | nil => simp
  | cons y ys ih =>
    rw [List.pairwise_cons] at hy
    rw [List.dropWhile_cons]
    split
    · rename_i hlt
      rw [ih hy.2, List.mem_cons]
      simp only [decide_eq_true_eq] at hlt
      constructor
      · intro h
        exact ⟨Or.inr h.1, h.2⟩
      · rintro ⟨rfl | h, hx⟩
        · omega
        · exact ⟨h, hx⟩
    · rename_i hlt
      simp only [decide_eq_true_eq, Nat.not_lt] at hlt
      constructor
      · intro h
        refine ⟨h, ?_⟩
        rcases List.mem_cons.1 h with rfl | h
        · exact hlt
        · exact Nat.le_trans hlt (Nat.le_of_lt (hy.1 a h))
      · exact fun h => h.1

/-- The places of the numbers that are also in the other list. -/
theorem mem_placesFrom {n m : Nat} {xs ys : List Nat} (hx : xs.Pairwise (· < ·))
    (hy : ys.Pairwise (· < ·)) :
    m ∈ placesFrom n xs ys ↔ ∃ i a, m = n + i ∧ xs[i]? = some a ∧ a ∈ ys := by
  induction xs generalizing n ys with
  | nil => simp [placesFrom]
  | cons x xs ih =>
    rw [List.pairwise_cons] at hx
    have hdrop : (ys.dropWhile (· < x)).Pairwise (· < ·) :=
      hy.sublist (List.dropWhile_suffix _).sublist
    have hmem : ∀ a, a ∈ x :: xs → (a ∈ ys ↔ a ∈ ys.dropWhile (· < x)) := by
      intro a ha
      rw [mem_dropWhile_lt hy]
      refine ⟨fun h => ⟨h, ?_⟩, fun h => h.1⟩
      rcases List.mem_cons.1 ha with rfl | ha
      · exact Nat.le_refl a
      · exact Nat.le_of_lt (hx.1 a ha)
    have hstep : (∃ i a, m = n + i ∧ (x :: xs)[i]? = some a ∧ a ∈ ys) ↔
        (m = n ∧ x ∈ ys.dropWhile (· < x)) ∨
          ∃ i a, m = n + 1 + i ∧ xs[i]? = some a ∧ a ∈ ys.dropWhile (· < x) := by
      constructor
      · rintro ⟨i, a, hm, hi, ha⟩
        cases i with
        | zero =>
          obtain rfl : x = a := by simpa using hi
          exact Or.inl ⟨hm, (hmem x List.mem_cons_self).1 ha⟩
        | succ i =>
          have hi' : xs[i]? = some a := by simpa using hi
          have ha' : a ∈ x :: xs := List.mem_cons_of_mem x (List.mem_of_getElem? hi')
          exact Or.inr ⟨i, a, by omega, hi', (hmem a ha').1 ha⟩
      · rintro (⟨hm, ha⟩ | ⟨i, a, hm, hi, ha⟩)
        · exact ⟨0, x, by omega, rfl, (hmem x List.mem_cons_self).2 ha⟩
        · have ha' : a ∈ x :: xs := List.mem_cons_of_mem x (List.mem_of_getElem? hi)
          exact ⟨i + 1, a, by omega, by simpa using hi, (hmem a ha').2 ha⟩
    rw [hstep]
    unfold placesFrom
    split
    · rename_i heq
      simp [heq]
    · rename_i y rest heq
      rw [heq] at hdrop ⊢
      have hrest := (List.pairwise_cons.1 hdrop)
      split
      · subst y
        rw [List.mem_cons, ih hx.2 hrest.2]
        constructor
        · rintro (rfl | ⟨i, a, hm, hi, ha⟩)
          · exact Or.inl ⟨rfl, List.mem_cons_self⟩
          · exact Or.inr ⟨i, a, hm, hi, List.mem_cons_of_mem x ha⟩
        · rintro (⟨rfl, -⟩ | ⟨i, a, hm, hi, ha⟩)
          · exact Or.inl rfl
          · refine Or.inr ⟨i, a, hm, hi, ?_⟩
            rcases List.mem_cons.1 ha with rfl | ha
            · exact absurd (hx.1 a (List.mem_of_getElem? hi)) (Nat.lt_irrefl a)
            · exact ha
      · rename_i hxy
        rw [ih hx.2 hdrop]
        constructor
        · exact Or.inr
        · rintro (⟨-, hmx⟩ | h)
          · rcases List.mem_cons.1 hmx with rfl | hmx
            · exact absurd rfl hxy
            · have hle : x ≤ y := by
                have : y ∈ ys.dropWhile (· < x) := heq ▸ List.mem_cons_self
                exact ((mem_dropWhile_lt hy).1 this).2
              exact absurd (hrest.1 x hmx) (by omega)
          · exact h

/-! ## The set type -/

/-- A finite set of identifiers, listed in strictly increasing order. -/
structure IdSet where
  /-- The members, smallest first. -/
  toList : List Nat
  /-- Every member is listed once and in order. -/
  sorted : toList.Pairwise (· < ·)
  deriving DecidableEq, Repr

namespace IdSet

/-- A number is in a set if it is in its list. -/
instance : Membership Nat IdSet := ⟨fun s a => a ∈ s.toList⟩

/-- Membership is decided on the list. -/
instance (a : Nat) (s : IdSet) : Decidable (a ∈ s) := inferInstanceAs (Decidable (a ∈ s.toList))

theorem mem_toList {a : Nat} {s : IdSet} : a ∈ s.toList ↔ a ∈ s := Iff.rfl

/-- Sets with the same members are equal. -/
theorem ext {s t : IdSet} (h : ∀ a, a ∈ s ↔ a ∈ t) : s = t := by
  obtain ⟨xs, hx⟩ := s
  obtain ⟨ys, hy⟩ := t
  congr 1
  exact eq_of_pairwise_lt hx hy h

/-- The set without members. -/
def empty : IdSet := ⟨[], List.Pairwise.nil⟩

instance : EmptyCollection IdSet := ⟨empty⟩

instance : Inhabited IdSet := ⟨empty⟩

@[simp] theorem not_mem_empty (a : Nat) : ¬ a ∈ (∅ : IdSet) := List.not_mem_nil

/-- The set with one member. -/
def singleton (a : Nat) : IdSet := ⟨[a], List.pairwise_singleton _ a⟩

@[simp] theorem mem_singleton {a b : Nat} : b ∈ singleton a ↔ b = a := List.mem_singleton

/-- The number of members. -/
def size (s : IdSet) : Nat := s.toList.length

/-- Add a member. -/
def insert (s : IdSet) (a : Nat) : IdSet := ⟨insertAsc a s.toList, pairwise_insertAsc s.sorted⟩

/-- Inserting adds one number. -/
@[simp] theorem mem_insert {a b : Nat} {s : IdSet} : b ∈ s.insert a ↔ b = a ∨ b ∈ s :=
  mem_insertAsc

/-- All members of either set. -/
def union (s t : IdSet) : IdSet :=
  ⟨mergeAsc s.toList t.toList, pairwise_mergeAsc s.sorted t.sorted⟩

instance : Union IdSet := ⟨union⟩

/-- A union has the numbers of both sets. -/
@[simp] theorem mem_union {a : Nat} {s t : IdSet} : a ∈ s ∪ t ↔ a ∈ s ∨ a ∈ t := mem_mergeAsc

/-- The members that pass a test. -/
def filter (s : IdSet) (p : Nat → Bool) : IdSet :=
  ⟨s.toList.filter p, s.sorted.sublist List.filter_sublist⟩

/-- A filter keeps the numbers that pass. -/
@[simp] theorem mem_filter {a : Nat} {s : IdSet} {p : Nat → Bool} :
    a ∈ s.filter p ↔ a ∈ s ∧ p a = true := List.mem_filter

/-- Every member is listed once. -/
theorem nodup_toList (s : IdSet) : s.toList.Nodup := s.sorted.imp Nat.ne_of_lt

/-- All members but one. -/
def erase (s : IdSet) (a : Nat) : IdSet := ⟨s.toList.erase a, s.sorted.sublist List.erase_sublist⟩

/-- Erasing removes one number. -/
@[simp] theorem mem_erase {a b : Nat} {s : IdSet} : b ∈ s.erase a ↔ b ∈ s ∧ b ≠ a :=
  s.nodup_toList.mem_erase_iff.trans and_comm

/-- The set of the numbers in a list, in whatever order and however often they stand there. -/
def ofList (xs : List Nat) : IdSet := xs.foldr (fun a s => s.insert a) ∅

/-- The set of a list has its numbers. -/
@[simp] theorem mem_ofList {a : Nat} {xs : List Nat} : a ∈ ofList xs ↔ a ∈ xs := by
  induction xs with
  | nil => exact iff_of_false (not_mem_empty a) List.not_mem_nil
  | cons x xs ih =>
    show a ∈ (ofList xs).insert x ↔ _
    rw [mem_insert, ih, List.mem_cons]

/-- The numbers below `n` that pass a test. -/
def below (n : Nat) (p : Nat → Bool) : IdSet :=
  ⟨(List.range n).filter p, List.pairwise_lt_range.sublist List.filter_sublist⟩

/-- The numbers below a bound that pass. -/
@[simp] theorem mem_below {a n : Nat} {p : Nat → Bool} : a ∈ below n p ↔ a < n ∧ p a = true :=
  List.mem_filter.trans (by rw [List.mem_range])

/-- The places, counted from zero, that the members of `t` have in the list of `s`. -/
def placesOf (s t : IdSet) : IdSet := ⟨placesFrom 0 s.toList t.toList, pairwise_placesFrom _ _ _⟩

/-- The places at which a set has numbers of another set. -/
@[simp] theorem mem_placesOf {i : Nat} {s t : IdSet} :
    i ∈ s.placesOf t ↔ ∃ a, s.toList[i]? = some a ∧ a ∈ t := by
  refine (mem_placesFrom s.sorted t.sorted).trans ?_
  constructor
  · rintro ⟨j, a, hj, h⟩
    obtain rfl : i = j := by omega
    exact ⟨a, h⟩
  · rintro ⟨a, h⟩
    exact ⟨i, a, by omega, h⟩

end IdSet

end Backend
