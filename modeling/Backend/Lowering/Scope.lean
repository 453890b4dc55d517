/-
# Scopes and their joins

A `Scope` maps each declared name to the instruction that last defined it.  Where two control paths
meet, the names that the paths define differently have to be joined; `Scope.joins` lists them by
the age of the definition on our side, so that the list does not depend on how the names are stored.
-/
import Backend.Name

namespace Backend.Lowering

/-- The instruction that last defined each name. -/
abbrev Scope := List (Name × Nat)

/-- A name that two paths define differently. -/
structure Join where
  name : Name
  left : Nat
  right : Nat
  deriving DecidableEq, Repr

/-- Put a join into a list of joins, in front of those with a younger left side. -/
def Join.insert (j : Join) : List Join → List Join
  | [] => [j]
  | k :: ks => if j.left ≤ k.left then j :: k :: ks else k :: insert j ks

/-- The joins by the age of their left sides, the oldest first. -/
def Join.sort (js : List Join) : List Join := js.foldr Join.insert []

namespace Scope

/-- Let a name stand for an instruction from now on. -/
def define (name : Name) (id : Nat) : Scope → Scope
  | [] => [(name, id)]
  | (n, i) :: rest => if n = name then (n, id) :: rest else (n, i) :: define name id rest

/-- Afterwards the name stands for the instruction, and every other name for what it stood for. -/
theorem lookup_define (name other : Name) (id : Nat) (scope : Scope) :
    (scope.define name id).lookup other =
      if other = name then some id else scope.lookup other := by
  induction scope with
  | nil =>
    by_cases h : other = name
    · simp [define, h]
    · have hb : (other == name) = false := by simpa using h
      simp [define, List.lookup_cons, h, hb]
  | cons entry rest ih =>
    obtain ⟨n, i⟩ := entry
    by_cases h : other = n
    · subst h
      by_cases hn : other = name <;> simp [define, hn]
    · have hb : (other == n) = false := by simpa using h
      by_cases hn : n = name
      · subst hn
        simp [define, List.lookup_cons, h, hb]
      · simp [define, List.lookup_cons, hn, hb, ih]

/-- The names that `ours` and `theirs` define differently. -/
def joins (ours theirs : Scope) : List Join :=
  Join.sort <| ours.filterMap fun (name, left) =>
    match theirs.lookup name with
    | some right => if right = left then none else some ⟨name, left, right⟩
    | none => none

end Scope

end Backend.Lowering
