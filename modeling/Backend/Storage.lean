/-
# Storage classes

Instructions tied together by `unify` live in the same place.  A `Storage` divides the instructions
of a body into such classes, the variables.  A variable is numbered by the first position of the
body that it holds; the class that swallows another keeps its number, and the number of the
swallowed class stands for no instruction any more.
-/
import Backend.Code.Body

namespace Backend

/-- Writing one value at several places changes these places only. -/
theorem getElem?_foldl_set {α : Type} (ids : List Nat) (x : α) (t : Array α) (i : Nat) :
    (ids.foldl (fun t id => t.setIfInBounds id x) t)[i]? =
      if i ∈ ids ∧ i < t.size then some x else t[i]? := by
  induction ids generalizing t with
  | nil => simp
  | cons id ids ih =>
    rw [List.foldl_cons, ih, Array.size_setIfInBounds, Array.getElem?_setIfInBounds]
    by_cases h : i ∈ ids
    · by_cases hi : i < t.size <;> grind
    · by_cases hid : id = i <;> grind

/-- A division of instructions into variables. -/
structure Storage where
  /-- The variable of each instruction. -/
  varOf : Array (Option Nat) := #[]
  /-- The instructions of each variable, none once it has been swallowed. -/
  members : Array (List Nat) := #[]
  deriving DecidableEq, Repr

namespace Storage

/-- The text of a variable. -/
def varText (v : Nat) : String := s!"v{v}"

instance : Inhabited Storage := ⟨{}⟩

/-- The variable of an instruction, if it has one. -/
def var? (s : Storage) (id : Nat) : Option Nat := s.varOf[id]?.join

/-- The variable of an instruction of the body. -/
def var (s : Storage) (id : Nat) : Except Fault Nat :=
  match s.var? id with
  | some v => .ok v
  | none => .error (.notInBody id)

/-- The instructions of a variable. -/
def membersOf (s : Storage) (v : Nat) : Except Fault (List Nat) := orOutOfRange s.members[v]?

/-- The variables that hold instructions, in order, with their instructions. -/
def classes (s : Storage) : List (Nat × List Nat) :=
  (s.members.toList.zipIdx.filter fun c => !c.1.isEmpty).map fun c => (c.2, c.1)

/-- The variables are listed in increasing order. -/
theorem pairwise_classes (s : Storage) : s.classes.Pairwise fun c d => c.1 < d.1 := by
  rw [classes, List.pairwise_map]
  refine List.Pairwise.sublist List.filter_sublist ?_
  have h : (s.members.toList.zipIdx.map (·.2)).Pairwise (· < ·) := by
    rw [List.zipIdx_map_snd]
    exact List.pairwise_lt_range'
  exact List.pairwise_map.1 h

/-- The number of variables that hold instructions. -/
def size (s : Storage) : Nat := s.classes.length

/-- Let variable `keep` swallow variable `gone`. -/
def absorb (s : Storage) (keep gone : Nat) : Storage :=
  let moved := s.members.getD gone []
  { varOf := moved.foldl (fun t id => t.setIfInBounds id (some keep)) s.varOf
    members := (s.members.setIfInBounds gone []).modify keep (· ++ moved) }

/-- The swallowed instructions belong to the variable that swallowed them, all others stay. -/
theorem var?_absorb (s : Storage) (keep gone id : Nat) :
    (s.absorb keep gone).var? id =
      if id ∈ s.members.getD gone [] ∧ id < s.varOf.size then some keep else s.var? id := by
  rw [var?, absorb, getElem?_foldl_set]
  by_cases h : id ∈ s.members.getD gone [] ∧ id < s.varOf.size
  · rw [if_pos h, if_pos h]
    rfl
  · rw [if_neg h, if_neg h]
    rfl

/-- Put two instructions into one variable; the smaller number survives. -/
def merge (s : Storage) (a b : Nat) : Except Fault Storage := do
  let v ← s.var a
  let w ← s.var b
  return if v = w then s else s.absorb (min v w) (max v w)

/-- Every instruction of a body alone in the variable of its position. -/
def singletons (b : Body) : Storage where
  varOf := b.order.zipIdx.foldl (fun t p => t.setIfInBounds p.1 (some p.2))
    (Array.replicate b.store.size none)
  members := (b.order.map fun id => [id]).toArray

/-- Tie an instruction to what its operation says it shares storage with. -/
def tie (s : Storage) (entry : Nat × Instr) : Except Fault Storage :=
  match entry.2.op with
  | .unify left right => do
    let s ← s.merge entry.1 left
    s.merge entry.1 right
  | _ => .ok s

/-- The variables of a body. -/
def ofBody (b : Body) : Except Fault Storage := b.toList.foldlM tie (singletons b)

end Storage

end Backend
