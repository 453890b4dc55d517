/-
# Candidates

The variables of a body that compete for a register, each with the register it is pinned to.  They
are kept by increasing variable, so that the place of a candidate in the list can serve as its
number.
-/
import Backend.IdSet
import Backend.Storage

namespace Backend

/-- A variable that competes for a register, with the register it is pinned to. -/
structure Candidate where
  var : Nat
  pin : Option Nat := none
  deriving DecidableEq, Repr

/-- The variables that compete for registers, by increasing variable. -/
structure Candidates where
  toList : List Candidate := []
  /-- Every variable is entered once, in order. -/
  sorted : toList.Pairwise fun c d => c.var < d.var := by simp
  deriving DecidableEq, Repr

namespace Candidates

/-- Enter a candidate into a list by increasing variable; a newer entry replaces an older one. -/
def insertVar (c : Candidate) : List Candidate → List Candidate
  | [] => [c]
  | d :: ds =>
    if c.var < d.var then c :: d :: ds
    else if c.var = d.var then c :: ds
    else d :: insertVar c ds

theorem mem_insertVar {c d : Candidate} {cs : List Candidate} (h : d ∈ insertVar c cs) :
    d = c ∨ d ∈ cs := by
  induction cs with
  | nil => exact Or.inl (List.mem_singleton.1 h)
  | cons e cs ih => grind [insertVar]

theorem pairwise_insertVar {c : Candidate} {cs : List Candidate}
    (h : cs.Pairwise fun c d => c.var < d.var) :
    (insertVar c cs).Pairwise fun c d => c.var < d.var := by
  induction cs with
  | nil => exact List.pairwise_singleton _ c
  | cons d ds ih =>
    have h' := List.pairwise_cons.1 h
    unfold insertVar
    split
    · rename_i hlt
      refine List.pairwise_cons.2 ⟨fun e he => ?_, h⟩
      rcases List.mem_cons.1 he with rfl | he
      · exact hlt
      · exact Nat.lt_trans hlt (h'.1 e he)
    · split
      · rename_i heq
        exact List.pairwise_cons.2 ⟨fun e he => heq ▸ h'.1 e he, h'.2⟩
      · refine List.pairwise_cons.2 ⟨fun e he => ?_, ih h'.2⟩
        rcases mem_insertVar he with rfl | he
        · show d.var < e.var
          omega
        · exact h'.1 e he

/-- Enter a candidate; a newer entry for a variable replaces an older one. -/
def insert (cs : Candidates) (c : Candidate) : Candidates :=
  ⟨insertVar c cs.toList, pairwise_insertVar cs.sorted⟩

/-- The candidates of a list; of two entries for one variable the later one counts. -/
def ofList (cs : List Candidate) : Candidates := cs.foldl insert {}

/-- The number of candidates. -/
def size (cs : Candidates) : Nat := cs.toList.length

/-- The candidate variables. -/
def vars (cs : Candidates) : IdSet := ⟨cs.toList.map (·.var), List.pairwise_map.2 cs.sorted⟩

end Candidates

namespace Body

/-- The instructions of a body with the listed numbers. -/
def select (b : Body) (ids : List Nat) : List Instr := ids.filterMap (b.store[·]?)

/-- A variable is a candidate if it holds a value and does not live on the stack yet.  It is pinned
where its first pinned member is. -/
def candidate? (b : Body) (c : Nat × List Nat) : Option Candidate :=
  let members := b.select c.2
  if members.any (·.op.definesValue) && !members.any (·.isSpillCode) then
    some { var := c.1, pin := members.findSome? (·.pin) }
  else none

theorem var_of_candidate? {b : Body} {c : Nat × List Nat} {d : Candidate}
    (h : b.candidate? c = some d) : d.var = c.1 := by
  simp only [candidate?] at h
  split at h
  · obtain rfl := Option.some.inj h
    rfl
  · exact absurd h (Option.some_ne_none d).symm

/-- The candidates of a body. -/
def candidates (b : Body) (s : Storage) : Candidates where
  toList := s.classes.filterMap b.candidate?
  sorted := by
    refine List.pairwise_filterMap.2 (s.pairwise_classes.imp ?_)
    intro c d hcd c' hc d' hd
    rw [var_of_candidate? hc, var_of_candidate? hd]
    exact hcd

end Body

end Backend
