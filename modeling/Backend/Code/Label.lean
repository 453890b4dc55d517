/-
# Jump labels

Structured statements become jumps between labels.  The two labels of one statement carry the
same number and differ in kind, so drawing each number once (`LabelSupply.fresh`) keeps the labels
of a body apart.
-/

namespace Backend

/-- A jump target, named after the statement it belongs to. -/
inductive Label where
  /-- Start of the branch taken when the condition of a conditional fails. -/
  | ifElse (number : Nat)
  /-- End of a conditional. -/
  | ifDone (number : Nat)
  /-- Start of the condition of a loop. -/
  | whileCond (number : Nat)
  /-- End of a loop. -/
  | whileEnd (number : Nat)
  deriving DecidableEq, Repr, Inhabited

/-- The text of a label. -/
def Label.text : Label → String
  | .ifElse n => s!"if_else_{n}"
  | .ifDone n => s!"if_done_{n}"
  | .whileCond n => s!"while_cond_{n}"
  | .whileEnd n => s!"while_end_{n}"

/-- The numbers not yet given to a statement: `next` and everything above it. -/
structure LabelSupply where
  next : Nat := 0
  deriving DecidableEq, Repr, Inhabited

namespace LabelSupply

/-- Draw the next number. -/
def fresh (s : LabelSupply) : Nat × LabelSupply := (s.next, ⟨s.next + 1⟩)

/-- Draw `n` numbers in a row. -/
def draw (s : LabelSupply) : Nat → List Nat
  | 0 => []
  | n + 1 => s.fresh.1 :: s.fresh.2.draw n

end LabelSupply

end Backend
