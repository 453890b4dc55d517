/-
# Binary operators

Each operator has a token, by which a source text spells it, and a name, by which the text of an
instruction shows it.
-/
import Backend.Fault

namespace Backend

/-- A binary operator. -/
inductive Operator where
  | lt | le | eq | ne | gt | ge | and | or | plus | minus | mul | div | mod
  deriving DecidableEq, Repr

namespace Operator

/-- All operators, comparisons first. -/
def all : List Operator := [lt, le, eq, ne, gt, ge, and, or, plus, minus, mul, div, mod]

theorem mem_all (op : Operator) : op ∈ all := by cases op <;> decide

/-- The spelling in a source text. -/
def token : Operator → String
  | lt => "<" | le => "<=" | eq => "==" | ne => "!=" | gt => ">" | ge => ">="
  | and => "&&" | or => "||"
  | plus => "+" | minus => "-" | mul => "*" | div => "/" | mod => "%"

/-- The name shown in the text of an instruction. -/
def name : Operator → String
  | lt => "Lt" | le => "Le" | eq => "Eq" | ne => "Ne" | gt => "Gt" | ge => "Ge"
  | and => "And" | or => "Or"
  | plus => "Plus" | minus => "Minus" | mul => "Mul" | div => "Div" | mod => "Mod"

/-- The operator that a token spells exactly. -/
def ofToken (token : String) : Except Fault Operator :=
  match all.find? (·.token = token) with
  | some op => .ok op
  | none => .error .unknownOperator

/-- Reading an operator's own token gives it back. -/
theorem ofToken_token (op : Operator) : ofToken op.token = .ok op := by cases op <;> rfl

end Operator

end Backend
