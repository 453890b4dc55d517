/-
# Operations of the linear code

An `Op` is what one instruction does.  It refers to other instructions by number (`Op.operands`),
to labels, names and literals by value.  `Op.withOperands` exchanges the instructions referred to
and nothing else; all changes of operands go through it.
-/
import Backend.Source.Operator

namespace Backend

/-- What an instruction does. -/
inductive Op where
  /-- Two definitions of one source variable meet: all three share one storage location. -/
  | unify (left right : Nat)
  | this
  | parameter (index : Nat)
  /-- Hand a value over as an argument of the call that follows. -/
  | arg (value : Nat) (index : Nat)
  | null
  | int (value : Int)
  | boolean (value : Bool)
  | newObject (className : Name)
  | newIntArray (size : Nat)
  | label (label : Label)
  | goto (target : Label)
  | branch (cond : Nat) (target : Label)
  /-- Jump if the condition fails. -/
  | branchNot (cond : Nat) (target : Label)
  | call (receiver : Nat) (method : Name) (args : List Nat)
  | print (value : Nat)
  | ret (value : Nat)
  | member (object : Nat) (field : Name)
  | index (array index : Nat)
  /-- Write a value to a stack slot. -/
  | store (value : Nat) (slot : Nat)
  /-- Read a stack slot. -/
  | load (slot : Nat)
  | assignVar (value : Nat) (name : Name)
  | assignMember (object value : Nat) (field : Name)
  | assignIndex (array value index : Nat)
  | not (value : Nat)
  | binary (op : Operator) (left right : Nat)
  deriving DecidableEq, Repr

namespace Op

/-- The instructions whose values the operation uses. -/
def operands : Op → List Nat
  | unify l r => [l, r]
  | arg v _ => [v]
  | newIntArray n => [n]
  | branch c _ => [c]
  | branchNot c _ => [c]
  | call t _ args => t :: args
  | print v => [v]
  | ret v => [v]
  | member o _ => [o]
  | index a i => [a, i]
  | store v _ => [v]
  | assignVar v _ => [v]
  | assignMember o v _ => [o, v]
  | assignIndex a v i => [a, v, i]
  | not v => [v]
  | binary _ l r => [l, r]
  | this | parameter _ | null | int _ | boolean _ | newObject _ | label _ | goto _ | load _ => []

/-- Overwrite the first entries of a list by those of another. -/
def overwrite {α : Type} : List α → List α → List α
  | [], _ => []
  | olds, [] => olds
  | _ :: olds, a :: news => a :: overwrite olds news

/-- Overwrite the operands in order by the listed instructions, as many as there are of both. -/
def withOperands (op : Op) (ids : List Nat) : Op :=
  match op with
  | unify l r => unify (ids.getD 0 l) (ids.getD 1 r)
  | arg v i => arg (ids.getD 0 v) i
  | newIntArray n => newIntArray (ids.getD 0 n)
  | branch c l => branch (ids.getD 0 c) l
  | branchNot c l => branchNot (ids.getD 0 c) l
  | call t m args => call (ids.getD 0 t) m (overwrite args ids.tail)
  | print v => print (ids.getD 0 v)
  | ret v => ret (ids.getD 0 v)
  | member o f => member (ids.getD 0 o) f
  | index a i => index (ids.getD 0 a) (ids.getD 1 i)
  | store v s => store (ids.getD 0 v) s
  | assignVar v x => assignVar (ids.getD 0 v) x
  | assignMember o v f => assignMember (ids.getD 0 o) (ids.getD 1 v) f
  | assignIndex a v i => assignIndex (ids.getD 0 a) (ids.getD 1 v) (ids.getD 2 i)
  | not v => not (ids.getD 0 v)
  | binary o l r => binary o (ids.getD 0 l) (ids.getD 1 r)
  | this | parameter _ | null | int _ | boolean _ | newObject _ | label _ | goto _ | load _ => op

theorem overwrite_map {α : Type} (f : α → α) (xs : List α) :
    overwrite xs (xs.map f) = xs.map f := by
  induction xs with
  | nil => rfl
  | cons x xs ih => simp [overwrite, ih]

/-- Send every operand through a function. -/
def mapOperands (f : Nat → Nat) (op : Op) : Op := op.withOperands (op.operands.map f)

theorem operands_mapOperands (f : Nat → Nat) (op : Op) :
    (op.mapOperands f).operands = op.operands.map f := by
  cases op <;> simp [mapOperands, withOperands, operands, overwrite_map]

/-- Whether the operation leaves a value that other instructions may use. -/
def definesValue : Op → Bool
  | label _ | goto _ | branch .. | branchNot .. | ret _ | print _ | store .. => false
  | _ => true

/-- Whether the operation joins definitions. -/
def isUnify : Op → Bool
  | unify .. => true
  | _ => false

/-- Whether control always leaves the operation for its target. -/
def isGoto : Op → Bool
  | goto _ => true
  | _ => false

/-- Whether the operation reads or writes a stack slot. -/
def accessesSlot : Op → Bool
  | load _ | store .. => true
  | _ => false

/-- The label a jump may lead to. -/
def target : Op → Option Label
  | goto l | branch _ l | branchNot _ l => some l
  | _ => none

/-- The label that stands at the operation. -/
def labelHere : Op → Option Label
  | label l => some l
  | _ => none

/-- The text of an operation: operands plain, everything else marked by a star. -/
def text : Op → String
  | unify l r => s!"Unify {l} {r}"
  | this => "This"
  | parameter i => s!"Parameter *{i}"
  | arg v i => s!"Arg {v} *{i}"
  | null => "Null"
  | int n => s!"Int *{n}"
  | boolean b => s!"Boolean *{b}"
  | newObject c => "NewObj *" ++ c
  | newIntArray n => s!"NewIntArray {n}"
  | label l => "Label *" ++ l.text
  | goto l => "Goto *" ++ l.text
  | branch c l => s!"Branch {c} *" ++ l.text
  | branchNot c l => s!"NBranch {c} *" ++ l.text
  | call t m args => s!"Call {t} *" ++ m ++ "(" ++ ", ".intercalate (args.map toString) ++ ")"
  | print v => s!"Print {v}"
  | ret v => s!"Return {v}"
  | member o f => s!"Member {o} *" ++ f
  | index a i => s!"Index {a} {i}"
  | store v s => s!"Store {v} *{s}"
  | load s => s!"Load *{s}"
  | assignVar v x => s!"VarAssg {v} *" ++ x
  | assignMember o v f => s!"MemberAssg {o} {v} *" ++ f
  | assignIndex a v i => s!"IndexAssg {a} {v} {i}"
  | not v => s!"Not {v}"
  | binary o l r => o.name ++ s!" {l} {r}"

end Op

end Backend
