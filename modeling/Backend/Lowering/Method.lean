/-
# From syntax trees to linear code

Structured statements become labels and jumps.  A name stands for the instruction that last defined
it, so reading a variable writes no code; where two paths meet with different definitions, a `unify`
ties them to one storage location.  Operands are written left to right, the value of an assignment
before the parts of its target.

`receiver` says whether the code has a `this`: without one, `this` and every undeclared name are
refused.
-/
import Backend.Source.Tree
import Backend.Code.Program
import Backend.Lowering.Draft

namespace Backend.Lowering

open Source (Expr Target Stmt)

/-! ## Expressions -/

/-- Write a `this` on behalf of a name. -/
def emitThis (receiver : Bool) (name : Name) (span : Span) : Lower Nat :=
  if receiver then emit .this span else refuse (.noReceiver name span)

/-- Write the instructions that hand over argument values, counted from `start`. -/
def emitArgs (start : Nat) : List (Nat × Span) → Lower (List Nat)
  | [] => pure []
  | (value, span) :: rest => do
    let id ← emit (.arg value start) span
    let ids ← emitArgs (start + 1) rest
    return id :: ids

mutual

/-- Write the code of an expression; the result is the instruction that holds its value. -/
def lowerExpr (receiver : Bool) : Expr → Lower Nat
  | .assign target value span => do
    let value ← lowerExpr receiver value
    lowerTarget receiver value span target
  | .binary op left right span => do
    let left ← lowerExpr receiver left
    let right ← lowerExpr receiver right
    emit (.binary op left right) span
  | .not value span => do
    let value ← lowerExpr receiver value
    emit (.not value) span
  | .int value span => emit (.int value) span
  | .boolean value span => emit (.boolean value) span
  | .null span => emit .null span
  | .this span => emitThis receiver "this" span
  | .var name span => do
    let scope ← currentScope
    match scope.lookup name with
    | some id => pure id
    | none =>
      let object ← emitThis receiver name span
      emit (.member object name) span
  | .member object field span => do
    let object ← lowerExpr receiver object
    emit (.member object field) span
  | .index array index span => do
    let array ← lowerExpr receiver array
    let index ← lowerExpr receiver index
    emit (.index array index) span
  | .call object method args span => do
    let object ← lowerExpr receiver object
    let values ← lowerExprs receiver args
    let ids ← emitArgs 0 (values.zip (args.map Expr.span))
    emit (.call object method ids) span
  | .newObject className span => emit (.newObject className) span
  | .newIntArray size span => do
    let size ← lowerExpr receiver size
    emit (.newIntArray size) span

/-- Write the code that assigns a value, given as an instruction, to a target; `span` is that of
the assignment. -/
def lowerTarget (receiver : Bool) (value : Nat) (span : Span) : Target → Lower Nat
  | .var name _ => do
    let scope ← currentScope
    match scope.lookup name with
    | some _ =>
      let id ← emit (.assignVar value name) span
      define name id
      return id
    | none =>
      let object ← emitThis receiver name span
      emit (.assignMember object value name) span
  | .member object field _ => do
    let object ← lowerExpr receiver object
    emit (.assignMember object value field) span
  | .index array index _ => do
    let array ← lowerExpr receiver array
    let index ← lowerExpr receiver index
    emit (.assignIndex array value index) span

/-- Write the code of several expressions in order. -/
def lowerExprs (receiver : Bool) : List Expr → Lower (List Nat)
  | [] => pure []
  | e :: es => do
    let id ← lowerExpr receiver e
    let ids ← lowerExprs receiver es
    return id :: ids

end

/-! ## Statements -/

mutual

/-- Write the code of a statement. -/
def lowerStmt (receiver : Bool) : Stmt → Lower Unit
  | .block body _ => lowerStmts receiver body
  | .ite cond thenBranch elseBranch span => do
    let cond ← lowerExpr receiver cond
    let n ← freshLabel
    let _ ← emit (.branchNot cond (.ifElse n)) span
    let before ← currentScope
    lowerStmt receiver thenBranch
    let _ ← emit (.goto (.ifDone n)) span
    let _ ← emit (.label (.ifElse n)) span
    let ours ← currentScope
    setScope before
    lowerStmt receiver elseBranch
    let theirs ← currentScope
    setScope ours
    let _ ← emit (.label (.ifDone n)) span
    joinWith theirs span
  | .loop cond body span => do
    let n ← freshLabel
    let _ ← emit (.label (.whileCond n)) span
    let cond ← lowerExpr receiver cond
    let _ ← emit (.branchNot cond (.whileEnd n)) span
    let ours ← currentScope
    lowerStmt receiver body
    let theirs ← currentScope
    setScope ours
    let _ ← emit (.goto (.whileCond n)) span
    let _ ← emit (.label (.whileEnd n)) span
    joinWith theirs span
  | .print value span => do
    let value ← lowerExpr receiver value
    let _ ← emit (.print value) span
  | .expr value _ => do
    let _ ← lowerExpr receiver value

/-- Write the code of several statements in order. -/
def lowerStmts (receiver : Bool) : List Stmt → Lower Unit
  | [] => pure ()
  | s :: ss => do
    lowerStmt receiver s
    lowerStmts receiver ss

end

/-! ## Methods, classes and programs -/

/-- Bring the parameters into scope, counted from `start`. -/
def declareParams (start : Nat) : List Source.Decl → Lower Unit
  | [] => pure ()
  | p :: ps => do
    let id ← emit (.parameter start) p.span
    define p.name id
    declareParams (start + 1) ps

/-- Bring the local variables into scope; they start without a value. -/
def declareLocals : List Source.Decl → Lower Unit
  | [] => pure ()
  | v :: vs => do
    let id ← emit .null v.span
    define v.name id
    declareLocals vs

/-- Write the code of a method. -/
def lowerMethod (m : Source.MethodDecl) : Lower Unit := do
  declareParams 0 m.params
  declareLocals m.locals
  lowerStmts true m.body
  let result ← lowerExpr true m.result
  let _ ← emit (.ret result) m.result.span

/-- The code that a computation writes on an empty draft. -/
def run (code : Lower Unit) : Except Fault (Traced Body) := do
  let ((), draft) ← code {}
  return ⟨Body.ofStore draft.code, draft.events⟩

end Backend.Lowering

namespace Backend

open Lowering

/-- The linear code of a method. -/
def Source.MethodDecl.lower (m : MethodDecl) : Except Fault (Traced Code.Method) := do
  let body ← run (lowerMethod m)
  return ⟨{ name := m.name, params := m.params.map (·.name), body := body.value }, body.events⟩

/-- The linear code of the method that a program starts with, which has neither parameters nor a
receiver. -/
def Source.MainClass.lower (m : MainClass) : Except Fault (Traced Code.Method) := do
  let body ← run (lowerStmt false m.body)
  return ⟨{ name := "main", body := body.value }, body.events⟩

/-- The linear code of a class. -/
def Source.ClassDecl.lower (c : ClassDecl) : Except Fault (Traced Code.Class) := do
  let methods ← Traced.traverse MethodDecl.lower c.methods
  return ⟨{ name := c.name, superclass := c.superclass, fields := c.fields.map (·.name),
            methods := methods.value }, methods.events⟩

/-- The linear code of a program. -/
def Source.Program.lower (p : Program) : Except Fault (Traced Code.Program) := do
  let main ← p.main.lower
  let classes ← Traced.traverse ClassDecl.lower p.classes
  return ⟨{ main := main.value, classes := classes.value }, main.events ++ classes.events⟩

end Backend
