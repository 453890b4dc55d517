/-
# The meaning of methods

How a method runs, for any meaning of the operations.  Expressions change the state from left to
right; an assignment computes its value before the parts of its target, a call its object, then all
argument values, then hands these over.  A declared name stands for a value of its own, any other
name for a member of `this`.  Statements are run by rules (`Meaning.Exec`), since loops need not
end.
-/
import Mathlib
import Backend.Proofs.Machine
import Backend.Proofs.Trees

namespace Backend

namespace Source

/-! ## Declarations and assignments -/

/-- What the declarations of a method compute: its parameters in order, then nothing for each local
variable. -/
def MethodDecl.header (m : MethodDecl) : List (Op × Decl) :=
  (m.params.zipIdx.map fun p => (.parameter p.2, p.1)) ++ m.locals.map fun v => (.null, v)

/-- The declared names of a method. -/
def MethodDecl.declared (m : MethodDecl) : List Name := m.header.map (·.2.name)

mutual

/-- Whether assignments occur in a statement only as whole expression statements. -/
def Stmt.assignsOnTop : Stmt → Bool
  | .block body _ => listAssignsOnTop body
  | .ite cond s t _ => cond.targets.isEmpty && s.assignsOnTop && t.assignsOnTop
  | .loop cond s _ => cond.targets.isEmpty && s.assignsOnTop
  | .print value _ => value.targets.isEmpty
  | .expr (.assign target value _) _ => value.targets.isEmpty && target.targets.isEmpty
  | .expr value _ => value.targets.isEmpty

/-- Whether assignments occur in several statements only as whole expression statements. -/
def listAssignsOnTop : List Stmt → Bool
  | [] => true
  | s :: ss => s.assignsOnTop && listAssignsOnTop ss

end

/-- Whether assignments occur in a method only as whole expression statements. -/
def MethodDecl.assignsOnTop (m : MethodDecl) : Bool :=
  listAssignsOnTop m.body && m.result.targets.isEmpty

/-! ## States -/

/-- The state of a running method: the values of the declared names, and the world. -/
structure State (Val World : Type) where
  env : Name → Option Val
  world : World

/-- Give a declared name a value. -/
def State.bind {Val World : Type} (st : State Val World) (x : Name) (v : Val) : State Val World :=
  { st with env := Function.update st.env x (some v) }

end Source

open Source (Expr Target Stmt State)

namespace Meaning

variable {Val World : Type} (m : Meaning Val World)

/-! ## Expressions -/

/-- Perform an operation on values. -/
def primitive (op : Op) (vs : List Val) (st : State Val World) : Val × State Val World :=
  ((m.perform op vs st.world).1, { st with world := (m.perform op vs st.world).2 })

/-- Hand over argument values, counted from `start`. -/
def evalArgs (start : Nat) : List Val → State Val World → List Val × State Val World
  | [], st => ([], st)
  | v :: vs, st =>
    let arg := m.primitive (.arg 0 start) [v] st
    let args := evalArgs (start + 1) vs arg.2
    (arg.1 :: args.1, args.2)

/-- The value of a member of `this`. -/
def evalField (name : Name) (st : State Val World) : Val × State Val World :=
  let this := m.primitive .this [] st
  m.primitive (.member 0 name) [this.1] this.2

mutual

/-- The value of an expression and the state afterwards. -/
def evalExpr : Expr → State Val World → Val × State Val World
  | .assign target value _, st =>
    let v := evalExpr value st
    evalTarget v.1 target v.2
  | .binary op left right _, st =>
    let l := evalExpr left st
    let r := evalExpr right l.2
    m.primitive (.binary op 0 0) [l.1, r.1] r.2
  | .not value _, st =>
    let v := evalExpr value st
    m.primitive (.not 0) [v.1] v.2
  | .int n _, st => m.primitive (.int n) [] st
  | .boolean b _, st => m.primitive (.boolean b) [] st
  | .null _, st => m.primitive .null [] st
  | .this _, st => m.primitive .this [] st
  | .var name _, st =>
    match st.env name with
    | some v => (v, st)
    | none => m.evalField name st
  | .member object field _, st =>
    let o := evalExpr object st
    m.primitive (.member 0 field) [o.1] o.2
  | .index array index _, st =>
    let a := evalExpr array st
    let i := evalExpr index a.2
    m.primitive (.index 0 0) [a.1, i.1] i.2
  | .call object method args _, st =>
    let o := evalExpr object st
    let vs := evalExprs args o.2
    let as := m.evalArgs 0 vs.1 vs.2
    m.primitive (.call 0 method (as.1.map fun _ => 0)) (o.1 :: as.1) as.2
  | .newObject className _, st => m.primitive (.newObject className) [] st
  | .newIntArray size _, st =>
    let n := evalExpr size st
    m.primitive (.newIntArray 0) [n.1] n.2

/-- Assign a value to a target; a declared name gets what the operation makes of the value. -/
def evalTarget (v : Val) : Target → State Val World → Val × State Val World
  | .var name _, st =>
    match st.env name with
    | some _ =>
      let r := m.primitive (.assignVar 0 name) [v] st
      (r.1, r.2.bind name r.1)
    | none =>
      let this := m.primitive .this [] st
      m.primitive (.assignMember 0 0 name) [this.1, v] this.2
  | .member object field _, st =>
    let o := evalExpr object st
    m.primitive (.assignMember 0 0 field) [o.1, v] o.2
  | .index array index _, st =>
    let a := evalExpr array st
    let i := evalExpr index a.2
    m.primitive (.assignIndex 0 0 0) [a.1, v, i.1] i.2

/-- The values of several expressions and the state afterwards. -/
def evalExprs : List Expr → State Val World → List Val × State Val World
  | [], st => ([], st)
  | e :: es, st =>
    let v := evalExpr e st
    let vs := evalExprs es v.2
    (v.1 :: vs.1, vs.2)

end

/-! ## Statements and methods -/

/-- A statement leads from one state to another. -/
inductive Exec : Stmt → State Val World → State Val World → Prop
  | done (span : Span) (st : State Val World) : Exec (.block [] span) st st
  | seq {s : Stmt} {ss : List Stmt} {span : Span} {st st₁ st₂ : State Val World}
      (hs : Exec s st st₁) (hss : Exec (.block ss span) st₁ st₂) :
      Exec (.block (s :: ss) span) st st₂
  | thenBranch {cond : Expr} {s t : Stmt} {span : Span} {st st' : State Val World}
      (hcond : m.truth (m.evalExpr cond st).1 = true) (hs : Exec s (m.evalExpr cond st).2 st') :
      Exec (.ite cond s t span) st st'
  | elseBranch {cond : Expr} {s t : Stmt} {span : Span} {st st' : State Val World}
      (hcond : m.truth (m.evalExpr cond st).1 = false) (ht : Exec t (m.evalExpr cond st).2 st') :
      Exec (.ite cond s t span) st st'
  | leave {cond : Expr} {s : Stmt} {span : Span} {st : State Val World}
      (hcond : m.truth (m.evalExpr cond st).1 = false) :
      Exec (.loop cond s span) st (m.evalExpr cond st).2
  | again {cond : Expr} {s : Stmt} {span : Span} {st st₁ st₂ : State Val World}
      (hcond : m.truth (m.evalExpr cond st).1 = true) (hs : Exec s (m.evalExpr cond st).2 st₁)
      (hloop : Exec (.loop cond s span) st₁ st₂) : Exec (.loop cond s span) st st₂
  | print (value : Expr) (span : Span) (st : State Val World) :
      Exec (.print value span) st
        (m.primitive (.print 0) [(m.evalExpr value st).1] (m.evalExpr value st).2).2
  | expr (value : Expr) (span : Span) (st : State Val World) :
      Exec (.expr value span) st (m.evalExpr value st).2

/-- Statements lead to one state at most. -/
theorem Exec.unique {m : Meaning Val World} {s : Stmt} {st st₁ st₂ : State Val World}
    (h₁ : m.Exec s st st₁) (h₂ : m.Exec s st st₂) : st₁ = st₂ := by
  induction h₁ generalizing st₂ with
  | done => cases h₂; rfl
  | seq _ _ ih ih' =>
    cases h₂ with
    | seq hs hss => exact ih' (ih hs ▸ hss)
  | thenBranch hcond _ ih =>
    cases h₂ with
    | thenBranch _ hs => exact ih hs
    | elseBranch hcond' _ => rw [hcond] at hcond'; cases hcond'
  | elseBranch hcond _ ih =>
    cases h₂ with
    | thenBranch hcond' _ => rw [hcond] at hcond'; cases hcond'
    | elseBranch _ ht => exact ih ht
  | leave hcond =>
    cases h₂ with
    | leave _ => rfl
    | again hcond' _ _ => rw [hcond] at hcond'; cases hcond'
  | again hcond _ _ ih ih' =>
    cases h₂ with
    | leave hcond' => rw [hcond] at hcond'; cases hcond'
    | again _ hs hloop => exact ih' (ih hs ▸ hloop)
  | print => cases h₂; rfl
  | expr => cases h₂; rfl

/-- Declare a name, with what computes its first value. -/
def declare (st : State Val World) (e : Op × Source.Decl) : State Val World :=
  (m.primitive e.1 [] st).2.bind e.2.name (m.primitive e.1 [] st).1

/-- The state of a method behind its declarations. -/
def start (decl : Source.MethodDecl) (w : World) : State Val World :=
  decl.header.foldl m.declare ⟨fun _ => none, w⟩

/-- A method that is started in world `w` returns value `v` in world `w'`. -/
def Returns (decl : Source.MethodDecl) (w : World) (v : Val) (w' : World) : Prop :=
  ∃ st, m.Exec (.block decl.body {}) (m.start decl w) st ∧
    (m.evalExpr decl.result st).1 = v ∧ (m.evalExpr decl.result st).2.world = w'

/-- **A method returns one value in one world at most.** -/
theorem Returns.unique {m : Meaning Val World} {decl : Source.MethodDecl} {w w₁ w₂ : World}
    {v₁ v₂ : Val} (h₁ : m.Returns decl w v₁ w₁) (h₂ : m.Returns decl w v₂ w₂) :
    v₁ = v₂ ∧ w₁ = w₂ := by
  obtain ⟨st₁, hexec₁, rfl, rfl⟩ := h₁
  obtain ⟨st₂, hexec₂, rfl, rfl⟩ := h₂
  obtain rfl := hexec₁.unique hexec₂
  exact ⟨rfl, rfl⟩

end Meaning

end Backend
