/-
# Syntax trees

The trees of a small language of classes and methods.  Assignments are expressions; what stands on
the left of one is a `Target`.  A name without a declaration in the method means a member of
`this`.
-/
import Backend.Source.Operator

namespace Backend.Source

/-- The type of a declared name. -/
inductive Ty where
  | int
  | boolean
  | intArray
  | ofClass (name : Name)
  deriving DecidableEq, Repr, Inhabited

/-- The declaration of a parameter, local variable or field. -/
structure Decl where
  name : Name
  ty : Ty := .int
  span : Span := {}
  deriving DecidableEq, Repr

mutual

/-- An expression. -/
inductive Expr where
  | assign (target : Target) (value : Expr) (span : Span)
  | binary (op : Operator) (left right : Expr) (span : Span)
  | not (value : Expr) (span : Span)
  | int (value : Int) (span : Span)
  | boolean (value : Bool) (span : Span)
  | null (span : Span)
  | this (span : Span)
  | var (name : Name) (span : Span)
  | member (object : Expr) (field : Name) (span : Span)
  | index (array index : Expr) (span : Span)
  | call (receiver : Expr) (method : Name) (args : List Expr) (span : Span)
  | newObject (className : Name) (span : Span)
  | newIntArray (size : Expr) (span : Span)

/-- The left side of an assignment. -/
inductive Target where
  | var (name : Name) (span : Span)
  | member (object : Expr) (field : Name) (span : Span)
  | index (array index : Expr) (span : Span)

end

/-- The stretch of source text that an expression covers. -/
def Expr.span : Expr → Span
  | assign _ _ span | binary _ _ _ span | not _ span | int _ span | boolean _ span | null span
  | this span | var _ span | member _ _ span | index _ _ span | call _ _ _ span
  | newObject _ span | newIntArray _ span => span

/-- A statement. -/
inductive Stmt where
  | block (body : List Stmt) (span : Span)
  | ite (cond : Expr) (thenBranch elseBranch : Stmt) (span : Span)
  | loop (cond : Expr) (body : Stmt) (span : Span)
  | print (value : Expr) (span : Span)
  | expr (value : Expr) (span : Span)

namespace Stmt

/-- The statement that does nothing. -/
def skip : Stmt := .block [] {}

/-- A conditional without an else branch. -/
def ifThen (cond : Expr) (thenBranch : Stmt) (span : Span) : Stmt := .ite cond thenBranch skip span

end Stmt

/-- The declaration of a method: after its statements it returns the value of `result`. -/
structure MethodDecl where
  name : Name
  returnTy : Ty := .int
  params : List Decl := []
  locals : List Decl := []
  body : List Stmt := []
  result : Expr
  span : Span := {}

/-- The declaration of a class. -/
structure ClassDecl where
  name : Name
  superclass : Option Name := none
  fields : List Decl := []
  methods : List MethodDecl := []
  span : Span := {}

/-- The class that holds the statement a program starts with, which has no receiver. -/
structure MainClass where
  name : Name
  body : Stmt
  span : Span := {}

/-- A program. -/
structure Program where
  main : MainClass
  classes : List ClassDecl := []

end Backend.Source
