/-
# Methods, classes and programs of linear code
-/
import Backend.Code.Body

namespace Backend.Code

/-- A method: its name, the names of its parameters and its code. -/
structure Method where
  name : Name
  params : List Name := []
  body : Body
  deriving DecidableEq, Repr

/-- A class with its methods. -/
structure Class where
  name : Name
  superclass : Option Name := none
  fields : List Name := []
  methods : List Method := []
  deriving DecidableEq, Repr

/-- A program: the method it starts with, and its classes. -/
structure Program where
  main : Method
  classes : List Class := []
  deriving DecidableEq, Repr

/-- All methods of a program, the one it starts with first. -/
def Program.methods (p : Program) : List Method := p.main :: p.classes.flatMap (·.methods)

end Backend.Code
