/-
# Parts of expressions

What stands right below an expression, in the order of evaluation (`Expr.parts`), and what an
expression assigns to (`Expr.targets`).  A part is smaller than the whole and assigns to nothing
else, so facts about all expressions can be shown part by part.
-/
import Mathlib
import Backend.Source.Tree

namespace Backend.Source

/-! ## Targets -/

mutual

/-- The targets of all assignments in an expression. -/
def Expr.targets : Expr → List Target
  | .assign target value _ => value.targets ++ target :: target.targets
  | .binary _ left right _ => left.targets ++ right.targets
  | .not value _ => value.targets
  | .int _ _ | .boolean _ _ | .null _ | .this _ | .var _ _ | .newObject _ _ => []
  | .member object _ _ => object.targets
  | .index array index _ => array.targets ++ index.targets
  | .call receiver _ args _ => receiver.targets ++ listTargets args
  | .newIntArray size _ => size.targets

/-- The targets of all assignments in the parts of a target. -/
def Target.targets : Target → List Target
  | .var _ _ => []
  | .member object _ _ => object.targets
  | .index array index _ => array.targets ++ index.targets

/-- The targets of all assignments in several expressions. -/
def listTargets : List Expr → List Target
  | [] => []
  | e :: es => e.targets ++ listTargets es

end

/-- A list of targets none of which is the variable `x`. -/
def Avoid (x : Name) (ts : List Target) : Prop := ∀ span, .var x span ∉ ts

/-- Several expressions assign to what one of them assigns to. -/
theorem mem_listTargets {t : Target} {es : List Expr} :
    t ∈ listTargets es ↔ ∃ e ∈ es, t ∈ e.targets := by
  induction es with
  | nil => simp [listTargets]
  | cons e es ih => rw [listTargets, List.mem_append, ih]; simp

/-! ## Parts -/

/-- The expressions in a target, in the order of evaluation. -/
def Target.parts : Target → List Expr
  | .var _ _ => []
  | .member object _ _ => [object]
  | .index array i _ => [array, i]

/-- The expressions right below an expression, in the order of evaluation. -/
def Expr.parts : Expr → List Expr
  | .assign target value _ => value :: target.parts
  | .binary _ left right _ => [left, right]
  | .not value _ | .newIntArray value _ | .member value _ _ => [value]
  | .index array i _ => [array, i]
  | .call object _ args _ => object :: args
  | .int _ _ | .boolean _ _ | .null _ | .this _ | .var _ _ | .newObject _ _ => []

/-- A part is smaller than the whole. -/
theorem Expr.sizeOf_lt_of_mem_parts {e f : Expr} (h : f ∈ e.parts) : sizeOf f < sizeOf e := by
  cases e with
  | assign target value span =>
    cases target <;> simp [parts, Target.parts] at h <;> grind
  | call object method args span =>
    rcases List.mem_cons.1 h with rfl | h
    · simp
      omega
    · have := List.sizeOf_lt_of_mem h
      simp
      omega
  | _ => simp [parts] at h <;> grind

/-- Induction over the parts: an expression is settled once its parts are. -/
theorem Expr.induction_on_parts {motive : Expr → Prop}
    (h : ∀ e : Expr, (∀ f ∈ e.parts, motive f) → motive e) (e : Expr) : motive e :=
  h e fun f hf =>
    have := sizeOf_lt_of_mem_parts hf
    induction_on_parts h f
termination_by sizeOf e

/-- What a part assigns to, the whole assigns to. -/
theorem Expr.mem_targets_of_mem_parts {e f : Expr} (h : f ∈ e.parts) {t : Target}
    (ht : t ∈ f.targets) : t ∈ e.targets := by
  cases e with
  | assign target value span =>
    cases target <;> simp [parts, Target.parts] at h <;> simp [targets, Target.targets] <;> grind
  | call object method args span =>
    rw [targets, List.mem_append, mem_listTargets]
    rcases List.mem_cons.1 h with rfl | h
    · exact Or.inl ht
    · exact Or.inr ⟨f, h, ht⟩
  | _ => simp [parts] at h <;> simp [targets] <;> grind

end Backend.Source
