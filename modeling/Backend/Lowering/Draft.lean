/-
# Drafts: code while it is being written

Lowering writes instructions one after the other.  A `Draft` holds what has been written so far and
what the next instruction may depend on; `Lower` is a computation that adds to a draft or fails.
The code is executed in the order in which it is written.
-/
import Backend.Code.Instr
import Backend.Traced
import Backend.Lowering.Scope

namespace Backend.Lowering

/-- The code written so far, with the names in scope at its end. -/
structure Draft where
  code : Array Instr := #[]
  scope : Scope := []
  labels : LabelSupply := {}
  events : List Event := []

/-- A computation that adds to a draft, or fails. -/
abbrev Lower := StateT Draft (Except Fault)

/-- Write an instruction; the result is its number. -/
def emit (op : Op) (span : Span) : Lower Nat := fun d =>
  .ok (d.code.size, { d with code := d.code.push { op, span := some span } })

/-- Draw a label number. -/
def freshLabel : Lower Nat := fun d => .ok (d.labels.fresh.1, { d with labels := d.labels.fresh.2 })

/-- The names in scope. -/
def currentScope : Lower Scope := fun d => .ok (d.scope, d)

/-- Go on with other names in scope. -/
def setScope (scope : Scope) : Lower Unit := fun d => .ok ((), { d with scope })

/-- Let a name stand for an instruction from now on. -/
def define (name : Name) (id : Nat) : Lower Unit := fun d =>
  .ok ((), { d with scope := d.scope.define name id })

/-- Report an event. -/
def report (e : Event) : Lower Unit := fun d => .ok ((), { d with events := d.events ++ [e] })

/-- Fail. -/
def refuse {α : Type} (fault : Fault) : Lower α := fun _ => .error fault

/-! ## What the primitives do to a draft -/

/-- What follows goes on with the result and the draft. -/
theorem bind_apply {α β : Type} (x : Lower α) (f : α → Lower β) (d : Draft) :
    (x >>= f) d = (x d).bind fun r => f r.1 r.2 := rfl

@[simp] theorem pure_apply {α : Type} (a : α) (d : Draft) : (pure a : Lower α) d = .ok (a, d) := rfl

/-- Writing an instruction gives it the next number. -/
@[simp] theorem emit_apply (op : Op) (span : Span) (d : Draft) :
    emit op span d = .ok (d.code.size, { d with code := d.code.push { op, span := some span } }) :=
  rfl

/-- Label numbers are drawn in order. -/
@[simp] theorem freshLabel_apply (d : Draft) :
    freshLabel d = .ok (d.labels.next, { d with labels := ⟨d.labels.next + 1⟩ }) := rfl

@[simp] theorem currentScope_apply (d : Draft) : currentScope d = .ok (d.scope, d) := rfl

@[simp] theorem setScope_apply (scope : Scope) (d : Draft) :
    setScope scope d = .ok ((), { d with scope }) := rfl

/-- A definition changes the scope only. -/
@[simp] theorem define_apply (name : Name) (id : Nat) (d : Draft) :
    define name id d = .ok ((), { d with scope := d.scope.define name id }) := rfl

@[simp] theorem report_apply (e : Event) (d : Draft) :
    report e d = .ok ((), { d with events := d.events ++ [e] }) := rfl

@[simp] theorem refuse_apply {α : Type} (fault : Fault) (d : Draft) :
    (refuse fault : Lower α) d = .error fault := rfl

/-- A step that succeeds splits into a first part that succeeds and what follows it. -/
theorem bind_eq_ok {α β : Type} {x : Lower α} {f : α → Lower β} {d : Draft} {r : β × Draft}
    (h : (x >>= f) d = .ok r) : ∃ a d', x d = .ok (a, d') ∧ f a d' = .ok r := by
  rw [bind_apply] at h
  cases hx : x d with
  | error fault =>
    rw [hx] at h
    exact absurd h (by simp [Except.bind])
  | ok p =>
    rw [hx] at h
    exact ⟨p.1, p.2, rfl, h⟩

/-! ## Joining paths -/

/-- Write the instruction that joins the two definitions of a name. -/
def emitJoin (span : Span) (j : Join) : Lower Unit := do
  let id ← emit (.unify j.left j.right) span
  report (.joined j.name id j.left j.right)
  define j.name id

/-- Join the current definitions with those at the end of another path. -/
def joinWith (other : Scope) (span : Span) : Lower Unit := do
  let ours ← currentScope
  (ours.joins other).forM (emitJoin span)

end Backend.Lowering
