/-
# Evaluating expressions

What the steps of an expression say about its code as a whole: it joins nothing and assigns to the
targets of the expression only (`evaluates_lowerExpr`), and a result that binds a name is what the
name is bound to (`lookup_of_nameOf`).  The same holds for the rest of an expression behind one of
the expressions in it (`Within.exists_lowerExpr`).
-/
import Mathlib
import Backend.Proofs.Methods

namespace Backend.Lowering

open Source (Expr Target)

/-! ## What the code of an expression does -/

/-- From one draft to the next, code has been written as for an expression: it joins nothing,
assigns to names in `A` only, and what is bound anew is bound to new instructions. -/
structure Draft.Evaluates (A : Name → Prop) (d d' : Draft) : Prop where
  ops : d.ops <+: d'.ops
  written : ∀ (p : Nat) (op : Op), d.code.size ≤ p → d'.ops[p]? = some op → op.isUnify = false ∧
    ∀ v x, op = .assignVar v x → A x ∧ ∃ j, d'.scope.lookup x = some j ∧ d.code.size ≤ j
  scope : ∀ x, d'.scope.lookup x = d.scope.lookup x ∨
    ∃ j, d'.scope.lookup x = some j ∧ d.code.size ≤ j

/-- Whether an operation binds no name. -/
def bindsNothing : Op → Bool
  | .unify _ _ | .assignVar _ _ => false
  | _ => true

/-- What binds no name is neither a join nor an assignment. -/
theorem of_bindsNothing {op : Op} (h : bindsNothing op = true) :
    op.isUnify = false ∧ ∀ v x, op ≠ .assignVar v x := by
  cases op <;> simp_all [bindsNothing, Op.isUnify]

namespace Draft.Evaluates

variable {A : Name → Prop} {d d' d'' : Draft}

theorem size_le (h : d.Evaluates A d') : d.code.size ≤ d'.code.size := by
  rw [← d.length_ops, ← d'.length_ops]
  exact h.ops.length_le

theorem refl (A : Name → Prop) (d : Draft) : d.Evaluates A d where
  ops := List.prefix_rfl
  written p op hle hp := by
    have hlt := (List.getElem?_eq_some_iff.1 hp).1
    rw [d.length_ops] at hlt
    omega
  scope _ := Or.inl rfl

/-- Code as for an expression may be followed by more such code. -/
theorem trans (h : d.Evaluates A d') (h' : d'.Evaluates A d'') : d.Evaluates A d'' where
  ops := h.ops.trans h'.ops
  written p op hle hp := by
    have hsize := h.size_le
    rcases Nat.lt_or_ge p d'.code.size with hlt | hge
    · -- written in the first part; the second part may have bound the name again
      rw [getElem?_ops_eq h'.ops hlt] at hp
      obtain ⟨hunify, hassign⟩ := h.written p op hle hp
      refine ⟨hunify, fun v x hop => ?_⟩
      obtain ⟨hA, j, hj, hle'⟩ := hassign v x hop
      refine ⟨hA, ?_⟩
      rcases h'.scope x with hsame | ⟨k, hk, hle''⟩
      · exact ⟨j, hsame.trans hj, hle'⟩
      · exact ⟨k, hk, by omega⟩
    · obtain ⟨hunify, hassign⟩ := h'.written p op hge hp
      refine ⟨hunify, fun v x hop => ?_⟩
      obtain ⟨hA, j, hj, hle'⟩ := hassign v x hop
      exact ⟨hA, j, hj, by omega⟩
  scope x := by
    have hsize := h.size_le
    rcases h'.scope x with hsame | ⟨k, hk, hle⟩
    · rw [hsame]
      exact h.scope x
    · exact Or.inr ⟨k, hk, by omega⟩

/-- The only instruction written between a draft and the one with one more instruction. -/
theorem eq_of_write {op op' : Op} {span : Span} {p : Nat} (hle : d.code.size ≤ p)
    (hp : (d.write op span).ops[p]? = some op') : op' = op := by
  rw [ops_write] at hp
  rcases getElem?_concat_cases hp with hold | ⟨-, hop⟩
  · have hlt := (List.getElem?_eq_some_iff.1 hold).1
    rw [d.length_ops] at hlt
    omega
  · exact hop

/-- An instruction that binds no name is code as for an expression. -/
theorem write (A : Name → Prop) (d : Draft) {op : Op} (hop : bindsNothing op = true) (span : Span) :
    d.Evaluates A (d.write op span) where
  ops := d.prefix_write op span
  written p op' hle hp := by
    rw [eq_of_write hle hp]
    obtain ⟨hunify, hassign⟩ := of_bindsNothing hop
    exact ⟨hunify, fun v x h => absurd h (hassign v x)⟩
  scope _ := Or.inl rfl

/-- So is an assignment to a name in `A`. -/
theorem assign (d : Draft) (v : Nat) {x : Name} (hx : A x) (span : Span) :
    d.Evaluates A (d.assign v x span) where
  ops := d.prefix_write _ span
  written p op hle hp := by
    rw [eq_of_write hle hp]
    refine ⟨rfl, fun w y h => ?_⟩
    obtain ⟨-, rfl⟩ := Op.assignVar.inj h
    exact ⟨hx, d.code.size, (Scope.lookup_define ..).trans (if_pos rfl), le_refl _⟩
  scope y := by
    show (d.scope.define x d.code.size).lookup y = _ ∨
      ∃ j, (d.scope.define x d.code.size).lookup y = some j ∧ _
    rw [Scope.lookup_define]
    split
    · exact Or.inr ⟨d.code.size, rfl, le_refl _⟩
    · exact Or.inl rfl

end Draft.Evaluates

/-- Arguments are handed over as for an expression. -/
theorem evaluates_emitArgs (A : Name → Prop) {args : List (Nat × Span)} {start : Nat} {d d' : Draft}
    {ids : List Nat} (h : emitArgs start args d = .ok (ids, d')) : d.Evaluates A d' :=
  keeps_emitArgs (P := d.Evaluates A) h (.refl A d) fun a _ e _ he => he.trans (.write A e rfl a.2)

theorem bindsNothing_of_evaluating {op : Op} (h : evaluating op = true) :
    bindsNothing op = true := by
  cases op <;> first | rfl | cases h

/-- A step of an expression writes code as for an expression. -/
theorem Evaluation.Step.evaluates {A : Name → Prop} {s s' : Evaluation} (h : s.Step A s') :
    s.draft.Evaluates A s'.draft := by
  cases h with
  | read _ => exact .refl A _
  | write span hop _ => exact .write A _ (bindsNothing_of_evaluating hop) span
  | assign span _ _ hA => exact .assign _ _ hA span
  | call method span _ _ h => exact (evaluates_emitArgs A h).trans (.write A _ rfl span)

/-- Steps of an expression write code as for an expression. -/
theorem Evaluation.Steps.evaluates {A : Name → Prop} {s s' : Evaluation} (h : s.Steps A s') :
    s.draft.Evaluates A s'.draft :=
  h.keeps (P := fun t => s.draft.Evaluates A t.draft) (.refl A _) fun _ _ ht step =>
    ht.trans step.evaluates

/-- **Expressions join nothing**, and assign to their targets only. -/
theorem evaluates_lowerExpr {receiver : Bool} {A : Name → Prop} (e : Expr)
    (hA : ∀ x at', .var x at' ∈ e.targets → A x) {d d' : Draft} {id : Nat}
    (h : lowerExpr receiver e d = .ok (id, d')) : d.Evaluates A d' := by
  obtain ⟨vs, hs⟩ := exists_steps_lowerExpr e hA h
  exact hs.evaluates

/-- Several expressions join nothing, and assign to their targets only. -/
theorem evaluates_lowerExprs {receiver : Bool} {A : Name → Prop} (es : List Expr)
    (hA : ∀ x at', .var x at' ∈ Source.listTargets es → A x) {d d' : Draft} {ids : List Nat}
    (h : lowerExprs receiver es d = .ok (ids, d')) : d.Evaluates A d' := by
  obtain ⟨vs, -, hs⟩ := exists_steps_lowerExprs es hA h
  exact hs.evaluates

/-! ## Which names the results of expressions bind -/

section

variable {decls : List Name} {d d' : Draft} {id : Nat} {x : Name}

/-- Behind the declarations, what binds a name and joins nothing is an assignment. -/
theorem exists_assignVar_of_nameOf {ops : List Op} {p : Nat} {op : Op} (hp : ops[p]? = some op)
    (hunify : op.isUnify = false) (hle : decls.length ≤ p) (hx : nameOf decls ops p = some x) :
    ∃ v, op = .assignVar v x := by
  have hlen : (boundNames decls (ops.take p)).length = p := by
    rw [length_boundNames, List.length_take_of_le (le_of_lt (List.getElem?_eq_some_iff.1 hp).1)]
  have hnone : decls[p]? = none := List.getElem?_eq_none hle
  rw [nameOf_eq_nextName decls hp] at hx
  cases op with
  | assignVar v y => exact ⟨v, by rw [Option.some.inj hx]⟩
  | unify l r => cases hunify
  | _ =>
    change decls[(boundNames decls (ops.take p)).length]? = some x at hx
    rw [hlen, hnone] at hx
    cases hx

/-- The newest value at hand, if it binds a name, is what the name is bound to. -/
theorem Evaluation.Step.lookup_of_nameOf {A : Name → Prop} {s : Evaluation} {vs : List Nat}
    (h : s.Step A ⟨d', id :: vs⟩) (hd : s.draft.Sound decls)
    (hle : decls.length ≤ s.draft.code.size) (hx : nameOf decls d'.ops id = some x) :
    d'.scope.lookup x = some id := by
  -- behind the declarations, an operation of an expression binds nothing
  have hnone : ∀ {e : Draft} {op : Op} {span : Span}, evaluating op = true →
      decls.length ≤ e.code.size → nameOf decls (e.write op span).ops e.code.size ≠ some x := by
    intro e op span hop hle hx
    obtain ⟨hunify, hassign⟩ := of_bindsNothing (bindsNothing_of_evaluating hop)
    obtain ⟨v, hv⟩ :=
      exists_assignVar_of_nameOf (e.getElem?_ops_write_self op span) hunify hle hx
    exact hassign v x hv
  cases h with
  | read hy =>
    rw [hd.scope.names _ _ hy] at hx
    rw [← Option.some.inj hx, hy]
  | write span hop _ => exact absurd hx (hnone hop hle)
  | assign span _ _ _ =>
    rw [nameOf_assign] at hx
    rw [← Option.some.inj hx]
    exact (Scope.lookup_define ..).trans (if_pos rfl)
  | call method span _ _ h =>
    exact absurd hx (hnone rfl (le_trans hle (evaluates_emitArgs A h).size_le))

/-- **A result that binds a name is what the name is bound to.** -/
theorem lookup_of_nameOf {receiver : Bool} {e : Expr} (h : lowerExpr receiver e d = .ok (id, d'))
    (hd : d.Sound decls) (hle : decls.length ≤ d.code.size)
    (hx : nameOf decls d'.ops id = some x) : d'.scope.lookup x = some id := by
  obtain ⟨vs, hs⟩ := exists_steps_lowerExpr (A := fun _ => True) e (fun _ _ _ => trivial) h
  rcases hs.cases_tail with heq | ⟨s, hs, hlast⟩
  · cases heq
  · -- the result is the value that the last step has put at hand
    have hg := (Evaluation.Steps.grows hs hd (List.forall_mem_nil _)).1
    exact hlast.lookup_of_nameOf hg.sound (le_trans hle hg.size_le) hx

end

/-! ## Expressions in expressions -/

/-- Lowering an expression from one draft comes to an expression in it, in the draft that stands
last. -/
inductive Within (receiver : Bool) : Expr → Draft → Expr → Draft → Prop
  | here (e : Expr) (d : Draft) : Within receiver e d e d
  | part {e f g : Expr} {pre post : List Expr} {ids : List Nat} {d d₁ d₂ : Draft}
      (hparts : e.parts = pre ++ f :: post) (hpre : lowerExprs receiver pre d = .ok (ids, d₁))
      (h : Within receiver f d₁ g d₂) : Within receiver e d g d₂

/-- The value of an assignment is evaluated first. -/
theorem Within.value {receiver : Bool} (t : Target) (v : Expr) (span : Span) (d : Draft) :
    Within receiver (.assign t v span) d v d :=
  .part (show _ = [] ++ v :: t.parts from rfl) rfl (.here v d)

/-- Several expressions one after the other: those in front of one of them, this one, and the
rest. -/
theorem exists_lowerExprs_append {receiver : Bool} {pre post : List Expr} {f : Expr}
    {d d₁ d' : Draft} {is ids : List Nat} (hpre : lowerExprs receiver pre d = .ok (is, d₁))
    (h : lowerExprs receiver (pre ++ f :: post) d = .ok (ids, d')) :
    ∃ i d₂ js, lowerExpr receiver f d₁ = .ok (i, d₂) ∧
      lowerExprs receiver post d₂ = .ok (js, d') := by
  induction pre generalizing d is ids with
  | nil =>
    cases hpre
    obtain ⟨i, d₂, h₂, h⟩ := bind_eq_ok h
    obtain ⟨js, d₃, h₃, h⟩ := bind_eq_ok h
    cases h
    exact ⟨i, d₂, js, h₂, h₃⟩
  | cons e pre ih =>
    obtain ⟨i, d₂, h₂, hpre⟩ := bind_eq_ok hpre
    obtain ⟨is', d₃, h₃, hpre⟩ := bind_eq_ok hpre
    cases hpre
    obtain ⟨i', d₂', h₂', h⟩ := bind_eq_ok h
    obtain ⟨ids', d₃', h₃', h⟩ := bind_eq_ok h
    cases h
    obtain rfl : d₂ = d₂' := congrArg Prod.snd (Except.ok.inj (h₂.symm.trans h₂'))
    exact ih h₃ h₃'

/-- An expression that is reached in another one is lowered from a sound draft, and what follows is
the rest of the code of an expression. -/
theorem Within.exists_lowerExpr {receiver : Bool} {decls : List Name} {e g : Expr} {d d₀ d' : Draft}
    {id : Nat} (hw : Within receiver e d g d₀) (h : lowerExpr receiver e d = .ok (id, d'))
    (hd : d.Sound decls) : d.Grows decls d₀ [] ∧ ∃ i d₁, lowerExpr receiver g d₀ = .ok (i, d₁) ∧
      d₁.Evaluates (fun _ => True) d' := by
  induction hw generalizing id d' with
  | here e d => exact ⟨.refl hd, id, d', h, .refl _ d'⟩
  | @part e f g pre post is d d₁ d₂ hparts hpre _ ih =>
    obtain ⟨ids, d₃, h₃, hy⟩ := exists_parts (A := fun _ => True) e (fun _ _ _ => trivial) h
    obtain ⟨vs, hends⟩ := hy ids (List.Subset.refl _)
    rw [hparts] at h₃
    obtain ⟨i, d₄, js, h₄, hpost⟩ := exists_lowerExprs_append hpre h₃
    have hg := (grows_lowerExprs pre hpre hd).1
    obtain ⟨hg', j, d₅, h₅, heval⟩ := ih h₄ hg.sound
    have hrest := evaluates_lowerExprs post (fun _ _ _ => trivial) hpost
    exact ⟨hg.trans hg', j, d₅, h₅, (heval.trans hrest).trans hends.evaluates⟩

end Backend.Lowering
