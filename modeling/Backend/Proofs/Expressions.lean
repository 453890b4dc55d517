/-
# How expressions are written

The code of an expression is written step by step (`Evaluation.Step`): a variable is read, an
operation is written whose operands are at hand, a variable is assigned to, or a method is called,
with its arguments handed over right in front of the call.  That expressions are written in no other
way is shown once, over all their forms (`exists_parts`, `yields_lowerExpr`).  What every step
keeps, every expression keeps (`keeps_lowerExpr`), so an invariant of lowering takes one step lemma.
-/
import Mathlib
import Backend.Lowering.Method
import Backend.Proofs.Trees

namespace Backend.Lowering

open Source (Expr Target)

/-! ## Written code -/

/-- The operations written so far. -/
def Draft.ops (d : Draft) : List Op := d.code.toList.map (·.op)

@[simp] theorem Draft.length_ops (d : Draft) : d.ops.length = d.code.size := by
  rw [ops, List.length_map, Array.length_toList]

/-- Longer code has the same instructions at old places. -/
theorem getElem?_of_isPrefix {ops ops' : List Op} (h : ops <+: ops') {p : Nat} {op : Op}
    (hp : ops[p]? = some op) : ops'[p]? = some op := by
  obtain ⟨more, rfl⟩ := h
  rw [List.getElem?_append_left (List.getElem?_eq_some_iff.1 hp).1, hp]

/-- Longer code says the same about old places. -/
theorem Draft.getElem?_ops_eq {d d' : Draft} (h : d.ops <+: d'.ops) {p : Nat}
    (hlt : p < d.code.size) : d'.ops[p]? = d.ops[p]? := by
  obtain ⟨more, hmore⟩ := h
  rw [← hmore, List.getElem?_append_left (by rwa [d.length_ops])]

/-- Write an instruction. -/
def Draft.write (d : Draft) (op : Op) (span : Span) : Draft :=
  { d with code := d.code.push { op, span := some span } }

/-- Write an assignment to a variable in scope. -/
def Draft.assign (d : Draft) (v : Nat) (x : Name) (span : Span) : Draft :=
  { d.write (.assignVar v x) span with scope := d.scope.define x d.code.size }

section

variable {d d' : Draft} {op : Op} {span : Span}

@[simp] theorem Draft.ops_write : (d.write op span).ops = d.ops ++ [op] := by
  rw [ops, ops, write, Array.toList_push, List.map_append]
  rfl

theorem Draft.prefix_write (d : Draft) (op : Op) (span : Span) :
    d.ops <+: (d.write op span).ops := by
  rw [ops_write]
  exact List.prefix_append _ _

@[simp] theorem Draft.scope_write : (d.write op span).scope = d.scope := rfl

@[simp] theorem Draft.size_write : (d.write op span).code.size = d.code.size + 1 :=
  Array.size_push ..

/-- The instruction that has just been written. -/
theorem Draft.getElem?_ops_write_self (d : Draft) (op : Op) (span : Span) :
    (d.write op span).ops[d.code.size]? = some op := by
  rw [ops_write, ← d.length_ops]
  exact List.getElem?_concat_length

/-- An instruction of longer code is an old one or the last one. -/
theorem getElem?_concat_cases {ops : List Op} {op' : Op} {p : Nat}
    (h : (ops ++ [op])[p]? = some op') : ops[p]? = some op' ∨ p = ops.length ∧ op' = op := by
  rw [List.getElem?_append] at h
  split at h
  · exact Or.inl h
  · obtain ⟨hlt, hop⟩ := List.getElem?_eq_some_iff.1 h
    rw [List.length_singleton] at hlt
    rw [List.getElem_singleton] at hop
    exact Or.inr ⟨by omega, hop.symm⟩

/-- What it means to write an instruction. -/
theorem emit_eq_ok {id : Nat} :
    emit op span d = .ok (id, d') ↔ id = d.code.size ∧ d' = d.write op span := by
  rw [emit_apply, Except.ok.injEq, Prod.mk.injEq]
  exact ⟨fun h => ⟨h.1.symm, h.2.symm⟩, fun h => ⟨h.1.symm, h.2.symm⟩⟩

/-- Writing a `this` that is not refused. -/
theorem emit_of_emitThis {receiver : Bool} {name : Name} {id : Nat}
    (h : emitThis receiver name span d = .ok (id, d')) : emit .this span d = .ok (id, d') := by
  rw [emitThis] at h
  split at h
  · exact h
  · cases h

/-- **Run lemma for arguments.**  What every argument keeps, handing over arguments keeps. -/
theorem keeps_emitArgs {P : Draft → Prop} {args : List (Nat × Span)} {start : Nat} {ids : List Nat}
    (h : emitArgs start args d = .ok (ids, d')) (hd : P d)
    (hstep : ∀ a ∈ args, ∀ (e : Draft) (n : Nat), P e → P (e.write (.arg a.1 n) a.2)) : P d' := by
  induction args generalizing start d ids with
  | nil =>
    cases h
    exact hd
  | cons a args ih =>
    obtain ⟨id, d₁, h₁, h⟩ := bind_eq_ok h
    obtain ⟨ids', d₂, h₂, h⟩ := bind_eq_ok h
    cases h
    obtain ⟨-, rfl⟩ := emit_eq_ok.1 h₁
    exact ih h₂ (hstep a List.mem_cons_self d start hd)
      fun b hb => hstep b (List.mem_cons_of_mem a hb)

/-- Handing over arguments only adds to the code. -/
theorem prefix_emitArgs {args : List (Nat × Span)} {start : Nat} {ids : List Nat}
    (h : emitArgs start args d = .ok (ids, d')) : d.ops <+: d'.ops :=
  keeps_emitArgs (P := fun e => d.ops <+: e.ops) h List.prefix_rfl fun _ _ e _ he =>
    he.trans (e.prefix_write _ _)

/-- Handing over arguments binds nothing. -/
theorem scope_emitArgs {args : List (Nat × Span)} {start : Nat} {ids : List Nat}
    (h : emitArgs start args d = .ok (ids, d')) : d'.scope = d.scope :=
  keeps_emitArgs (P := fun e => e.scope = d.scope) h rfl fun _ _ _ _ he => he

/-- What is handed over stands in the code. -/
theorem exists_arg_of_emitArgs {args : List (Nat × Span)} {start : Nat} {ids : List Nat}
    (h : emitArgs start args d = .ok (ids, d')) :
    ∀ id ∈ ids, ∃ v n, d'.ops[id]? = some (.arg v n) := by
  induction args generalizing start d ids with
  | nil =>
    cases h
    exact List.forall_mem_nil _
  | cons a args ih =>
    obtain ⟨id, d₁, h₁, h⟩ := bind_eq_ok h
    obtain ⟨ids', d₂, h₂, h⟩ := bind_eq_ok h
    cases h
    obtain ⟨rfl, rfl⟩ := emit_eq_ok.1 h₁
    exact List.forall_mem_cons.2 ⟨⟨a.1, start,
      getElem?_of_isPrefix (prefix_emitArgs h₂) (d.getElem?_ops_write_self _ _)⟩, ih h₂⟩

/-- Several expressions are written one after the other. -/
theorem lowerExprs_cons {receiver : Bool} {e : Expr} {es : List Expr} {d₁ d₂ : Draft} {i : Nat}
    {is : List Nat} (h : lowerExpr receiver e d = .ok (i, d₁))
    (h' : lowerExprs receiver es d₁ = .ok (is, d₂)) :
    lowerExprs receiver (e :: es) d = .ok (i :: is, d₂) := by
  rw [lowerExprs, bind_apply, h]
  show (lowerExprs receiver es >>= _) d₁ = _
  rw [bind_apply, h']
  rfl

end

/-! ## Steps of an evaluation -/

/-- Whether an operation computes the value of an expression from the values of its operands. -/
def evaluating : Op → Bool
  | .this | .null | .int _ | .boolean _ | .newObject _ | .newIntArray _ | .call .. | .member ..
  | .index .. | .assignMember .. | .assignIndex .. | .not _ | .binary .. => true
  | _ => false

section

variable {op : Op}

theorem isUnify_of_evaluating (h : evaluating op = true) : op.isUnify = false := by
  cases op <;> first | rfl | cases h

theorem labelHere_of_evaluating (h : evaluating op = true) : op.labelHere = none := by
  cases op <;> first | rfl | cases h

theorem target_of_evaluating (h : evaluating op = true) : op.target = none := by
  cases op <;> first | rfl | cases h

theorem definesValue_of_evaluating (h : evaluating op = true) : op.definesValue = true := by
  cases op <;> first | rfl | cases h

end

/-- An expression that is being written: the draft so far, and the instructions whose values are at
hand, the newest first. -/
structure Evaluation where
  draft : Draft
  values : List Nat

/-- How an expression is written, one value at a time.  Only names in `A` are assigned to. -/
inductive Evaluation.Step (A : Name → Prop) : Evaluation → Evaluation → Prop
  | read {d : Draft} {vs : List Nat} {x : Name} {id : Nat} (hx : d.scope.lookup x = some id) :
      Step A ⟨d, vs⟩ ⟨d, id :: vs⟩
  | write {d : Draft} {vs : List Nat} {op : Op} (span : Span) (hop : evaluating op = true)
      (hread : ∀ o ∈ op.operands, o ∈ vs) :
      Step A ⟨d, vs⟩ ⟨d.write op span, d.code.size :: vs⟩
  | assign {d : Draft} {vs : List Nat} {v : Nat} {x : Name} (span : Span) (hv : v ∈ vs)
      (hx : (d.scope.lookup x).isSome) (hA : A x) :
      Step A ⟨d, vs⟩ ⟨d.assign v x span, d.code.size :: vs⟩
  | call {d d₁ : Draft} {vs : List Nat} {object : Nat} {args : List (Nat × Span)} {ids : List Nat}
      (method : Name) (span : Span) (hobject : object ∈ vs) (hargs : ∀ a ∈ args, a.1 ∈ vs)
      (h : emitArgs 0 args d = .ok (ids, d₁)) :
      Step A ⟨d, vs⟩ ⟨d₁.write (.call object method ids) span, d₁.code.size :: vs⟩

/-- From one evaluation to another by steps. -/
def Evaluation.Steps (A : Name → Prop) (s s' : Evaluation) : Prop :=
  Relation.ReflTransGen (Evaluation.Step A) s s'

namespace Evaluation

variable {A : Name → Prop} {s s' s'' : Evaluation}

theorem Steps.single (h : s.Step A s') : s.Steps A s' := Relation.ReflTransGen.single h

theorem Steps.trans (h : s.Steps A s') (h' : s'.Steps A s'') : s.Steps A s'' :=
  Relation.ReflTransGen.trans h h'

/-- **Run lemma.**  What every step keeps, steps keep. -/
theorem Steps.keeps {P : Evaluation → Prop} (h : s.Steps A s') (hs : P s)
    (hstep : ∀ t t', P t → t.Step A t' → P t') : P s' := by
  unfold Steps at h
  induction h with
  | refl => exact hs
  | tail _ step ih => exact hstep _ _ ih step

/-- A step only adds to the code. -/
theorem Step.ops (h : s.Step A s') : s.draft.ops <+: s'.draft.ops := by
  cases h with
  | read _ => exact List.prefix_rfl
  | write span _ _ => exact Draft.prefix_write _ _ span
  | assign span _ _ _ => exact Draft.prefix_write _ _ span
  | call method span _ _ h => exact (prefix_emitArgs h).trans (Draft.prefix_write _ _ span)

theorem Steps.ops (h : s.Steps A s') : s.draft.ops <+: s'.draft.ops :=
  h.keeps (P := fun t => s.draft.ops <+: t.draft.ops) List.prefix_rfl fun _ _ ht step =>
    ht.trans step.ops

theorem Step.size_le (h : s.Step A s') : s.draft.code.size ≤ s'.draft.code.size := by
  rw [← Draft.length_ops, ← Draft.length_ops]
  exact h.ops.length_le

/-- A step puts one more value at hand. -/
theorem Step.exists_values (h : s.Step A s') : ∃ id, s'.values = id :: s.values := by
  cases h <;> exact ⟨_, rfl⟩

theorem Steps.values_subset (h : s.Steps A s') : s.values ⊆ s'.values := by
  refine h.keeps (P := fun t => s.values ⊆ t.values) (List.Subset.refl _) fun t t' ht step => ?_
  obtain ⟨id, hid⟩ := step.exists_values
  rw [hid]
  exact List.Subset.trans ht (List.subset_cons_self id t.values)

/-- The draft is as it should be, and so are the values at hand. -/
def Good (P : Draft → Prop) (V : Draft → Nat → Prop) (s : Evaluation) : Prop :=
  P s.draft ∧ ∀ v ∈ s.values, V s.draft v

end Evaluation

/-! ## Expressions are written by steps -/

/-- Where the values in `ids` are at hand, steps lead to another draft and put a value at hand. -/
def Draft.Yields (A : Name → Prop) (d : Draft) (ids : List Nat) (d' : Draft) (id : Nat) : Prop :=
  ∀ vs, ids ⊆ vs → ∃ vs', (Evaluation.mk d vs).Steps A ⟨d', id :: vs'⟩

section

variable {A : Name → Prop} {receiver : Bool} {d d' : Draft} {id : Nat} {ids : List Nat}

namespace Draft.Yields

/-- One step. -/
theorem step (h : ∀ vs, ids ⊆ vs → (Evaluation.mk d vs).Step A ⟨d', id :: vs⟩) :
    d.Yields A ids d' id := fun vs hvs => ⟨vs, .single (h vs hvs)⟩

/-- Writing an operation. -/
theorem emit {op : Op} {span : Span} (h : emit op span d = .ok (id, d'))
    (hop : evaluating op = true) (hread : op.operands ⊆ ids) : d.Yields A ids d' id := by
  obtain ⟨rfl, rfl⟩ := emit_eq_ok.1 h
  exact step fun vs hvs => .write span hop fun o ho => hvs (hread ho)

/-- Writing an operation on `this`. -/
theorem emit_this {op : Op} {span : Span} {name : Name} {o : Nat} {d₁ : Draft}
    (h₁ : emitThis receiver name span d = .ok (o, d₁)) (h : Lowering.emit op span d₁ = .ok (id, d'))
    (hop : evaluating op = true) (hread : op.operands ⊆ o :: ids) : d.Yields A ids d' id := by
  obtain ⟨rfl, rfl⟩ := emit_eq_ok.1 (emit_of_emitThis h₁)
  obtain ⟨rfl, rfl⟩ := emit_eq_ok.1 h
  intro vs hvs
  refine ⟨_, (Evaluation.Steps.single (.write span rfl (List.forall_mem_nil _))).trans
    (.single (.write span hop fun o' ho => ?_))⟩
  exact List.cons_subset_cons _ hvs (hread ho)

end Draft.Yields

/-- Inversion of assignments: the parts of the target come first, and then the assignment. -/
theorem exists_parts_target {value : Nat} {span : Span} (t : Target)
    (hA : ∀ x at', t = .var x at' → A x)
    (h : lowerTarget receiver value span t d = .ok (id, d')) :
    ∃ ids d₁, lowerExprs receiver t.parts d = .ok (ids, d₁) ∧ d₁.Yields A (value :: ids) d' id := by
  match t with
  | .var name at' =>
    obtain ⟨scope, d₁, h₁, h⟩ := bind_eq_ok h
    cases h₁
    refine ⟨_, d, rfl, ?_⟩
    cases hx : d.scope.lookup name with
    | some i =>
      simp only [hx] at h
      obtain ⟨j, d₂, h₂, h⟩ := bind_eq_ok h
      obtain ⟨rfl, rfl⟩ := emit_eq_ok.1 h₂
      cases h
      have hsome : (d.scope.lookup name).isSome := by rw [hx]; rfl
      exact .step fun vs hvs => .assign span (hvs List.mem_cons_self) hsome (hA name at' rfl)
    | none =>
      simp only [hx] at h
      obtain ⟨o, d₂, h₂, h⟩ := bind_eq_ok h
      exact .emit_this h₂ h rfl (List.Subset.refl _)
  | .member object field _ =>
    obtain ⟨o, d₁, h₁, h⟩ := bind_eq_ok h
    exact ⟨_, d₁, lowerExprs_cons h₁ rfl, .emit h rfl (by simp [Op.operands])⟩
  | .index array index _ =>
    obtain ⟨a, d₁, h₁, h⟩ := bind_eq_ok h
    obtain ⟨i, d₂, h₂, h⟩ := bind_eq_ok h
    exact ⟨_, d₂, lowerExprs_cons h₁ (lowerExprs_cons h₂ rfl), .emit h rfl (by simp [Op.operands])⟩

/-- **Inversion of expressions.**  The parts come first, in their order, and then steps that read
their values. -/
theorem exists_parts (e : Expr) (hA : ∀ x at', .var x at' ∈ e.targets → A x)
    (h : lowerExpr receiver e d = .ok (id, d')) :
    ∃ ids d₁, lowerExprs receiver e.parts d = .ok (ids, d₁) ∧ d₁.Yields A ids d' id := by
  match e with
  | .assign target value span =>
    obtain ⟨v, d₁, h₁, h⟩ := bind_eq_ok h
    have hmem : target ∈ (Expr.assign target value span).targets :=
      List.mem_append_right _ List.mem_cons_self
    obtain ⟨ids, d₂, h₂, hy⟩ := exists_parts_target target (fun x at' ht => hA x at' (ht ▸ hmem)) h
    exact ⟨_, d₂, lowerExprs_cons h₁ h₂, hy⟩
  | .binary op left right span =>
    obtain ⟨l, d₁, h₁, h⟩ := bind_eq_ok h
    obtain ⟨r, d₂, h₂, h⟩ := bind_eq_ok h
    exact ⟨_, d₂, lowerExprs_cons h₁ (lowerExprs_cons h₂ rfl), .emit h rfl (List.Subset.refl _)⟩
  | .not value _ | .newIntArray value _ | .member value _ _ =>
    obtain ⟨v, d₁, h₁, h⟩ := bind_eq_ok h
    exact ⟨_, d₁, lowerExprs_cons h₁ rfl, .emit h rfl (List.Subset.refl _)⟩
  | .int _ _ | .boolean _ _ | .null _ | .newObject _ _ =>
    exact ⟨_, d, rfl, .emit h rfl (List.nil_subset _)⟩
  | .this span => exact ⟨_, d, rfl, .emit (emit_of_emitThis h) rfl (List.nil_subset _)⟩
  | .var name span =>
    obtain ⟨scope, d₁, h₁, h⟩ := bind_eq_ok h
    cases h₁
    refine ⟨_, d, rfl, ?_⟩
    cases hx : d.scope.lookup name with
    | some i =>
      simp only [hx] at h
      cases h
      exact .step fun vs _ => .read hx
    | none =>
      simp only [hx] at h
      obtain ⟨o, d₂, h₂, h⟩ := bind_eq_ok h
      exact .emit_this h₂ h rfl (List.Subset.refl _)
  | .index array index span =>
    obtain ⟨a, d₁, h₁, h⟩ := bind_eq_ok h
    obtain ⟨i, d₂, h₂, h⟩ := bind_eq_ok h
    exact ⟨_, d₂, lowerExprs_cons h₁ (lowerExprs_cons h₂ rfl), .emit h rfl (List.Subset.refl _)⟩
  | .call object method args span =>
    obtain ⟨o, d₁, h₁, h⟩ := bind_eq_ok h
    obtain ⟨vs, d₂, h₂, h⟩ := bind_eq_ok h
    obtain ⟨ids, d₃, h₃, h⟩ := bind_eq_ok h
    obtain ⟨rfl, rfl⟩ := emit_eq_ok.1 h
    refine ⟨_, d₂, lowerExprs_cons h₁ h₂, .step fun ws hws => ?_⟩
    exact .call method span (hws List.mem_cons_self)
      (fun a ha => hws (List.mem_cons_of_mem o (List.of_mem_zip ha).1)) h₃

/-- Several expressions, each of which is written by steps. -/
theorem exists_steps_of_forall {es : List Expr}
    (hes : ∀ e ∈ es, ∀ {d d' : Draft} {id : Nat}, lowerExpr receiver e d = .ok (id, d') →
      d.Yields A [] d' id)
    (h : lowerExprs receiver es d = .ok (ids, d')) (vs : List Nat) :
    ∃ vs', ids ⊆ vs' ∧ (Evaluation.mk d vs).Steps A ⟨d', vs'⟩ := by
  induction es generalizing d ids vs with
  | nil =>
    cases h
    exact ⟨vs, List.nil_subset _, Relation.ReflTransGen.refl⟩
  | cons e es ih =>
    obtain ⟨i, d₁, h₁, h⟩ := bind_eq_ok h
    obtain ⟨is, d₂, h₂, h⟩ := bind_eq_ok h
    cases h
    obtain ⟨vs₁, hs₁⟩ := hes e List.mem_cons_self h₁ vs (List.nil_subset _)
    obtain ⟨vs₂, his, hs₂⟩ := ih (fun f hf => hes f (List.mem_cons_of_mem e hf)) h₂ (i :: vs₁)
    exact ⟨vs₂, List.cons_subset.2 ⟨hs₂.values_subset List.mem_cons_self, his⟩, hs₁.trans hs₂⟩

/-- **Expressions are written by steps**, and assign to their targets only. -/
theorem yields_lowerExpr (e : Expr) (hA : ∀ x at', .var x at' ∈ e.targets → A x)
    (h : lowerExpr receiver e d = .ok (id, d')) : d.Yields A [] d' id := by
  induction e using Expr.induction_on_parts generalizing d d' id with
  | h e ih =>
    obtain ⟨ids, d₁, h₁, hy⟩ := exists_parts e hA h
    intro vs _
    obtain ⟨vs₁, hids, hs₁⟩ := exists_steps_of_forall (fun f hf _ _ _ hf' =>
      ih f hf (fun x at' hx => hA x at' (Expr.mem_targets_of_mem_parts hf hx)) hf') h₁ vs
    obtain ⟨vs₂, hs₂⟩ := hy vs₁ hids
    exact ⟨vs₂, hs₁.trans hs₂⟩

/-- From the beginning of an expression to its end, where its value is the newest one. -/
theorem exists_steps_lowerExpr (e : Expr) (hA : ∀ x at', .var x at' ∈ e.targets → A x)
    (h : lowerExpr receiver e d = .ok (id, d')) :
    ∃ vs, (Evaluation.mk d []).Steps A ⟨d', id :: vs⟩ :=
  yields_lowerExpr e hA h [] (List.nil_subset _)

/-- From the beginning of several expressions to their end, where all their values are at hand. -/
theorem exists_steps_lowerExprs (es : List Expr)
    (hA : ∀ x at', .var x at' ∈ Source.listTargets es → A x)
    (h : lowerExprs receiver es d = .ok (ids, d')) :
    ∃ vs, ids ⊆ vs ∧ (Evaluation.mk d []).Steps A ⟨d', vs⟩ :=
  exists_steps_of_forall (fun e he _ _ _ h =>
    yields_lowerExpr e (fun x at' hx => hA x at' (Source.mem_listTargets.2 ⟨e, he, hx⟩)) h) h []

/-- Assigning only adds to the code. -/
theorem prefix_lowerTarget {value : Nat} {span : Span} (t : Target)
    (h : lowerTarget receiver value span t d = .ok (id, d')) : d.ops <+: d'.ops := by
  obtain ⟨ids, d₁, h₁, hy⟩ := exists_parts_target (A := fun _ => True) t (fun _ _ _ => trivial) h
  obtain ⟨vs, -, hs⟩ :=
    exists_steps_lowerExprs (A := fun _ => True) t.parts (fun _ _ _ => trivial) h₁
  obtain ⟨vs', hs'⟩ := hy _ (List.Subset.refl _)
  exact hs.ops.trans hs'.ops

end

/-! ## What every step keeps -/

section

variable {receiver : Bool} {P : Draft → Prop} {V : Draft → Nat → Prop} {d d' : Draft}

/-- What every step keeps, an expression keeps. -/
theorem keeps_lowerExpr (e : Expr) {id : Nat} (h : lowerExpr receiver e d = .ok (id, d'))
    (hd : P d)
    (hstep : ∀ s s' : Evaluation, s.Good P V → s.Step (fun _ => True) s' → s'.Good P V) :
    P d' ∧ V d' id := by
  obtain ⟨vs, hs⟩ := exists_steps_lowerExpr (A := fun _ => True) e (fun _ _ _ => trivial) h
  obtain ⟨hd', hvs⟩ := hs.keeps (P := Evaluation.Good P V) ⟨hd, List.forall_mem_nil _⟩ hstep
  exact ⟨hd', hvs id List.mem_cons_self⟩

/-- What every step keeps, several expressions keep. -/
theorem keeps_lowerExprs (es : List Expr) {ids : List Nat}
    (h : lowerExprs receiver es d = .ok (ids, d')) (hd : P d)
    (hstep : ∀ s s' : Evaluation, s.Good P V → s.Step (fun _ => True) s' → s'.Good P V) :
    P d' ∧ ∀ id ∈ ids, V d' id := by
  obtain ⟨vs, hids, hs⟩ :=
    exists_steps_lowerExprs (A := fun _ => True) es (fun _ _ _ => trivial) h
  obtain ⟨hd', hvs⟩ := hs.keeps (P := Evaluation.Good P V) ⟨hd, List.forall_mem_nil _⟩ hstep
  exact ⟨hd', fun id hid => hvs id (hids hid)⟩

end

end Backend.Lowering
