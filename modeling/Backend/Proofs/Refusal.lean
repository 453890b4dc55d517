/-
# When a program is refused

The method that a program starts with has neither a receiver nor declarations, so every `this` and
every name in it needs a receiver that is not there.  `Stmt.receiverUses` lists these places in the
order of evaluation.  If there is one, compiling stops at the first of them; if there is none, what
decides is whether there is a register at all, and with one nothing can fail any more
(`Source.Program.outcome_compile`).
-/
import Mathlib
import Backend.Proofs.Entry
import Backend.Proofs.Outcome

namespace Backend

namespace Source

/-! ## Places that need a receiver -/

mutual

/-- The places in an expression that need a receiver where no name is declared, in the order of
evaluation, each with the name and the span that a refusal reports. -/
def Expr.receiverUses : Expr → List (Name × Span)
  | .assign target value span => value.receiverUses ++ target.receiverUses span
  | .binary _ left right _ => left.receiverUses ++ right.receiverUses
  | .not value _ => value.receiverUses
  | .int _ _ | .boolean _ _ | .null _ | .newObject _ _ => []
  | .this span => [("this", span)]
  | .var name span => [(name, span)]
  | .member object _ _ => object.receiverUses
  | .index array index _ => array.receiverUses ++ index.receiverUses
  | .call object _ args _ => object.receiverUses ++ listReceiverUses args
  | .newIntArray size _ => size.receiverUses

/-- The places in a target; for a name, the span reported is that of the assignment. -/
def Target.receiverUses (span : Span) : Target → List (Name × Span)
  | .var name _ => [(name, span)]
  | .member object _ _ => object.receiverUses
  | .index array index _ => array.receiverUses ++ index.receiverUses

/-- The places in several expressions. -/
def listReceiverUses : List Expr → List (Name × Span)
  | [] => []
  | e :: es => e.receiverUses ++ listReceiverUses es

end

mutual

/-- The places in a statement that need a receiver where no name is declared, in the order of
evaluation. -/
def Stmt.receiverUses : Stmt → List (Name × Span)
  | .block body _ => blockReceiverUses body
  | .ite cond thenBranch elseBranch _ =>
    cond.receiverUses ++ (thenBranch.receiverUses ++ elseBranch.receiverUses)
  | .loop cond body _ => cond.receiverUses ++ body.receiverUses
  | .print value _ | .expr value _ => value.receiverUses

/-- The places in several statements. -/
def blockReceiverUses : List Stmt → List (Name × Span)
  | [] => []
  | s :: ss => s.receiverUses ++ blockReceiverUses ss

end

end Source

namespace Lowering

/-! ## Lowering without a receiver -/

/-- On a draft without names in scope, a computation fails at the first of the listed places, or
succeeds if there is none and still has no names in scope. -/
def Answers {α : Type} (uses : List (Name × Span)) (x : Lower α) : Prop :=
  ∀ d : Draft, d.scope = [] → match uses with
    | [] => ∃ a d', x d = .ok (a, d') ∧ d'.scope = []
    | u :: _ => x d = .error (.noReceiver u.1 u.2)

namespace Answers

variable {α β : Type} {us vs : List (Name × Span)} {x : Lower α} {f : α → Lower β}

/-- What comes first decides first. -/
theorem bind (hx : Answers us x) (hf : ∀ a, Answers vs (f a)) : Answers (us ++ vs) (x >>= f) := by
  intro d hd
  have hfirst := hx d hd
  cases us with
  | nil =>
    obtain ⟨a, d', ha, hd'⟩ := hfirst
    have hrest := hf a d' hd'
    rw [bind_apply, ha]
    exact hrest
  | cons u us =>
    show (x >>= f) d = _
    rw [bind_apply, hfirst]
    rfl

/-- What follows uses no receiver. -/
theorem bind_quiet (hx : Answers us x) (hf : ∀ a, Answers [] (f a)) : Answers us (x >>= f) := by
  rw [← List.append_nil us]
  exact hx.bind hf

/-- What comes first uses no receiver. -/
theorem quiet_bind (hx : Answers [] x) (hf : ∀ a, Answers vs (f a)) : Answers vs (x >>= f) :=
  hx.bind hf

/-- Where no name is declared, the current scope is empty. -/
theorem currentScope_bind {f : Scope → Lower β} (hf : Answers vs (f [])) :
    Answers vs (currentScope >>= f) := by
  intro d hd
  rw [bind_apply, currentScope_apply, hd]
  exact hf d hd

theorem pure (a : α) : Answers [] (pure a : Lower α) := fun d hd => ⟨a, d, rfl, hd⟩

theorem emit (op : Op) (span : Span) : Answers [] (emit op span) :=
  fun d hd => ⟨_, _, emit_apply op span d, hd⟩

theorem freshLabel : Answers [] freshLabel := fun d hd => ⟨_, _, freshLabel_apply d, hd⟩

theorem setScope_nil : Answers [] (setScope []) := fun d _ => ⟨_, _, setScope_apply [] d, rfl⟩

/-- Without names in scope there is nothing to join. -/
theorem joinWith (other : Scope) (span : Span) : Answers [] (joinWith other span) :=
  currentScope_bind (pure ())

/-- A `this` uses the receiver. -/
theorem emitThis (name : Name) (span : Span) : Answers [(name, span)] (emitThis false name span) :=
  fun _ _ => rfl

/-- Handing over arguments uses no receiver. -/
theorem emitArgs (values : List (Nat × Span)) (start : Nat) :
    Answers [] (emitArgs start values) := by
  induction values generalizing start with
  | nil => exact pure []
  | cons v values ih =>
    exact (emit _ _).bind fun id => (ih (start + 1)).bind fun ids => pure _

end Answers

mutual

/-- **An expression is refused for its first use of a receiver**, if there is one. -/
theorem answers_lowerExpr (e : Source.Expr) : Answers e.receiverUses (lowerExpr false e) := by
  match e with
  | .assign target value span =>
    exact (answers_lowerExpr value).bind fun v => answers_lowerTarget v span target
  | .binary _ left right _ | .index left right _ =>
    exact (answers_lowerExpr left).bind fun _ =>
      (answers_lowerExpr right).bind_quiet fun _ => .emit _ _
  | .not value _ | .newIntArray value _ | .member value _ _ =>
    exact (answers_lowerExpr value).bind_quiet fun _ => .emit _ _
  | .int _ _ | .boolean _ _ | .null _ | .newObject _ _ => exact .emit _ _
  | .this span => exact .emitThis "this" span
  | .var name span =>
    exact .currentScope_bind ((Answers.emitThis name span).bind_quiet fun _ => .emit _ _)
  | .call object _ args _ =>
    exact (answers_lowerExpr object).bind fun _ => (answers_lowerExprs args).bind_quiet fun _ =>
      (Answers.emitArgs _ 0).bind fun _ => .emit _ _

/-- An assignment is refused for its first use of a receiver, if there is one. -/
theorem answers_lowerTarget (value : Nat) (span : Span) (t : Source.Target) :
    Answers (t.receiverUses span) (lowerTarget false value span t) := by
  match t with
  | .var name _ =>
    exact .currentScope_bind ((Answers.emitThis name span).bind_quiet fun _ => .emit _ _)
  | .member object _ _ => exact (answers_lowerExpr object).bind_quiet fun _ => .emit _ _
  | .index array index _ =>
    exact (answers_lowerExpr array).bind fun _ =>
      (answers_lowerExpr index).bind_quiet fun _ => .emit _ _

/-- Several expressions are refused for their first use of a receiver, if there is one. -/
theorem answers_lowerExprs (es : List Source.Expr) :
    Answers (Source.listReceiverUses es) (lowerExprs false es) := by
  match es with
  | [] => exact .pure []
  | e :: es =>
    exact (answers_lowerExpr e).bind fun _ => (answers_lowerExprs es).bind_quiet fun _ => .pure _

end

mutual

/-- **Lowering a statement without a receiver** fails at the first place that needs one. -/
theorem answers_lowerStmt (s : Source.Stmt) : Answers s.receiverUses (lowerStmt false s) := by
  match s with
  | .block body _ => exact answers_lowerStmts body
  | .ite cond thenBranch elseBranch _ =>
    -- the scope is taken in front of and behind each branch, and is empty every time
    refine (answers_lowerExpr cond).bind fun _ => Answers.freshLabel.quiet_bind fun _ =>
      (Answers.emit _ _).quiet_bind fun _ => .currentScope_bind ?_
    refine (answers_lowerStmt thenBranch).bind fun _ => (Answers.emit _ _).quiet_bind fun _ =>
      (Answers.emit _ _).quiet_bind fun _ => .currentScope_bind ?_
    refine Answers.setScope_nil.quiet_bind fun _ =>
      (answers_lowerStmt elseBranch).bind_quiet fun _ => .currentScope_bind ?_
    exact Answers.setScope_nil.bind fun _ => (Answers.emit _ _).bind fun _ => .joinWith [] _
  | .loop cond body _ =>
    refine Answers.freshLabel.quiet_bind fun _ => (Answers.emit _ _).quiet_bind fun _ =>
      (answers_lowerExpr cond).bind fun _ => (Answers.emit _ _).quiet_bind fun _ =>
      .currentScope_bind ?_
    refine (answers_lowerStmt body).bind_quiet fun _ => .currentScope_bind ?_
    exact Answers.setScope_nil.bind fun _ => (Answers.emit _ _).bind fun _ =>
      (Answers.emit _ _).bind fun _ => .joinWith [] _
  | .print value _ =>
    exact (answers_lowerExpr value).bind_quiet fun _ => (Answers.emit _ _).bind fun _ => .pure _
  | .expr value _ => exact (answers_lowerExpr value).bind_quiet fun _ => .pure _

/-- Several statements are refused for their first use of a receiver, if there is one. -/
theorem answers_lowerStmts (ss : List Source.Stmt) :
    Answers (Source.blockReceiverUses ss) (lowerStmts false ss) := by
  match ss with
  | [] => exact .pure _
  | s :: ss => exact (answers_lowerStmt s).bind fun _ => answers_lowerStmts ss

end

end Lowering

/-! ## Programs -/

namespace Traced

/-- A list goes through a function that fails on none of its entries. -/
theorem exists_traverse {α β : Type} {g : α → Except Fault (Traced β)} {as : List α}
    (h : ∀ a ∈ as, ∃ t, g a = .ok t) : ∃ t, traverse g as = .ok t := by
  induction as with
  | nil => exact ⟨_, rfl⟩
  | cons a as ih =>
    obtain ⟨t, ht⟩ := h a List.mem_cons_self
    obtain ⟨ts, hts⟩ := ih fun b hb => h b (List.mem_cons_of_mem a hb)
    exact ⟨_, bind_eq_ok_iff.2 ⟨t, ht, bind_eq_ok_iff.2 ⟨ts, hts, rfl⟩⟩⟩

end Traced

namespace Source

/-- Every class can be lowered. -/
theorem ClassDecl.exists_lower (c : ClassDecl) : ∃ t, c.lower = .ok t := by
  have hmethods : ∀ m ∈ c.methods, ∃ t, m.lower = .ok t := by
    intro m _
    obtain ⟨d₁, d₂, r, -, -, hrun⟩ := Lowering.exists_lowerMethod m
    exact ⟨_, Lowering.lower_eq hrun⟩
  obtain ⟨t, ht⟩ := Traced.exists_traverse hmethods
  exact ⟨_, bind_eq_ok_iff.2 ⟨t, ht, rfl⟩⟩

/-- Lowering the start of a program fails at the first place that needs a receiver. -/
theorem MainClass.lower_of_receiverUses {m : MainClass} {u : Name × Span}
    {us : List (Name × Span)} (h : m.body.receiverUses = u :: us) :
    m.lower = .error (.noReceiver u.1 u.2) := by
  have hrun := Lowering.answers_lowerStmt m.body {} rfl
  rw [h] at hrun
  exact bind_eq_error_iff.2 (Or.inl (bind_eq_error_iff.2 (Or.inl hrun)))

/-- The start of a program that uses no receiver can be lowered. -/
theorem MainClass.exists_lower {m : MainClass} (h : m.body.receiverUses = []) :
    ∃ t, m.lower = .ok t := by
  have hrun := Lowering.answers_lowerStmt m.body {} rfl
  rw [h] at hrun
  obtain ⟨a, d, hd, -⟩ := hrun
  exact ⟨_, bind_eq_ok_iff.2 ⟨_, bind_eq_ok_iff.2 ⟨(a, d), hd, rfl⟩, rfl⟩⟩

/-- A program whose start uses no receiver can be lowered. -/
theorem Program.exists_lower {p : Program} (h : p.main.body.receiverUses = []) :
    ∃ t, p.lower = .ok t := by
  obtain ⟨main, hmain⟩ := MainClass.exists_lower h
  obtain ⟨classes, hclasses⟩ := Traced.exists_traverse fun c (_ : c ∈ p.classes) => c.exists_lower
  exact ⟨_, bind_eq_ok_iff.2 ⟨main, hmain, bind_eq_ok_iff.2 ⟨classes, hclasses, rfl⟩⟩⟩

end Source

namespace Code

/-- With a register, every method of sound code can be allocated. -/
theorem Method.exists_allocate {m : Method} (hm : m.body.Closed) {k : Nat} (hk : 1 ≤ k) :
    ∃ t, m.allocate k = .ok t := by
  obtain ⟨a, ha⟩ := hm.exists_allocated hk
  exact ⟨_, bind_eq_ok_iff.2 ⟨a, ha, rfl⟩⟩

/-- A program of closed bodies can be allocated. -/
theorem Program.exists_allocate {p : Program} (hp : ∀ m ∈ p.methods, m.body.Closed) {k : Nat}
    (hk : 1 ≤ k) : ∃ t, p.allocate k = .ok t := by
  have hclass : ∀ c ∈ p.classes, ∃ t, c.allocate k = .ok t := by
    intro c hc
    have hmethods : ∀ m ∈ c.methods, ∃ t, m.allocate k = .ok t := fun m hm =>
      Method.exists_allocate (hp m (List.mem_cons_of_mem _ (List.mem_flatMap.2 ⟨c, hc, hm⟩))) hk
    obtain ⟨t, ht⟩ := Traced.exists_traverse hmethods
    exact ⟨_, bind_eq_ok_iff.2 ⟨t, ht, rfl⟩⟩
  obtain ⟨main, hmain⟩ := Method.exists_allocate (hp p.main List.mem_cons_self) hk
  obtain ⟨classes, hclasses⟩ := Traced.exists_traverse hclass
  exact ⟨_, bind_eq_ok_iff.2 ⟨main, hmain, bind_eq_ok_iff.2 ⟨classes, hclasses, rfl⟩⟩⟩

end Code

namespace Source.Program

variable {p : Program} {f : RegisterFile}

/-- A program whose start uses a receiver is refused for the first such use. -/
theorem compile_of_receiverUses {u : Name × Span} {us : List (Name × Span)}
    (h : p.main.body.receiverUses = u :: us) :
    p.compile f = .error (.noReceiver u.1 u.2) := by
  have hmain := MainClass.lower_of_receiverUses h
  exact bind_eq_error_iff.2 (Or.inl (bind_eq_error_iff.2 (Or.inl hmain)))

/-- Without free registers a program that can be lowered is refused. -/
theorem compile_of_free_eq_zero (h : p.main.body.receiverUses = []) (hf : f.free = 0) :
    p.compile f = .error .noFreeRegisters := by
  obtain ⟨t, ht⟩ := exists_lower h
  refine bind_eq_error_iff.2 (Or.inr ⟨t, ht, bind_eq_error_iff.2 (Or.inl ?_)⟩)
  rw [hf]
  rfl

/-- Lowered bodies are closed, and pinning them changes no operation. -/
theorem exists_compile (h : p.main.body.receiverUses = []) (hf : f.free ≠ 0) :
    ∃ c, p.compile f = .ok c := by
  obtain ⟨t, ht⟩ := exists_lower h
  have hclosed : ∀ m ∈ (t.value.pinConvention f).value.methods, m.body.Closed := by
    intro m hm
    rw [Code.Program.methods_pinConvention] at hm
    obtain ⟨m₀, hm₀, rfl⟩ := List.mem_map.1 hm
    obtain ⟨decls, first, d, hbody, hd⟩ := exists_lowered ht hm₀
    have hsame := Body.sameOps_pinConvention d.wellFormed_body f
    rw [← hbody] at hsame
    exact hsame.closed (hbody ▸ hd.closed)
  obtain ⟨a, ha⟩ := Code.Program.exists_allocate hclosed (Nat.one_le_iff_ne_zero.2 hf)
  exact ⟨_, bind_eq_ok_iff.2 ⟨t, ht, bind_eq_ok_iff.2 ⟨a, ha, rfl⟩⟩⟩

/-- **What compiling answers.**  A program is refused for the lack of a receiver exactly when the
statement it starts with has a place that needs one, and what is reported is the first of them;
otherwise for the lack of registers exactly when the register file has none; otherwise it is
compiled.  Nothing else can go wrong. -/
theorem outcome_compile (p : Program) (f : RegisterFile) :
    (∀ x span, p.compile f = .error (.noReceiver x span) ↔
      p.main.body.receiverUses.head? = some (x, span)) ∧
    (p.compile f = .error .noFreeRegisters ↔ p.main.body.receiverUses = [] ∧ f.free = 0) ∧
    ((∃ c, p.compile f = .ok c) ↔ p.main.body.receiverUses = [] ∧ f.free ≠ 0) ∧
    ∀ e, p.compile f = .error e → (∃ x span, e = .noReceiver x span) ∨ e = .noFreeRegisters := by
  cases h : p.main.body.receiverUses with
  | cons u us =>
    rw [compile_of_receiverUses h]
    refine ⟨fun x span => ?_, by simp, by simp, fun e he => ?_⟩
    · rw [List.head?_cons, Except.error.injEq, Fault.noReceiver.injEq, Option.some.injEq,
        Prod.ext_iff]
    · exact Or.inl ⟨u.1, u.2, (Except.error.inj he).symm⟩
  | nil =>
    by_cases hf : f.free = 0
    · rw [compile_of_free_eq_zero h hf]
      simp [hf]
    · obtain ⟨c, hc⟩ := exists_compile h hf
      rw [hc]
      simp [hf]

end Source.Program

/-- The program `a[1] = b = 2;`, which evaluates `b = 2` before it looks for `a`. -/
def assigningProgram : Source.Program where
  main :=
    { name := "Main"
      body := .expr (.assign (.index (.var "a" ⟨⟨1, 1⟩, ⟨1, 2⟩⟩) (.int 1 ⟨⟨1, 3⟩, ⟨1, 4⟩⟩)
        ⟨⟨1, 1⟩, ⟨1, 5⟩⟩) (.assign (.var "b" ⟨⟨1, 8⟩, ⟨1, 9⟩⟩) (.int 2 ⟨⟨1, 12⟩, ⟨1, 13⟩⟩)
          ⟨⟨1, 8⟩, ⟨1, 13⟩⟩) ⟨⟨1, 1⟩, ⟨1, 13⟩⟩) ⟨⟨1, 1⟩, ⟨1, 14⟩⟩ }

/-- It is refused at the inner assignment; a program that prints needs registers alone. -/
theorem outcome_compile_assigning :
    assigningProgram.compile .mips = .error (.noReceiver "b" ⟨⟨1, 8⟩, ⟨1, 13⟩⟩) ∧
    ({ main := printingMain } : Source.Program).compile { free := 0 } = .error .noFreeRegisters ∧
    ∃ c, ({ main := printingMain } : Source.Program).compile .mips = .ok c := by
  obtain ⟨hrefused, -⟩ := assigningProgram.outcome_compile .mips
  obtain ⟨-, hnone, -⟩ := ({ main := printingMain } : Source.Program).outcome_compile { free := 0 }
  obtain ⟨-, -, hsome, -⟩ := ({ main := printingMain } : Source.Program).outcome_compile .mips
  exact ⟨(hrefused _ _).2 rfl, hnone.2 ⟨rfl, rfl⟩, hsome.2 ⟨rfl, by decide⟩⟩

end Backend
