/-
# Lowering, step by step

Whatever tree it lowers, lowering takes steps of five kinds (`Draft.Step`): it writes an instruction
that reads values, writes an assignment and binds its name, draws a label number, goes on with the
bindings of another path, or joins two bindings of a name where paths have just met.  That lowering
takes no other steps is shown once, for expressions by their own steps (`steps_lowerExpr`), for
statements by induction over the trees (`steps_lowerStmt`); what every step keeps, lowering keeps
(`Draft.Steps.keeps`).
-/
import Mathlib
import Backend.Proofs.Evaluation

namespace Backend

/-- Whether paths have just met at an operation: it is the label behind a conditional or a loop, or
one of the joins behind such a label. -/
def Op.isMeeting : Op → Bool
  | label (.ifDone _) | label (.whileEnd _) | unify .. => true
  | _ => false

namespace Lowering

/-! ## Values and declarations -/

/-- The instruction leaves a value. -/
def Draft.Computes (d : Draft) (id : Nat) : Prop :=
  ∃ op, d.ops[id]? = some op ∧ op.definesValue = true

/-- A value stays a value when the code goes on. -/
theorem Draft.Computes.mono {d d' : Draft} {id : Nat} (h : d.Computes id)
    (hops : d.ops <+: d'.ops) : d'.Computes id := by
  obtain ⟨op, hop, hdef⟩ := h
  exact ⟨op, getElem?_of_isPrefix hops hop, hdef⟩

/-- The code begins with the declarations of `decls`. -/
def Headed (decls : List Name) (ops : List Op) : Prop :=
  ∀ p < decls.length, ∃ op, ops[p]? = some op ∧ Initial op

/-- The code keeps its head. -/
theorem Headed.mono {decls : List Name} {ops ops' : List Op} (h : Headed decls ops)
    (hops : ops <+: ops') : Headed decls ops' := by
  intro p hp
  obtain ⟨op, hop, hinitial⟩ := h p hp
  exact ⟨op, getElem?_of_isPrefix hops hop, hinitial⟩

/-- What binds a name is its declaration, an assignment to it, or a join. -/
theorem Headed.cases_nameOf {decls : List Name} {ops : List Op} (h : Headed decls ops) {p : Nat}
    {x : Name} (hx : nameOf decls ops p = some x) :
    (∃ op, ops[p]? = some op ∧ Initial op ∧ decls[p]? = some x) ∨
      (∃ v, ops[p]? = some (.assignVar v x)) ∨ ∃ l r, ops[p]? = some (.unify l r) := by
  obtain ⟨op, hp⟩ : ∃ op, ops[p]? = some op :=
    ⟨_, List.getElem?_eq_getElem (lt_length_of_nameOf hx)⟩
  rcases Nat.lt_or_ge p decls.length with hlt | hge
  · obtain ⟨op', hp', hinitial⟩ := h p hlt
    rw [hinitial.nameOf_eq decls hp'] at hx
    exact Or.inl ⟨op', hp', hinitial, hx⟩
  · cases hunify : op.isUnify with
    | false =>
      obtain ⟨v, rfl⟩ := exists_assignVar_of_nameOf hp hunify hge hx
      exact Or.inr (Or.inl ⟨v, hp⟩)
    | true =>
      cases op with
      | unify l r => exact Or.inr (Or.inr ⟨l, r, hp⟩)
      | _ => cases hunify

/-- What binds a name leaves a value. -/
theorem Headed.computes {decls : List Name} {d : Draft} (h : Headed decls d.ops) {id : Nat}
    {x : Name} (hx : nameOf decls d.ops id = some x) : d.Computes id := by
  rcases h.cases_nameOf hx with ⟨op, hop, hinitial, -⟩ | ⟨v, hop⟩ | ⟨l, r, hop⟩
  · exact ⟨op, hop, hinitial.definesValue⟩
  · exact ⟨_, hop, rfl⟩
  · exact ⟨_, hop, rfl⟩

/-! ## Steps -/

/-- Whether an operation is written for itself alone: it declares no parameter, binds no name, does
not deal with the stack and does not return. -/
def standalone : Op → Bool
  | .parameter _ | .assignVar .. | .unify .. | .load _ | .store .. | .ret _ => false
  | _ => true

/-- What lowering does to a draft at a time. -/
inductive Draft.Step (decls : List Name) (d : Draft) : Draft → Prop
  | write (op : Op) (span : Span) (hop : standalone op = true)
      (hread : ∀ o ∈ op.operands, d.Computes o) : Step decls d (d.write op span)
  | assign (v : Nat) (x : Name) (span : Span) (hv : d.Computes v)
      (hx : (d.scope.lookup x).isSome) : Step decls d (d.assign v x span)
  | draw : Step decls d d.draw
  | rebind (scope : Scope) (hscope : ScopeSound decls d.ops scope) : Step decls d { d with scope }
  | join (j : Join) (span : Span) (hl : nameOf decls d.ops j.left = some j.name)
      (hr : nameOf decls d.ops j.right = some j.name) (hne : j.left ≠ j.right)
      (hlast : ∃ op, d.ops.getLast? = some op ∧ op.isMeeting = true) :
      Step decls d (d.join span j)

/-- From one draft to another by steps. -/
def Draft.Steps (decls : List Name) (d d' : Draft) : Prop :=
  Relation.ReflTransGen (Draft.Step decls) d d'

section

variable {decls : List Name} {d d' d'' : Draft}

namespace Draft.Steps

theorem refl (decls : List Name) (d : Draft) : d.Steps decls d := Relation.ReflTransGen.refl

theorem single (h : d.Step decls d') : d.Steps decls d' := Relation.ReflTransGen.single h

theorem trans (h : d.Steps decls d') (h' : d'.Steps decls d'') : d.Steps decls d'' :=
  Relation.ReflTransGen.trans h h'

/-- **Run lemma.**  What every step keeps, steps keep. -/
theorem keeps {P : Draft → Prop} (h : d.Steps decls d') (hd : P d)
    (hstep : ∀ e e', P e → e.Step decls e' → P e') : P d' := by
  unfold Steps at h
  induction h with
  | refl => exact hd
  | tail _ step ih => exact hstep _ _ ih step

end Draft.Steps

/-- A step only adds to the code. -/
theorem Draft.Step.ops (h : d.Step decls d') : d.ops <+: d'.ops := by
  cases h with
  | write op span _ _ => exact d.prefix_write op span
  | assign v x span _ _ => exact d.prefix_write (.assignVar v x) span
  | draw | rebind _ _ => exact List.prefix_rfl
  | join j span _ _ _ _ => exact d.prefix_write (.unify j.left j.right) span

/-- Steps only add to the code. -/
theorem Draft.Steps.ops (h : d.Steps decls d') : d.ops <+: d'.ops :=
  h.keeps (P := fun e => d.ops <+: e.ops) List.prefix_rfl fun _ _ he step => he.trans step.ops

/-- A draft whose code begins with declarations and whose names stand for what binds them. -/
structure Draft.Based (decls : List Name) (d : Draft) : Prop where
  headed : Headed decls d.ops
  scope : ScopeSound decls d.ops d.scope

/-- What a name stands for leaves a value. -/
theorem Draft.Based.computes (hd : d.Based decls) {x : Name} {i : Nat}
    (hx : d.scope.lookup x = some i) : d.Computes i := hd.headed.computes (hd.scope.names x i hx)

/-- **Step lemma.**  Names stand for what binds them. -/
theorem Draft.Step.based (h : d.Step decls d') (hd : d.Based decls) : d'.Based decls := by
  refine ⟨hd.headed.mono h.ops, ?_⟩
  have hscope := hd.scope.mono h.ops
  cases h with
  | write _ _ _ _ | draw => exact hscope
  | assign v x span _ _ =>
    refine hscope.define ?_
    show nameOf decls (d.write (.assignVar v x) span).ops d.code.size = some x
    rw [ops_write, ← d.length_ops, nameOf_concat_self]
    rfl
  | rebind _ hnew => exact hnew
  | join j span hl _ _ _ =>
    refine hscope.define ?_
    show nameOf decls (d.write (.unify j.left j.right) span).ops d.code.size = some j.name
    rw [ops_write, ← d.length_ops, nameOf_concat_self]
    exact hl

/-- **Run lemma.**  Names stand for what binds them. -/
theorem Draft.Steps.based (h : d.Steps decls d') (hd : d.Based decls) : d'.Based decls :=
  h.keeps hd fun _ _ he step => step.based he

/-- What every step from a draft of this kind keeps, steps keep. -/
theorem Draft.Steps.keeps_of_based {P : Draft → Prop} (h : d.Steps decls d') (hd : d.Based decls)
    (hP : P d) (hstep : ∀ e e', e.Based decls → P e → e.Step decls e' → P e') : P d' :=
  (h.keeps (P := fun e => e.Based decls ∧ P e) ⟨hd, hP⟩
    fun e e' he step => ⟨step.based he.1, hstep e e' he.1 he.2 step⟩).2

/-- Writing an instruction that leaves a value. -/
theorem steps_write (decls : List Name) (op : Op) (span : Span) (hop : standalone op = true)
    (hdef : op.definesValue = true) (hread : ∀ o ∈ op.operands, d.Computes o) :
    d.Steps decls (d.write op span) ∧ (d.write op span).Computes d.code.size :=
  ⟨.single (.write op span hop hread), op, d.getElem?_ops_write_self op span, hdef⟩

end

/-! ## Expressions -/

section

variable {decls : List Name} {receiver : Bool}

/-- Arguments are handed over by steps. -/
theorem steps_emitArgs {args : List (Nat × Span)} {start : Nat} {d d' : Draft} {ids : List Nat}
    (h : emitArgs start args d = .ok (ids, d')) (hargs : ∀ a ∈ args, d.Computes a.1) :
    d.Steps decls d' ∧ ∀ id ∈ ids, d'.Computes id := by
  refine ⟨keeps_emitArgs (P := d.Steps decls) h (.refl _ _) fun a ha e n he => ?_, fun id hid => ?_⟩
  · exact he.trans (.single (.write (.arg a.1 n) a.2 rfl fun o ho =>
      List.mem_singleton.1 ho ▸ (hargs a ha).mono he.ops))
  · obtain ⟨v, n, harg⟩ := exists_arg_of_emitArgs h id hid
    exact ⟨_, harg, rfl⟩

theorem standalone_of_evaluating {op : Op} (h : evaluating op = true) : standalone op = true := by
  cases op <;> first | rfl | cases h

/-- **Step lemma.**  A step of an expression takes steps, and the values at hand are left by
instructions. -/
theorem Evaluation.Step.steps {A : Name → Prop} {d : Draft} {s s' : Evaluation} (h : s.Step A s')
    (hd : d.Based decls) (hs : s.Good (d.Steps decls) Draft.Computes) :
    s'.Good (d.Steps decls) Draft.Computes := by
  obtain ⟨hsteps, hvs⟩ := hs
  have hold : ∀ v ∈ s.values, s'.draft.Computes v := fun v hv => (hvs v hv).mono h.ops
  cases h with
  | read hx =>
    exact ⟨hsteps, List.forall_mem_cons.2 ⟨(hsteps.based hd).computes hx, hold⟩⟩
  | write span hop hread =>
    obtain ⟨hs₁, hid⟩ := steps_write decls _ span (standalone_of_evaluating hop)
      (definesValue_of_evaluating hop) fun o ho => hvs o (hread o ho)
    exact ⟨hsteps.trans hs₁, List.forall_mem_cons.2 ⟨hid, hold⟩⟩
  | @assign e _ v x span hv hx _ =>
    have hid : (e.assign v x span).Computes e.code.size :=
      ⟨.assignVar v x, e.getElem?_ops_write_self _ span, rfl⟩
    exact ⟨hsteps.trans (.single (.assign v x span (hvs v hv) hx)),
      List.forall_mem_cons.2 ⟨hid, hold⟩⟩
  | @call _ _ _ o _ ids method span hobject hargs h =>
    obtain ⟨hs₁, hids⟩ := steps_emitArgs h fun a ha => hvs _ (hargs a ha)
    obtain ⟨hs₂, hid⟩ := steps_write decls (.call o method ids) span rfl rfl
      (List.forall_mem_cons.2 ⟨(hvs o hobject).mono hs₁.ops, hids⟩)
    exact ⟨(hsteps.trans hs₁).trans hs₂, List.forall_mem_cons.2 ⟨hid, hold⟩⟩

/-- **Lowering an expression takes steps**, and the result leaves a value. -/
theorem steps_lowerExpr {d d' : Draft} {id : Nat} (e : Source.Expr)
    (h : lowerExpr receiver e d = .ok (id, d')) (hd : d.Based decls) :
    d.Steps decls d' ∧ d'.Computes id :=
  keeps_lowerExpr (P := d.Steps decls) e h (.refl _ _) fun _ _ hs step => step.steps hd hs

end

/-! ## Statements -/

section

variable {decls : List Name} {d : Draft}

/-- Joins follow one another. -/
theorem steps_foldl_join (span : Span) {js : List Join}
    (hjs : ∀ j ∈ js, nameOf decls d.ops j.left = some j.name ∧
      nameOf decls d.ops j.right = some j.name ∧ j.left ≠ j.right)
    (hlast : ∃ op, d.ops.getLast? = some op ∧ op.isMeeting = true) :
    d.Steps decls (js.foldl (Draft.join span) d) := by
  induction js generalizing d with
  | nil => exact .refl _ _
  | cons j js ih =>
    obtain ⟨hl, hr, hne⟩ := hjs j List.mem_cons_self
    have hstep : d.Step decls (d.join span j) := .join j span hl hr hne hlast
    refine (Draft.Steps.single hstep).trans (ih (fun k hk => ?_) ⟨.unify j.left j.right, ?_, rfl⟩)
    · obtain ⟨hl', hr', hne'⟩ := hjs k (List.mem_cons_of_mem j hk)
      rw [nameOf_of_isPrefix hstep.ops (lt_length_of_nameOf hl'),
        nameOf_of_isPrefix hstep.ops (lt_length_of_nameOf hr')]
      exact ⟨hl', hr', hne'⟩
    · show (d.write (.unify j.left j.right) span).ops.getLast? = _
      rw [Draft.ops_write, List.getLast?_concat]

/-- Behind the label where paths meet, joining takes steps. -/
theorem Draft.Based.steps_joined (hd : d.Based decls) {other : Scope}
    (hother : ScopeSound decls d.ops other) (span : Span)
    (hlast : ∃ op, d.ops.getLast? = some op ∧ op.isMeeting = true) :
    d.Steps decls (d.joined other span) := by
  refine steps_foldl_join span (fun j hj => ?_) hlast
  obtain ⟨hl, hr, hne⟩ := (mem_joins hd.scope.nodup).1 hj
  exact ⟨hd.scope.names _ _ hl, hother.names _ _ hr, hne.symm⟩

namespace Draft

/-- Writing a label or a jump that reads nothing. -/
theorem steps_mark (decls : List Name) (d : Draft) (op : Op) (span : Span)
    (hop : standalone op = true) (hread : op.operands = []) : d.Steps decls (d.write op span) :=
  .single (.write op span hop fun o ho => by rw [hread] at ho; cases ho)

/-- Going into the first branch of a conditional. -/
theorem steps_beginThen (decls : List Name) {c : Nat} (hc : d.Computes c) (span : Span) :
    d.Steps decls (d.beginThen c span) :=
  (Steps.single .draw).trans (.single (.write (.branchNot c _) span rfl fun _ ho =>
    List.mem_singleton.1 ho ▸ hc))

/-- Going into the second branch, with the bindings behind the condition. -/
theorem steps_beginElse {scope : Scope} (hscope : ScopeSound decls d.ops scope) (n : Nat)
    (span : Span) : d.Steps decls (d.beginElse n scope span) := by
  have hmarks := (steps_mark decls d (.goto (.ifDone n)) span rfl rfl).trans
    (steps_mark decls _ (.label (.ifElse n)) span rfl rfl)
  exact hmarks.trans (.single (.rebind scope (hscope.mono hmarks.ops)))

/-- The end of a conditional, with the bindings of one of its branches. -/
theorem steps_endIte {scope : Scope} (hscope : ScopeSound decls d.ops scope) (n : Nat)
    (span : Span) : d.Steps decls (d.endIte n scope span) :=
  (Steps.single (.rebind scope hscope)).trans (steps_mark decls _ (.label (.ifDone n)) span rfl rfl)

/-- Going into a loop. -/
theorem steps_beginLoop (decls : List Name) (d : Draft) (span : Span) :
    d.Steps decls (d.beginLoop span) :=
  (Steps.single .draw).trans (steps_mark decls d.draw (.label _) span rfl rfl)

/-- Going into the body of a loop. -/
theorem steps_beginBody (decls : List Name) {c : Nat} (hc : d.Computes c) (n : Nat) (span : Span) :
    d.Steps decls (d.beginBody n c span) :=
  .single (.write (.branchNot c _) span rfl fun _ ho => List.mem_singleton.1 ho ▸ hc)

/-- The end of a loop, with the bindings behind its condition. -/
theorem steps_endLoop {scope : Scope} (hscope : ScopeSound decls d.ops scope) (n : Nat)
    (span : Span) : d.Steps decls (d.endLoop n scope span) :=
  ((Steps.single (.rebind scope hscope)).trans
    (steps_mark decls _ (.goto (.whileCond n)) span rfl rfl)).trans
      (steps_mark decls _ (.label (.whileEnd n)) span rfl rfl)

end Draft

end

section

variable {decls : List Name} {receiver : Bool}

mutual

/-- **Lowering a statement takes steps.** -/
theorem steps_lowerStmt {d d' : Draft} (s : Source.Stmt)
    (h : lowerStmt receiver s d = .ok ((), d')) (hd : d.Based decls) : d.Steps decls d' := by
  match s with
  | .block body _ => exact steps_lowerStmts body h hd
  | .ite cond s t span =>
    obtain ⟨c, d₁, d₂, d₃, hcond, hs, ht, rfl⟩ := exists_of_lowerStmt_ite h
    obtain ⟨hs₁, hc⟩ := steps_lowerExpr cond hcond hd
    have hd₁ := hs₁.based hd
    have hthen := Draft.steps_beginThen decls hc span
    have hs₂ := hthen.trans (steps_lowerStmt s hs (hthen.based hd₁))
    have hd₂ := hs₂.based hd₁
    have helse := Draft.steps_beginElse (hd₁.scope.mono hs₂.ops) d₁.labels.next span
    have hs₃ := helse.trans (steps_lowerStmt t ht (helse.based hd₂))
    have hd₃ := hs₃.based hd₂
    have hend := Draft.steps_endIte (hd₂.scope.mono hs₃.ops) d₁.labels.next span
    have hjoin := (hend.based hd₃).steps_joined (hd₃.scope.mono hend.ops) span
      ⟨.label (.ifDone d₁.labels.next), by rw [Draft.endIte, Draft.ops_write, List.getLast?_concat],
        rfl⟩
    exact (((hs₁.trans hs₂).trans hs₃).trans hend).trans hjoin
  | .loop cond s span =>
    obtain ⟨c, d₁, d₂, hcond, hs, rfl⟩ := exists_of_lowerStmt_loop h
    have hbegin := Draft.steps_beginLoop decls d span
    obtain ⟨hs₁, hc⟩ := steps_lowerExpr cond hcond (hbegin.based hd)
    have hd₁ := (hbegin.trans hs₁).based hd
    have hbody := Draft.steps_beginBody decls hc d.labels.next span
    have hs₂ := hbody.trans (steps_lowerStmt s hs (hbody.based hd₁))
    have hd₂ := hs₂.based hd₁
    have hend := Draft.steps_endLoop (hd₁.scope.mono hs₂.ops) d.labels.next span
    have hjoin := (hend.based hd₂).steps_joined (hd₂.scope.mono hend.ops) span
      ⟨.label (.whileEnd d.labels.next),
        by rw [Draft.endLoop, Draft.ops_write, List.getLast?_concat], rfl⟩
    exact (((hbegin.trans hs₁).trans hs₂).trans hend).trans hjoin
  | .print value span =>
    obtain ⟨v, d₁, h₁, h⟩ := bind_eq_ok h
    obtain ⟨i, d₂, h₂, h⟩ := bind_eq_ok h
    obtain ⟨rfl, rfl⟩ := emit_eq_ok.1 h₂
    cases h
    obtain ⟨hs₁, hv⟩ := steps_lowerExpr value h₁ hd
    exact hs₁.trans (.single (.write _ span rfl (by simpa [Op.operands] using hv)))
  | .expr value _ =>
    obtain ⟨v, d₁, h₁, h⟩ := bind_eq_ok h
    cases h
    exact (steps_lowerExpr value h₁ hd).1

theorem steps_lowerStmts {d d' : Draft} (ss : List Source.Stmt)
    (h : lowerStmts receiver ss d = .ok ((), d')) (hd : d.Based decls) : d.Steps decls d' := by
  match ss with
  | [] =>
    cases h
    exact .refl _ _
  | s :: ss =>
    obtain ⟨⟨⟩, d₁, h₁, h⟩ := bind_eq_ok h
    have hs₁ := steps_lowerStmt s h₁ hd
    exact hs₁.trans (steps_lowerStmts ss h (hs₁.based hd))

end

end

/-! ## Methods -/

/-- The empty draft declares nothing and binds nothing. -/
theorem based_empty : Draft.Based [] {} where
  headed p hp := absurd hp (Nat.not_lt_zero p)
  scope := (sound_empty []).scope

/-- The code that declares the names of a method. -/
theorem ops_declaredDraft (m : Source.MethodDecl) : (declaredDraft m).ops = m.header.map (·.1) :=
  Draft.ops_foldl_declare m.header {}

theorem initial_of_mem_declaredDraft {m : Source.MethodDecl} {op : Op}
    (h : op ∈ (declaredDraft m).ops) : Initial op := by
  rw [ops_declaredDraft] at h
  obtain ⟨e, he, rfl⟩ := List.mem_map.1 h
  exact initial_of_mem_header he

/-- Behind the declarations of a method, its names stand for them. -/
theorem based_declaredDraft (m : Source.MethodDecl) : (declaredDraft m).Based m.declared where
  headed p hp := by
    rw [← size_declaredDraft, ← Draft.length_ops] at hp
    exact ⟨_, List.getElem?_eq_getElem hp, initial_of_mem_declaredDraft (List.getElem_mem hp)⟩
  scope := (sound_declaredDraft m).scope

/-- **A lowered method**: its declarations, steps, and the return of a value. -/
theorem exists_steps_method (m : Source.MethodDecl) :
    ∃ d r, (declaredDraft m).Steps m.declared d ∧ d.Computes r ∧
      (d.write (.ret r) m.result.span).Finished m.declared ∧
      m.lower = .ok ⟨{ name := m.name, params := m.params.map (·.name),
                       body := (d.write (.ret r) m.result.span).body }, d.events⟩ := by
  obtain ⟨d₁, d₂, r, h₁, h₂, hrun⟩ := exists_lowerMethod m
  have hbased := based_declaredDraft m
  have hs₁ := steps_lowerStmts m.body h₁ hbased
  obtain ⟨hs₂, hr⟩ := steps_lowerExpr m.result h₂ (hs₁.based hbased)
  exact ⟨d₂, r, hs₁.trans hs₂, hr, finished_of_lowerMethod h₁ h₂, lower_eq hrun⟩

/-- **The lowered method that a program starts with**: steps from nothing. -/
theorem exists_steps_main {m : Source.MainClass} {t : Traced Code.Method} (h : m.lower = .ok t) :
    ∃ d, Draft.Steps [] {} d ∧ d.Finished [] ∧
      t = ⟨{ name := "main", body := d.body }, d.events⟩ := by
  obtain ⟨body, hbody, h⟩ := bind_eq_ok_iff.1 h
  cases h
  obtain ⟨⟨⟨⟩, d⟩, hd, hbody⟩ := bind_eq_ok_iff.1 hbody
  cases hbody
  exact ⟨d, steps_lowerStmt m.body hd based_empty, finished_of_lowerStmt hd, rfl⟩

end Lowering

end Backend
