/-
# Operands that have been evaluated

The left operand of a binary expression is evaluated first, and reading a variable writes no code:
the operand is the instruction that last bound the variable.  If the right operand assigns to the
variable, a join further behind may put both bindings into one storage class, so that the assignment
overwrites the operand that has been evaluated (`Lowering.overwritten_in_branch`).  There is no
other way to lose an operand (`Lowering.assigned_of_shared`).
-/
import Mathlib
import Backend.Proofs.Evaluation

namespace Backend.Lowering

open Source (Expr Stmt)

/-! ## Where expressions stand -/

/-- Lowering a statement from one draft comes to an expression in it, in the draft that stands
second to last.  On the way branches and loop bodies have been entered; what the names are bound to
on the paths that these will be joined with is listed last. -/
inductive Reaches (receiver : Bool) : Stmt → Draft → Expr → Draft → List Scope → Prop
  | expr {e g : Expr} {span : Span} {d d₀ : Draft} (h : Within receiver e d g d₀) :
      Reaches receiver (.expr e span) d g d₀ []
  | print {e g : Expr} {span : Span} {d d₀ : Draft} (h : Within receiver e d g d₀) :
      Reaches receiver (.print e span) d g d₀ []
  | head {s : Stmt} {ss : List Stmt} {g : Expr} {span : Span} {d d₀ : Draft} {ps : List Scope}
      (h : Reaches receiver s d g d₀ ps) : Reaches receiver (.block (s :: ss) span) d g d₀ ps
  | tail {s : Stmt} {ss : List Stmt} {g : Expr} {span : Span} {d d₁ d₀ : Draft} {ps : List Scope}
      (hs : lowerStmt receiver s d = .ok ((), d₁))
      (h : Reaches receiver (.block ss span) d₁ g d₀ ps) :
      Reaches receiver (.block (s :: ss) span) d g d₀ ps
  | iteCond {cond g : Expr} {s t : Stmt} {span : Span} {d d₀ : Draft}
      (h : Within receiver cond d g d₀) : Reaches receiver (.ite cond s t span) d g d₀ []
  | thenBranch {cond g : Expr} {s t : Stmt} {span : Span} {d d₁ d₀ : Draft} {c : Nat}
      {ps : List Scope} (hcond : lowerExpr receiver cond d = .ok (c, d₁))
      (h : Reaches receiver s (d₁.beginThen c span) g d₀ ps) :
      Reaches receiver (.ite cond s t span) d g d₀ (d₁.scope :: ps)
  | elseBranch {cond g : Expr} {s t : Stmt} {span : Span} {d d₁ d₂ d₀ : Draft} {c : Nat}
      {ps : List Scope} (hcond : lowerExpr receiver cond d = .ok (c, d₁))
      (hs : lowerStmt receiver s (d₁.beginThen c span) = .ok ((), d₂))
      (h : Reaches receiver t (d₂.beginElse d₁.labels.next d₁.scope span) g d₀ ps) :
      Reaches receiver (.ite cond s t span) d g d₀ (d₂.scope :: ps)
  | loopCond {cond g : Expr} {s : Stmt} {span : Span} {d d₀ : Draft}
      (h : Within receiver cond (d.beginLoop span) g d₀) :
      Reaches receiver (.loop cond s span) d g d₀ []
  | body {cond g : Expr} {s : Stmt} {span : Span} {d d₁ d₀ : Draft} {c : Nat} {ps : List Scope}
      (hcond : lowerExpr receiver cond (d.beginLoop span) = .ok (c, d₁))
      (h : Reaches receiver s (d₁.beginBody d.labels.next c span) g d₀ ps) :
      Reaches receiver (.loop cond s span) d g d₀ (d₁.scope :: ps)

/-! ## What later joins refer to -/

/-- The instructions that what is written behind a draft may join: new ones, those that names are
bound to in the draft, and those that names are bound to on other paths, which are listed. -/
def Draft.Joinable (a : Draft) (ps : List Scope) (j : Nat) : Prop :=
  a.code.size ≤ j ∨ (∃ y, a.scope.lookup y = some j) ∨ ∃ P ∈ ps, ∃ y, P.lookup y = some j

/-- A scope with all its names bound to instructions that may be joined. -/
def Draft.Covers (a : Draft) (ps : List Scope) (scope : Scope) : Prop :=
  ∀ y j, scope.lookup y = some j → a.Joinable ps j

/-- Between two drafts nothing has been joined but what may be joined behind the first one. -/
structure Draft.Proceeds (a : Draft) (ps : List Scope) (d : Draft) : Prop where
  ops : a.ops <+: d.ops
  scope : a.Covers ps d.scope
  joins : ∀ u l r : Nat, a.code.size ≤ u → d.ops[u]? = some (.unify l r) →
    a.Joinable ps l ∧ a.Joinable ps r

theorem Draft.Joinable.mono {a : Draft} {ps qs : List Scope} {j : Nat} (h : a.Joinable ps j)
    (hps : ps ⊆ qs) : a.Joinable qs j := by
  rcases h with h | h | ⟨P, hP, h⟩
  · exact Or.inl h
  · exact Or.inr (Or.inl h)
  · exact Or.inr (Or.inr ⟨P, hps hP, h⟩)

/-- A scope that is listed is covered. -/
theorem Draft.covers_head (a : Draft) (P : Scope) (ps : List Scope) : a.Covers (P :: ps) P :=
  fun y _ hy => Or.inr (Or.inr ⟨P, List.mem_cons_self, y, hy⟩)

namespace Draft.Proceeds

variable {a d : Draft} {ps qs : List Scope}

theorem size_le (h : a.Proceeds ps d) : a.code.size ≤ d.code.size := by
  rw [← a.length_ops, ← d.length_ops]
  exact h.ops.length_le

theorem refl (a : Draft) (ps : List Scope) : a.Proceeds ps a where
  ops := List.prefix_rfl
  scope y _ hy := Or.inr (Or.inl ⟨y, hy⟩)
  joins u l r hle hu := by
    have hlt := (List.getElem?_eq_some_iff.1 hu).1
    rw [a.length_ops] at hlt
    omega

/-- More paths may be listed. -/
theorem mono (h : a.Proceeds ps d) (hps : ps ⊆ qs) : a.Proceeds qs d where
  ops := h.ops
  scope y j hy := (h.scope y j hy).mono hps
  joins u l r hle hu := (h.joins u l r hle hu).imp (·.mono hps) (·.mono hps)

/-- The code of an expression joins nothing. -/
theorem evaluates {A : Name → Prop} {d' : Draft} (h : a.Proceeds ps d) (hd : d.Evaluates A d') :
    a.Proceeds ps d' where
  ops := h.ops.trans hd.ops
  scope y j hy := by
    rcases hd.scope y with hsame | ⟨k, hk, hle⟩
    · exact h.scope y j (hsame.symm.trans hy)
    · obtain rfl : k = j := Option.some.inj (hk.symm.trans hy)
      exact Or.inl (le_trans h.size_le hle)
  joins u l r hle hu := by
    rcases Nat.lt_or_ge u d.code.size with hlt | hge
    · rw [getElem?_ops_eq hd.ops hlt] at hu
      exact h.joins u l r hle hu
    · exact absurd (hd.written u _ hge hu).1 (by simp [Op.isUnify])

/-- Writing an instruction that binds no name. -/
theorem write (h : a.Proceeds ps d) {op : Op} (hop : bindsNothing op = true) (span : Span) :
    a.Proceeds ps (d.write op span) := h.evaluates (.write (fun _ => True) d hop span)

theorem setScope (h : a.Proceeds ps d) {scope : Scope} (hscope : a.Covers ps scope) :
    a.Proceeds ps { d with scope } := ⟨h.ops, hscope, h.joins⟩

theorem draw (h : a.Proceeds ps d) : a.Proceeds ps d.draw := ⟨h.ops, h.scope, h.joins⟩

/-- **Step lemma.**  One join of instructions that may be joined. -/
theorem join (h : a.Proceeds ps d) (span : Span) {j : Join} (hl : a.Joinable ps j.left)
    (hr : a.Joinable ps j.right) : a.Proceeds ps (d.join span j) where
  ops := h.ops.trans (d.prefix_write _ span)
  scope y k hy := by
    rw [show (d.join span j).scope.lookup y = _ from Scope.lookup_define ..] at hy
    split at hy
    · rw [← Option.some.inj hy]
      exact Or.inl h.size_le
    · exact h.scope y k hy
  joins u l r hle hu := by
    rw [show (d.join span j).ops = _ from ops_write] at hu
    rcases getElem?_concat_cases hu with hold | ⟨-, hop⟩
    · exact h.joins u l r hle hold
    · obtain ⟨rfl, rfl⟩ := Op.unify.inj hop
      exact ⟨hl, hr⟩

/-- **Run lemma.**  The joins of two paths. -/
theorem joined (h : a.Proceeds ps d) (hnodup : (d.scope.map (·.1)).Nodup) {other : Scope}
    (hother : a.Covers ps other) (span : Span) : a.Proceeds ps (d.joined other span) := by
  have hjs : ∀ j ∈ d.scope.joins other, a.Joinable ps j.left ∧ a.Joinable ps j.right := by
    intro j hj
    obtain ⟨hl, hr, -⟩ := (mem_joins hnodup).1 hj
    exact ⟨h.scope _ _ hl, hother _ _ hr⟩
  unfold Draft.joined
  generalize d.scope.joins other = js at hjs
  clear hnodup
  induction js generalizing d with
  | nil => exact h
  | cons j js ih =>
    obtain ⟨hl, hr⟩ := hjs j List.mem_cons_self
    exact ih (h.join span hl hr) fun k hk => hjs k (List.mem_cons_of_mem j hk)

theorem beginElse (h : a.Proceeds ps d) {scope : Scope} (hscope : a.Covers ps scope) (n : Nat)
    (span : Span) : a.Proceeds ps (d.beginElse n scope span) :=
  ((h.write rfl span).write rfl span).setScope hscope

/-- Behind a conditional, whose first branch ends with the bindings in `scope`. -/
theorem endIte (h : a.Proceeds ps d) {scope : Scope} (hscope : a.Covers ps scope)
    (hnodup : (scope.map (·.1)).Nodup) (n : Nat) (span : Span) :
    a.Proceeds ps ((d.endIte n scope span).joined d.scope span) :=
  ((h.setScope hscope).write rfl span).joined hnodup h.scope span

/-- Behind a loop, whose condition ends with the bindings in `scope`. -/
theorem endLoop (h : a.Proceeds ps d) {scope : Scope} (hscope : a.Covers ps scope)
    (hnodup : (scope.map (·.1)).Nodup) (n : Nat) (span : Span) :
    a.Proceeds ps ((d.endLoop n scope span).joined d.scope span) :=
  (((h.setScope hscope).write rfl span).write rfl span).joined hnodup h.scope span

variable {receiver : Bool} {decls : List Name} {d' : Draft}

/-- Lowering an expression. -/
theorem lowerExpr (h : a.Proceeds ps d) {e : Expr} {id : Nat}
    (he : lowerExpr receiver e d = .ok (id, d')) : a.Proceeds ps d' :=
  h.evaluates (evaluates_lowerExpr e (fun _ _ _ => trivial) he : d.Evaluates (fun _ => True) d')

end Draft.Proceeds

section

variable {receiver : Bool} {decls : List Name} {a d d₁ d₂ d₃ : Draft} {ps : List Scope} {c : Nat}
  {span : Span}

/-- From the condition of a conditional to its end, if the branches proceed. -/
theorem IteGrows.proceeds (hg : IteGrows decls d d₁ d₂ d₃ c span) (h₁ : a.Proceeds ps d₁)
    (hthen : a.Proceeds ps (d₁.beginThen c span) → a.Proceeds ps d₂)
    (helse : a.Proceeds ps (d₂.beginElse d₁.labels.next d₁.scope span) → a.Proceeds ps d₃) :
    a.Proceeds ps ((d₃.endIte d₁.labels.next d₂.scope span).joined d₃.scope span) := by
  have h₂ := hthen (h₁.draw.write rfl span)
  have h₃ := helse (h₂.beginElse h₁.scope _ span)
  exact h₃.endIte h₂.scope hg.thenBranch.sound.scope.nodup _ span

/-- From the condition of a loop to its end, if the body proceeds. -/
theorem LoopGrows.proceeds (hg : LoopGrows decls d d₁ d₂ c span) (h₁ : a.Proceeds ps d₁)
    (hbody : a.Proceeds ps (d₁.beginBody d.labels.next c span) → a.Proceeds ps d₂) :
    a.Proceeds ps ((d₂.endLoop d.labels.next d₁.scope span).joined d₂.scope span) :=
  (hbody (h₁.write rfl span)).endLoop h₁.scope hg.cond.sound.scope.nodup _ span

mutual

/-- **Statements join what is bound where they begin.** -/
theorem proceeds_lowerStmt {d d' : Draft} (s : Stmt) (h : lowerStmt receiver s d = .ok ((), d'))
    (hd : d.Sound decls) (ha : a.Proceeds ps d) : a.Proceeds ps d' := by
  match s with
  | .block body _ => exact proceeds_lowerStmts body h hd ha
  | .ite cond s t span =>
    obtain ⟨c, d₁, d₂, d₃, hcond, hs, ht, rfl⟩ := exists_of_lowerStmt_ite h
    have hg := IteGrows.of_branches (grows_lowerExpr cond hcond hd) span (grows_lowerStmt s hs)
      (grows_lowerStmt t ht)
    exact hg.proceeds (ha.lowerExpr hcond) (proceeds_lowerStmt s hs hg.beginThen.sound)
      (proceeds_lowerStmt t ht hg.beginElse.sound)
  | .loop cond s span =>
    obtain ⟨c, d₁, d₂, hcond, hs, rfl⟩ := exists_of_lowerStmt_loop h
    have hg := LoopGrows.of_parts hd span (grows_lowerExpr cond hcond) (grows_lowerStmt s hs)
    exact hg.proceeds ((ha.draw.write rfl span).lowerExpr hcond)
      (proceeds_lowerStmt s hs hg.beginBody.sound)
  | .print value span =>
    obtain ⟨v, d₁, h₁, h⟩ := bind_eq_ok h
    obtain ⟨i, d₂, h₂, h⟩ := bind_eq_ok h
    cases h
    obtain ⟨-, rfl⟩ := emit_eq_ok.1 h₂
    exact (ha.lowerExpr h₁).write rfl span
  | .expr value _ =>
    obtain ⟨v, d₁, h₁, h⟩ := bind_eq_ok h
    cases h
    exact ha.lowerExpr h₁

theorem proceeds_lowerStmts {d d' : Draft} (ss : List Stmt)
    (h : lowerStmts receiver ss d = .ok ((), d')) (hd : d.Sound decls) (ha : a.Proceeds ps d) :
    a.Proceeds ps d' := by
  match ss with
  | [] =>
    cases h
    exact ha
  | s :: ss =>
    obtain ⟨⟨⟩, d₁, h₁, h⟩ := bind_eq_ok h
    exact proceeds_lowerStmts ss h (grows_lowerStmt s h₁ hd).sound (proceeds_lowerStmt s h₁ hd ha)

end

end

/-- **An expression that is reached** is lowered from a sound draft, and what follows joins what is
bound behind it or on the paths that are listed. -/
theorem Reaches.exists_lowerExpr {receiver : Bool} {decls : List Name} {s : Stmt} {g : Expr}
    {d d₀ d' : Draft} {ps : List Scope} (hr : Reaches receiver s d g d₀ ps)
    (h : lowerStmt receiver s d = .ok ((), d')) (hd : d.Sound decls) :
    d₀.Sound decls ∧ d.ops <+: d₀.ops ∧ (∀ P ∈ ps, ScopeSound decls d₀.ops P) ∧
      ∃ i d₁, lowerExpr receiver g d₀ = .ok (i, d₁) ∧ d₁.Proceeds ps d' := by
  induction hr generalizing d' with
  | expr hw =>
    obtain ⟨v, d₁, h₁, h⟩ := bind_eq_ok h
    cases h
    obtain ⟨hg, i, d₂, h₂, heval⟩ := hw.exists_lowerExpr h₁ hd
    exact ⟨hg.sound, hg.ops, fun _ => nofun, i, d₂, h₂, (Draft.Proceeds.refl d₂ []).evaluates heval⟩
  | @print _ _ span _ _ hw =>
    obtain ⟨v, d₁, h₁, h⟩ := bind_eq_ok h
    obtain ⟨j, d₃, h₃, h⟩ := bind_eq_ok h
    cases h
    obtain ⟨-, rfl⟩ := emit_eq_ok.1 h₃
    obtain ⟨hg, i, d₂, h₂, heval⟩ := hw.exists_lowerExpr h₁ hd
    exact ⟨hg.sound, hg.ops, fun _ => nofun, i, d₂, h₂,
      ((Draft.Proceeds.refl d₂ []).evaluates heval).write rfl span⟩
  | @head s ss _ _ _ _ _ _ ih =>
    obtain ⟨⟨⟩, d₁, h₁, h⟩ := bind_eq_ok h
    obtain ⟨hsound, hpre, hps, i, d₂, h₂, hproc⟩ := ih h₁ hd
    exact ⟨hsound, hpre, hps, i, d₂, h₂,
      proceeds_lowerStmts ss h (grows_lowerStmt s h₁ hd).sound hproc⟩
  | @tail s _ _ _ _ d₁ _ _ hs _ ih =>
    obtain ⟨⟨⟩, d₁', h₁, h⟩ := bind_eq_ok h
    obtain rfl : d₁ = d₁' := congrArg Prod.snd (Except.ok.inj (hs.symm.trans h₁))
    have hg := grows_lowerStmt s h₁ hd
    obtain ⟨hsound, hpre, hrest⟩ := ih h hg.sound
    exact ⟨hsound, hg.ops.trans hpre, hrest⟩
  | @iteCond cond _ s t span _ _ hw =>
    obtain ⟨c, d₁, d₂, d₃, hcond, hs, ht, rfl⟩ := exists_of_lowerStmt_ite h
    have hg := IteGrows.of_branches (grows_lowerExpr cond hcond hd) span (grows_lowerStmt s hs)
      (grows_lowerStmt t ht)
    obtain ⟨hg₀, i, d₄, h₄, heval⟩ := hw.exists_lowerExpr hcond hd
    exact ⟨hg₀.sound, hg₀.ops, fun _ => nofun, i, d₄, h₄,
      hg.proceeds ((Draft.Proceeds.refl d₄ []).evaluates heval)
        (proceeds_lowerStmt s hs hg.beginThen.sound) (proceeds_lowerStmt t ht hg.beginElse.sound)⟩
  | @thenBranch cond _ s t span _ d₁ _ c ps hcond _ ih =>
    obtain ⟨c', d₁', d₂, d₃, hcond', hs, ht, rfl⟩ := exists_of_lowerStmt_ite h
    obtain ⟨rfl, rfl⟩ : c = c' ∧ d₁ = d₁' := Prod.mk.inj (Except.ok.inj (hcond.symm.trans hcond'))
    have hg := IteGrows.of_branches (grows_lowerExpr cond hcond hd) span (grows_lowerStmt s hs)
      (grows_lowerStmt t ht)
    obtain ⟨hsound, hpre, hps, i, d₄, h₄, hproc⟩ := ih hs hg.beginThen.sound
    have hscope := hg.cond.sound.scope.mono (hg.beginThen.ops.trans hpre)
    -- the other branch begins with the bindings behind the condition
    have h₂ := hproc.mono (List.subset_cons_self d₁.scope ps)
    have hother := d₄.covers_head d₁.scope ps
    have h₃ := proceeds_lowerStmt t ht hg.beginElse.sound (h₂.beginElse hother _ span)
    have hbefore := hg.cond.trans hg.beginThen
    exact ⟨hsound, hbefore.ops.trans hpre, List.forall_mem_cons.2 ⟨hscope, hps⟩, i, d₄, h₄,
      h₃.endIte h₂.scope hg.thenBranch.sound.scope.nodup _ span⟩
  | @elseBranch cond _ s t span _ d₁ d₂ _ c ps hcond hs _ ih =>
    obtain ⟨c', d₁', d₂', d₃, hcond', hs', ht, rfl⟩ := exists_of_lowerStmt_ite h
    obtain ⟨rfl, rfl⟩ : c = c' ∧ d₁ = d₁' := Prod.mk.inj (Except.ok.inj (hcond.symm.trans hcond'))
    obtain rfl : d₂ = d₂' := congrArg Prod.snd (Except.ok.inj (hs.symm.trans hs'))
    have hg := IteGrows.of_branches (grows_lowerExpr cond hcond hd) span (grows_lowerStmt s hs)
      (grows_lowerStmt t ht)
    obtain ⟨hsound, hpre, hps, i, d₄, h₄, hproc⟩ := ih ht hg.beginElse.sound
    have hscope := hg.thenBranch.sound.scope.mono (hg.beginElse.ops.trans hpre)
    have h₃ := hproc.mono (List.subset_cons_self d₂.scope ps)
    have hother := d₄.covers_head d₂.scope ps
    have hbefore := ((hg.cond.trans hg.beginThen).trans hg.thenBranch).trans hg.beginElse
    exact ⟨hsound, hbefore.ops.trans hpre, List.forall_mem_cons.2 ⟨hscope, hps⟩, i, d₄, h₄,
      h₃.endIte hother hg.thenBranch.sound.scope.nodup _ span⟩
  | @loopCond cond _ s span _ _ hw =>
    obtain ⟨c, d₁, d₂, hcond, hs, rfl⟩ := exists_of_lowerStmt_loop h
    have hg := LoopGrows.of_parts hd span (grows_lowerExpr cond hcond) (grows_lowerStmt s hs)
    obtain ⟨hg₀, i, d₄, h₄, heval⟩ := hw.exists_lowerExpr hcond hg.beginLoop.sound
    exact ⟨hg₀.sound, (hg.beginLoop.trans hg₀).ops, fun _ => nofun, i, d₄, h₄,
      hg.proceeds ((Draft.Proceeds.refl d₄ []).evaluates heval)
        (proceeds_lowerStmt s hs hg.beginBody.sound)⟩
  | @body cond _ s span _ d₁ _ c ps hcond _ ih =>
    obtain ⟨c', d₁', d₂, hcond', hs, rfl⟩ := exists_of_lowerStmt_loop h
    obtain ⟨rfl, rfl⟩ : c = c' ∧ d₁ = d₁' := Prod.mk.inj (Except.ok.inj (hcond.symm.trans hcond'))
    have hg := LoopGrows.of_parts hd span (grows_lowerExpr cond hcond) (grows_lowerStmt s hs)
    obtain ⟨hsound, hpre, hps, i, d₄, h₄, hproc⟩ := ih hs hg.beginBody.sound
    have hscope := hg.cond.sound.scope.mono (hg.beginBody.ops.trans hpre)
    have h₂ := hproc.mono (List.subset_cons_self d₁.scope ps)
    have hother := d₄.covers_head d₁.scope ps
    have hbefore := (hg.beginLoop.trans hg.cond).trans hg.beginBody
    exact ⟨hsound, hbefore.ops.trans hpre, List.forall_mem_cons.2 ⟨hscope, hps⟩, i, d₄, h₄,
      h₂.endLoop hother hg.cond.sound.scope.nodup _ span⟩

/-! ## Operands in methods -/

/-- Lowering a method comes to an expression of its statements or of its result. -/
def ReachesIn (m : Source.MethodDecl) (g : Expr) (d₀ : Draft) (ps : List Scope) : Prop :=
  Reaches true (.block m.body {}) (declaredDraft m) g d₀ ps ∨
    ps = [] ∧ ∃ d, lowerStmts true m.body (declaredDraft m) = .ok ((), d) ∧
      Within true m.result d g d₀

/-- An expression that is reached in a method, and the finished draft behind it. -/
theorem ReachesIn.exists_lowerMethod {m : Source.MethodDecl} {g : Expr} {d₀ : Draft}
    {ps : List Scope} (h : ReachesIn m g d₀ ps) :
    d₀.Sound m.declared ∧ (declaredDraft m).ops <+: d₀.ops ∧
      (∀ P ∈ ps, ScopeSound m.declared d₀.ops P) ∧
      ∃ i d₁ D, lowerExpr true g d₀ = .ok (i, d₁) ∧ lowerMethod m {} = .ok ((), D) ∧
        D.Finished m.declared ∧ d₁.Proceeds ps D := by
  obtain ⟨d, d', r, hbody, hresult, hm⟩ := Lowering.exists_lowerMethod m
  have hfinished := finished_of_lowerMethod hbody hresult
  have hdeclared := sound_declaredDraft m
  have hg := grows_lowerStmts m.body hbody hdeclared
  rcases h with hr | ⟨rfl, d'', hbody', hw⟩
  · obtain ⟨hsound, hpre, hps, i, d₁, h₁, hproc⟩ := hr.exists_lowerExpr hbody hdeclared
    exact ⟨hsound, hpre, hps, i, d₁, _, h₁, hm, hfinished,
      (hproc.lowerExpr hresult).write rfl m.result.span⟩
  · obtain rfl : d = d'' := congrArg Prod.snd (Except.ok.inj (hbody.symm.trans hbody'))
    obtain ⟨hg₀, i, d₁, h₁, heval⟩ := hw.exists_lowerExpr hresult hg.sound
    exact ⟨hg₀.sound, (hg.trans hg₀).ops, fun _ => nofun, i, d₁, _, h₁, hm, hfinished,
      ((Draft.Proceeds.refl d₁ []).evaluates heval).write rfl m.result.span⟩

/-- Chains of joins stay when the code goes on. -/
theorem linked_of_isPrefix {d D : Draft} (h : d.ops <+: D.ops) {x y : Nat}
    (hxy : d.body.Linked x y) : D.body.Linked x y := by
  refine Relation.EqvGen.mono (fun u v huv => ?_) x y hxy
  obtain ⟨i, l, r, hi, hop, hv⟩ := huv
  have hu : d.ops[u]? = some (.unify l r) := by
    rw [d.getElem?_ops, ← hop]
    exact Option.map_eq_some_iff.2 ⟨i, hi, rfl⟩
  have hu' := getElem?_of_isPrefix h hu
  rw [D.getElem?_ops] at hu'
  obtain ⟨j, hj, hop'⟩ := Option.map_eq_some_iff.1 hu'
  exact ⟨j, l, r, hj, hop', hv⟩

/-- **A class that is not joined any more has no new members.**  The instructions linked to `i` when
draft `d` is written stay apart from the instructions behind it, if later joins refer to none of
them. -/
theorem lt_size_of_linked {d D : Draft} {decls : List Name} (hD : D.Finished decls)
    (hpre : d.ops <+: D.ops) {i p : Nat} (hi : i < d.code.size)
    (hjoins : ∀ u l r : Nat, d.code.size ≤ u → D.ops[u]? = some (.unify l r) →
      ∀ o, (o = l ∨ o = r) → o < d.code.size → ¬ d.body.Linked o i)
    (h : D.body.Linked p i) : p < d.code.size := by
  have hclass := h.congr (fun k => k < d.code.size ∧ d.body.Linked k i) fun u j l r hj hop => ?_
  · have hmem : p < d.code.size ∧ d.body.Linked p i :=
      hclass.mpr ⟨hi, d.body.linked_equivalence.refl i⟩
    exact hmem.1
  · have hu : D.ops[u]? = some (.unify l r) := by
      rw [D.getElem?_ops, ← hop]
      exact Option.map_eq_some_iff.2 ⟨j, hj, rfl⟩
    have hoperand : ∀ o, (o = l ∨ o = r) →
        (u < d.code.size ∧ d.body.Linked u i ↔ o < d.code.size ∧ d.body.Linked o i) := by
      intro o ho
      rcases Nat.lt_or_ge u d.code.size with hlt | hge
      · have hlt' : o < u := by
          refine hD.code.operands u _ hu o ?_
          simpa [Op.operands] using ho
        have hlink : d.body.Linked u o := by
          obtain ⟨hl, hr⟩ := Draft.Finished.linked_of_unify
            ((Draft.getElem?_ops_eq hpre hlt).symm.trans hu)
          rcases ho with rfl | rfl
          · exact hl
          · exact hr
        have htrans := d.body.linked_equivalence
        exact ⟨fun hmem => ⟨by omega, htrans.trans (htrans.symm hlink) hmem.2⟩,
          fun hmem => ⟨hlt, htrans.trans hlink hmem.2⟩⟩
      · exact ⟨fun hmem => absurd hmem.1 (by omega),
          fun hmem => absurd hmem.2 (hjoins u l r hge hu o ho hmem.1)⟩
    exact ⟨propext (hoperand l (Or.inl rfl)), propext (hoperand r (Or.inr rfl))⟩

section

variable {decls : List Name} {l r : Expr} {d₀ d₁ d₂ D : Draft} {i j p : Nat}
  (hl : lowerExpr true l d₀ = .ok (i, d₁)) (hr : lowerExpr true r d₁ = .ok (j, d₂))
  (hd₀ : d₀.Sound decls) (hle : decls.length ≤ d₀.code.size) (hD : D.Finished decls)
  (hpre : d₂.ops <+: D.ops)

include hl hr hd₀ hle hD hpre

/-- What is written for the second operand and linked to the first one is an assignment to the
variable that is the first operand. -/
theorem exists_assign_of_linked (hp : d₁.code.size ≤ p) (hlt : p < d₂.code.size)
    (h : D.body.Linked p i) :
    ∃ x v at', D.ops[p]? = some (.assignVar v x) ∧ .var x at' ∈ r.targets ∧
      d₁.scope.lookup x = some i ∧ nameOf decls D.ops i = some x ∧
      ∃ k, d₂.scope.lookup x = some k ∧ d₁.code.size ≤ k := by
  obtain ⟨hg₁, hi⟩ := grows_lowerExpr l hl hd₀
  have heval : d₁.Evaluates (fun x => ∃ at', .var x at' ∈ r.targets) d₂ :=
    evaluates_lowerExpr r (fun x at' hx => ⟨at', hx⟩) hr
  have hsize := hg₁.size_le
  -- an instruction that binds no name would be alone in its class
  obtain ⟨x, hx⟩ : ∃ x, nameOf decls D.ops p = some x := by
    cases hx : nameOf decls D.ops p with
    | some x => exact ⟨x, rfl⟩
    | none =>
      have := hD.eq_of_linked hx h
      omega
  have hxi : nameOf decls D.ops i = some x := (hD.nameOf_eq_of_linked h).symm.trans hx
  have hlt' : p < d₂.ops.length := by rwa [d₂.length_ops]
  have hop := List.getElem?_eq_getElem hlt'
  obtain ⟨hunify, hassign⟩ := heval.written p _ hp hop
  obtain ⟨v, hv⟩ :=
    exists_assignVar_of_nameOf (getElem?_of_isPrefix hpre hop) hunify (by omega) hx
  obtain ⟨⟨at', ht⟩, hbound⟩ := hassign v x hv
  have hname : nameOf decls d₁.ops i = some x := by
    rw [← hxi, nameOf_of_isPrefix (heval.ops.trans hpre) (by rwa [d₁.length_ops])]
  refine ⟨x, v, at', ?_, ht, lookup_of_nameOf hl hd₀ hle hname, hxi, hbound⟩
  rw [getElem?_of_isPrefix hpre hop, hv]

end

/-- Where a class gets new members although its name has been bound anew, a later join has found the
class on another path. -/
theorem exists_pending_of_linked {decls : List Name} {A : Name → Prop} {d d' D : Draft}
    {ps : List Scope} {i k p : Nat} {x : Name} (heval : d.Evaluates A d')
    (hproc : d'.Proceeds ps D) (hscope : ScopeSound decls d'.ops d'.scope)
    (hps : ∀ P ∈ ps, ScopeSound decls d.ops P) (hD : D.Finished decls)
    (hname : nameOf decls D.ops i = some x) (hi : i < d.code.size)
    (hk : d'.scope.lookup x = some k) (hle : d.code.size ≤ k) (hp : d.code.size ≤ p)
    (h : D.body.Linked p i) : ∃ P ∈ ps, ∃ o, P.lookup x = some o ∧ d.body.Linked o i := by
  have hpre := heval.ops.trans hproc.ops
  -- in the class only this name is bound
  have hbound : ∀ {o : Nat} {y : Name} {ops : List Op}, ops <+: D.ops →
      nameOf decls ops o = some y → d.body.Linked o i → y = x := by
    intro o y ops hops hy ho
    have hsame := hD.nameOf_eq_of_linked (linked_of_isPrefix hpre ho)
    rw [nameOf_of_isPrefix hops (lt_length_of_nameOf hy), hy, hname] at hsame
    exact Option.some.inj hsame
  by_contra hnone
  have hlt := lt_size_of_linked hD hpre hi (fun u l r hu hop o ho holt holink => ?_) h
  · omega
  · rcases Nat.lt_or_ge u d'.code.size with hult | huge
    · rw [Draft.getElem?_ops_eq hproc.ops hult] at hop
      exact absurd (heval.written u _ hu hop).1 (by simp [Op.isUnify])
    · obtain ⟨hl, hr⟩ := hproc.joins u l r huge hop
      have hjoin : d'.Joinable ps o := by
        rcases ho with rfl | rfl
        · exact hl
        · exact hr
      rcases hjoin with hnew | ⟨y, hy⟩ | ⟨P, hP, y, hy⟩
      · have := heval.size_le
        omega
      · obtain rfl := hbound hproc.ops (hscope.names y o hy) holink
        obtain rfl : k = o := Option.some.inj (hk.symm.trans hy)
        omega
      · obtain rfl := hbound hpre ((hps P hP).names y o hy) holink
        exact hnone ⟨P, hP, o, hy, holink⟩

/-- **How an evaluated operand can be overwritten.**  In a lowered method, let an instruction that
is written for the right operand of a binary expression share its storage with the left operand.
Then it is an assignment to a variable, the left operand is what this variable is bound to before
the right operand, and the expression stands in a branch or loop body that will be joined with a
path on which the variable is still bound to that storage. -/
theorem assigned_of_shared {m : Source.MethodDecl} {op : Operator} {l r : Expr} {span : Span}
    {d₀ : Draft} {ps : List Scope} (h : ReachesIn m (.binary op l r span) d₀ ps) :
    ∃ i d₁ j d₂ t s, lowerExpr true l d₀ = .ok (i, d₁) ∧ lowerExpr true r d₁ = .ok (j, d₂) ∧
      m.lower = .ok t ∧ t.value.body.ops[d₂.code.size]? = some (.binary op i j) ∧
      Storage.ofBody t.value.body = .ok s ∧
      ∀ p, d₁.code.size ≤ p → p < d₂.code.size → s.var? p = s.var? i →
        ∃ x v at', t.value.body.ops[p]? = some (.assignVar v x) ∧ .var x at' ∈ r.targets ∧
          d₁.scope.lookup x = some i ∧
          ∃ P ∈ ps, ∃ o, P.lookup x = some o ∧ d₁.body.Linked o i := by
  obtain ⟨hd₀, hdecl, hps, k, d₃, D, hbinary, hm, hD, hproc⟩ := h.exists_lowerMethod
  obtain ⟨i, d₁, hl, hbinary⟩ := bind_eq_ok hbinary
  obtain ⟨j, d₂, hr, hbinary⟩ := bind_eq_ok hbinary
  obtain ⟨rfl, rfl⟩ := emit_eq_ok.1 hbinary
  obtain ⟨s, hs, hdescribes⟩ := hD.closed.exists_storage
  obtain ⟨hg₁, hi⟩ := grows_lowerExpr l hl hd₀
  obtain ⟨hg₂, -⟩ := grows_lowerExpr r hr hg₁.sound
  have hwrite := d₂.prefix_write (.binary op i j) span
  have hpre := hwrite.trans hproc.ops
  refine ⟨i, d₁, j, d₂, _, s, hl, hr, lower_eq hm, ?_, hs, fun p hle hlt hvar => ?_⟩
  · rw [D.ops_body]
    refine getElem?_of_isPrefix hproc.ops ?_
    rw [Draft.ops_write, ← d₂.length_ops, List.getElem?_append_right (le_refl _), Nat.sub_self]
    rfl
  · have hsize : d₂.code.size ≤ D.code.size := by
      rw [← d₂.length_ops, ← D.length_ops]
      exact hpre.length_le
    have hi' : i < D.code.size := lt_of_lt_of_le hi (le_trans hg₂.size_le hsize)
    have hlink : D.body.Linked p i :=
      (hdescribes.var?_eq_iff (lt_of_lt_of_le hlt hsize) hi').1 hvar
    have hdecls : m.declared.length ≤ d₀.code.size := by
      rw [← size_declaredDraft, ← d₀.length_ops, ← (declaredDraft m).length_ops]
      exact hdecl.length_le
    obtain ⟨x, v, at', hop, ht, hx, hname, q, hq, hle'⟩ :=
      exists_assign_of_linked hl hr hd₀ hdecls hD hpre hle hlt hlink
    have heval : d₁.Evaluates (fun _ => True) (d₂.write (.binary op i j) span) :=
      (evaluates_lowerExpr r (fun _ _ _ => trivial) hr).trans (.write _ d₂ rfl span)
    exact ⟨x, v, at', by rw [D.ops_body, hop], ht, hx,
      exists_pending_of_linked heval hproc (hg₂.sound.scope.mono hwrite)
        (fun P hP => (hps P hP).mono hg₁.ops) hD hname hi hq hle' hle hlink⟩

/-- A method with the parameters `c` and `x` and the result `y`. -/
def operandMethod (s : Stmt) : Source.MethodDecl where
  name := "sum"
  params := [{ name := "c" }, { name := "x" }]
  locals := [{ name := "y" }]
  body := [s]
  result := .var "y" {}

/-- The assignment `x = 1`. -/
def reset : Expr := .assign (.var "x" {}) (.int 1 {}) {}

/-- The statement `y = x + (x = 1)`. -/
def sumReset : Stmt :=
  .expr (.assign (.var "y" {}) (.binary .plus (.var "x" {}) reset {}) {}) {}

/-- Outside of branches and loops `x + (x = 1)` reads the `x` of before the assignment. -/
theorem kept_outside_branches :
    ∃ d₀ i d₁ j d₂ t s,
      ReachesIn (operandMethod sumReset) (.binary .plus (.var "x" {}) reset {}) d₀ [] ∧
      lowerExpr true (.var "x" {}) d₀ = .ok (i, d₁) ∧ lowerExpr true reset d₁ = .ok (j, d₂) ∧
      (operandMethod sumReset).lower = .ok t ∧ Storage.ofBody t.value.body = .ok s ∧
      ∀ p, d₁.code.size ≤ p → p < d₂.code.size → s.var? p ≠ s.var? i := by
  have hreach : ReachesIn (operandMethod sumReset) (.binary .plus (.var "x" {}) reset {})
      (declaredDraft (operandMethod sumReset)) [] :=
    Or.inl (.head (.expr (.value _ _ _ _)))
  obtain ⟨i, d₁, j, d₂, t, s, hl, hr, ht, -, hs, h⟩ := assigned_of_shared hreach
  refine ⟨_, i, d₁, j, d₂, t, s, hreach, hl, hr, ht, hs, fun p hle hlt hvar => ?_⟩
  obtain ⟨-, -, -, -, -, -, P, hP, -⟩ := h p hle hlt hvar
  cases hP

/-- In a branch it does not: behind `if (c) y = x + (x = 1)` the two bindings of `x` are joined, and
the assignment overwrites the operand that has been evaluated. -/
theorem overwritten_in_branch :
    ∃ d₀ ps i d₁ j d₂ t s p, ReachesIn (operandMethod (.ifThen (.var "c" {}) sumReset {}))
        (.binary .plus (.var "x" {}) reset {}) d₀ ps ∧
      lowerExpr true (.var "x" {}) d₀ = .ok (i, d₁) ∧ lowerExpr true reset d₁ = .ok (j, d₂) ∧
      (operandMethod (.ifThen (.var "c" {}) sumReset {})).lower = .ok t ∧
      Storage.ofBody t.value.body = .ok s ∧
      d₁.code.size ≤ p ∧ p < d₂.code.size ∧ s.var? p = s.var? i := by
  obtain ⟨t, ht, h⟩ : ∃ t, (operandMethod (.ifThen (.var "c" {}) sumReset {})).lower = .ok t ∧
      ((Storage.ofBody t.value.body).toOption.any fun s => decide (s.var? 5 = s.var? 1)) = true :=
    exists_ok_of_any (by decide +kernel)
  obtain ⟨s, hs, h⟩ := exists_ok_of_any h
  exact ⟨_, _, 1, _, 5, _, t, s, 5, Or.inl (.head (.thenBranch rfl (.expr (.value _ _ _ _)))), rfl,
    rfl, ht, hs, by decide, by decide, of_decide_eq_true h⟩

end Backend.Lowering
