/-
# Storage carried around loops

A loop joins the bindings behind its condition with those behind its body, so these always share
their storage.  What is bound before the loop shares it, too, as long as the condition leaves the
name alone; a condition that assigns to a name cuts it off from the storage that the next iteration
reads, unless a join further behind ties the two together (`Lowering.carried_of_loopIn`).
-/
import Mathlib
import Backend.Proofs.Operands

namespace Backend.Lowering

open Source (Avoid)

variable {receiver : Bool} {x : Name}

/-- An expression leaves the names alone to which it does not assign. -/
theorem lookup_lowerExpr {d d' : Draft} {id : Nat} (e : Source.Expr)
    (h : lowerExpr receiver e d = .ok (id, d')) (hx : Avoid x e.targets) :
    d'.scope.lookup x = d.scope.lookup x := by
  have hA : ∀ y at', .var y at' ∈ e.targets → y ≠ x := fun y at' hy heq => hx at' (heq ▸ hy)
  obtain ⟨vs, hs⟩ := exists_steps_lowerExpr e hA h
  refine hs.keeps (P := fun s => s.draft.scope.lookup x = d.scope.lookup x) rfl
    fun s s' hsame step => ?_
  cases step with
  | read _ | write _ _ _ => exact hsame
  | assign span _ _ hne =>
    rw [← hsame]
    exact (Scope.lookup_define ..).trans (if_neg hne.symm)
  | call method span _ _ h => rw [← hsame, Draft.scope_write, scope_emitArgs h]

/-! ## Storage classes of joined bindings -/

/-- What two paths bind a name to is in one storage class behind their join. -/
theorem linked_joined {D d : Draft} (hd : (d.scope.map (·.1)).Nodup) {other : Scope} {span : Span}
    (hD : (d.joined other span).ops <+: D.ops) {l r : Nat} (hl : d.scope.lookup x = some l)
    (hr : other.lookup x = some r) :
    ∃ u, (d.joined other span).scope.lookup x = some u ∧ D.body.Linked u l ∧ D.body.Linked u r := by
  obtain ⟨u, hu, hcases⟩ := Draft.lookup_joined hd other span hl hr
  refine ⟨u, hu, ?_⟩
  rcases hcases with ⟨rfl, rfl⟩ | hop
  · exact ⟨D.body.linked_equivalence.refl _, D.body.linked_equivalence.refl _⟩
  · exact Draft.Finished.linked_of_unify (getElem?_of_isPrefix hD hop)

/-! ## The statements of a method -/

/-- Lowering a statement from one draft comes to another statement, in the draft that stands
last. -/
inductive Visits (receiver : Bool) : Source.Stmt → Draft → Source.Stmt → Draft → Prop
  | here (s : Source.Stmt) (d : Draft) : Visits receiver s d s d
  | head {s t : Source.Stmt} {ss : List Source.Stmt} {span : Span} {d e : Draft}
      (h : Visits receiver s d t e) : Visits receiver (.block (s :: ss) span) d t e
  | tail {s t : Source.Stmt} {ss : List Source.Stmt} {span : Span} {d d₁ e : Draft}
      (hs : lowerStmt receiver s d = .ok ((), d₁)) (h : Visits receiver (.block ss span) d₁ t e) :
      Visits receiver (.block (s :: ss) span) d t e
  | thenBranch {cond : Source.Expr} {s s' t : Source.Stmt} {span : Span} {d d₁ e : Draft} {c : Nat}
      (hcond : lowerExpr receiver cond d = .ok (c, d₁))
      (h : Visits receiver s (d₁.beginThen c span) t e) :
      Visits receiver (.ite cond s s' span) d t e
  | elseBranch {cond : Source.Expr} {s s' t : Source.Stmt} {span : Span} {d d₁ d₂ e : Draft}
      {c : Nat} (hcond : lowerExpr receiver cond d = .ok (c, d₁))
      (hs : lowerStmt receiver s (d₁.beginThen c span) = .ok ((), d₂))
      (h : Visits receiver s' (d₂.beginElse d₁.labels.next d₁.scope span) t e) :
      Visits receiver (.ite cond s s' span) d t e
  | body {cond : Source.Expr} {s t : Source.Stmt} {span : Span} {d d₁ e : Draft} {c : Nat}
      (hcond : lowerExpr receiver cond (d.beginLoop span) = .ok (c, d₁))
      (h : Visits receiver s (d₁.beginBody d.labels.next c span) t e) :
      Visits receiver (.loop cond s span) d t e

/-- A statement that is visited is lowered from a sound draft, and its code is part of the whole. -/
theorem Visits.exists_lowerStmt {decls : List Name} {s t : Source.Stmt} {d d' e : Draft}
    (hv : Visits receiver s d t e) (h : lowerStmt receiver s d = .ok ((), d'))
    (hd : d.Sound decls) :
    e.Sound decls ∧ ∃ e', lowerStmt receiver t e = .ok ((), e') ∧ e'.ops <+: d'.ops := by
  induction hv generalizing d' with
  | here s d => exact ⟨hd, d', h, List.prefix_rfl⟩
  | @head s t ss span d e _ ih =>
    obtain ⟨⟨⟩, d₁, h₁, h⟩ := bind_eq_ok h
    have hg₁ := grows_lowerStmt s h₁ hd
    obtain ⟨he, e', he', hpre⟩ := ih h₁ hd
    exact ⟨he, e', he', hpre.trans (grows_lowerStmts ss h hg₁.sound).ops⟩
  | @tail s t ss span d d₁ e hs _ ih =>
    obtain ⟨⟨⟩, d₁', h₁, h⟩ := bind_eq_ok h
    obtain rfl : d₁ = d₁' := congrArg Prod.snd (Except.ok.inj (hs.symm.trans h₁))
    exact ih h (grows_lowerStmt s h₁ hd).sound
  | @thenBranch cond s s' t span d d₁ e c hcond _ ih =>
    obtain ⟨c', d₁', d₂, d₃, hcond', hs, ht, rfl⟩ := exists_of_lowerStmt_ite h
    obtain ⟨rfl, rfl⟩ : c = c' ∧ d₁ = d₁' := Prod.mk.inj (Except.ok.inj (hcond.symm.trans hcond'))
    have hg := IteGrows.of_branches (grows_lowerExpr cond hcond hd) span (grows_lowerStmt s hs)
      (grows_lowerStmt s' ht)
    obtain ⟨he, e', he', hpre⟩ := ih hs hg.beginThen.sound
    exact ⟨he, e', he', hpre.trans
      ((((hg.beginElse.trans hg.elseBranch).trans hg.endIte).trans hg.joined).ops)⟩
  | @elseBranch cond s s' t span d d₁ d₂ e c hcond hs _ ih =>
    obtain ⟨c', d₁', d₂', d₃, hcond', hs', ht, rfl⟩ := exists_of_lowerStmt_ite h
    obtain ⟨rfl, rfl⟩ : c = c' ∧ d₁ = d₁' := Prod.mk.inj (Except.ok.inj (hcond.symm.trans hcond'))
    obtain rfl : d₂ = d₂' := congrArg Prod.snd (Except.ok.inj (hs.symm.trans hs'))
    have hg := IteGrows.of_branches (grows_lowerExpr cond hcond hd) span (grows_lowerStmt s hs)
      (grows_lowerStmt s' ht)
    obtain ⟨he, e', he', hpre⟩ := ih ht hg.beginElse.sound
    exact ⟨he, e', he', hpre.trans (hg.endIte.trans hg.joined).ops⟩
  | @body cond s t span d d₁ e c hcond _ ih =>
    obtain ⟨c', d₁', d₂, hcond', hs, rfl⟩ := exists_of_lowerStmt_loop h
    obtain ⟨rfl, rfl⟩ : c = c' ∧ d₁ = d₁' := Prod.mk.inj (Except.ok.inj (hcond.symm.trans hcond'))
    have hg := LoopGrows.of_parts hd span (grows_lowerExpr cond hcond) (grows_lowerStmt s hs)
    obtain ⟨he, e', he', hpre⟩ := ih hs hg.beginBody.sound
    exact ⟨he, e', he', hpre.trans (hg.endLoop.trans hg.joined).ops⟩

/-- The bindings behind the condition and behind the body of a loop are in one storage class. -/
theorem LoopGrows.linked {decls : List Name} {D d d₁ d₂ : Draft} {c : Nat} {span : Span}
    (h : LoopGrows decls d d₁ d₂ c span)
    (hD : ((d₂.endLoop d.labels.next d₁.scope span).joined d₂.scope span).ops <+: D.ops)
    {k j : Nat} (hk : d₁.scope.lookup x = some k) (hj : d₂.scope.lookup x = some j) :
    D.body.Linked k j := by
  obtain ⟨u, -, hu, hu'⟩ := linked_joined (d := d₂.endLoop d.labels.next d₁.scope span)
    h.cond.sound.scope.nodup hD hk hj
  exact D.body.linked_equivalence.trans (D.body.linked_equivalence.symm hu) hu'

/-- Lowering a method comes to a loop with draft `e` in front of it, draft `d₁` behind its condition
and draft `d₂` behind its body, from where it goes back. -/
def LoopIn (m : Source.MethodDecl) (cond : Source.Expr) (e d₁ d₂ : Draft) : Prop :=
  ∃ (body : Source.Stmt) (span : Span) (c : Nat),
    Visits true (.block m.body {}) (declaredDraft m) (.loop cond body span) e ∧
    lowerExpr true cond (e.beginLoop span) = .ok (c, d₁) ∧
    lowerStmt true body (d₁.beginBody e.labels.next c span) = .ok ((), d₂)

/-- The condition of a loop that is visited is reached. -/
theorem Visits.exists_reaches {s body : Source.Stmt} {cond : Source.Expr} {span : Span}
    {d e : Draft} (h : Visits receiver s d (.loop cond body span) e) :
    ∃ ps, Reaches receiver s d cond (e.beginLoop span) ps := by
  generalize ht : Source.Stmt.loop cond body span = t at h
  induction h with
  | here s d =>
    subst ht
    exact ⟨[], .loopCond (.here _ _)⟩
  | head _ ih =>
    obtain ⟨ps, hps⟩ := ih ht
    exact ⟨ps, .head hps⟩
  | tail hs _ ih =>
    obtain ⟨ps, hps⟩ := ih ht
    exact ⟨ps, .tail hs hps⟩
  | thenBranch hcond _ ih =>
    obtain ⟨ps, hps⟩ := ih ht
    exact ⟨_, .thenBranch hcond hps⟩
  | elseBranch hcond hs _ ih =>
    obtain ⟨ps, hps⟩ := ih ht
    exact ⟨_, .elseBranch hcond hs hps⟩
  | body hcond _ ih =>
    obtain ⟨ps, hps⟩ := ih ht
    exact ⟨_, .body hcond hps⟩

/-- An expression that binds a name anew cuts it off from its storage, unless a later join finds the
storage on another path. -/
theorem ReachesIn.exists_pending {m : Source.MethodDecl} {g : Source.Expr} {d₀ d₁ D : Draft}
    {ps : List Scope} {s : Storage} {c i k : Nat} (h : ReachesIn m g d₀ ps)
    (hg : lowerExpr true g d₀ = .ok (c, d₁)) (hm : lowerMethod m {} = .ok ((), D))
    (hs : s.Describes D.body) (hi : d₀.scope.lookup x = some i) (hk : d₁.scope.lookup x = some k)
    (hshared : s.var? k = s.var? i) :
    k = i ∨ ∃ P ∈ ps, ∃ o, P.lookup x = some o ∧ s.var? o = s.var? i := by
  obtain ⟨hd₀, -, hps, c', d₁', D', hg', hm', hD, hproc⟩ := h.exists_lowerMethod
  obtain rfl : D = D' := congrArg Prod.snd (Except.ok.inj (hm.symm.trans hm'))
  obtain ⟨rfl, rfl⟩ : c = c' ∧ d₁ = d₁' := Prod.mk.inj (Except.ok.inj (hg.symm.trans hg'))
  have heval := evaluates_lowerExpr (A := fun _ => True) g (fun _ _ _ => trivial) hg
  have hd₁ := (grows_lowerExpr g hg hd₀).1.sound
  have hpre := heval.ops.trans hproc.ops
  have hname := (hd₀.scope.mono hpre).names x i hi
  have hname' := (hd₁.scope.mono hproc.ops).names x k hk
  have hlink : D.body.Linked k i := (hs.var?_eq_iff (D.length_ops ▸ lt_length_of_nameOf hname')
    (D.length_ops ▸ lt_length_of_nameOf hname)).1 hshared
  rcases heval.scope x with hsame | ⟨j, hj, hle⟩
  · exact Or.inl (Option.some.inj (hk.symm.trans (hsame.trans hi)))
  · obtain rfl : k = j := Option.some.inj (hk.symm.trans hj)
    obtain ⟨P, hP, o, ho, holink⟩ := exists_pending_of_linked heval hproc hd₁.scope hps hD hname
      (hd₀.lt_size hi) hk hle hle hlink
    exact Or.inr ⟨P, hP, o, ho, hs.var?_eq_of_linked hD.closed (linked_of_isPrefix hpre holink)⟩

/-- **Storage carried around loops.**  In a lowered method, what a name is bound to behind the
condition of a loop is in one storage class with what it is bound to where the loop goes back.  What
it is bound to in front of the loop is in that class, too, if the condition does not assign to the
name.  If the condition does bind the name anew, this is so only if the loop stands in a branch or a
loop body that will be joined with a path on which the name is still bound to that storage. -/
theorem carried_of_loopIn {m : Source.MethodDecl} {cond : Source.Expr} {e d₁ d₂ : Draft}
    (h : LoopIn m cond e d₁ d₂) {i : Nat} (hx : e.scope.lookup x = some i) :
    ∃ t s k j span ps, m.lower = .ok t ∧ Storage.ofBody t.value.body = .ok s ∧
      d₁.scope.lookup x = some k ∧ d₂.scope.lookup x = some j ∧ s.var? k = s.var? j ∧
      (Avoid x cond.targets → s.var? i = s.var? j) ∧ ReachesIn m cond (e.beginLoop span) ps ∧
      (s.var? i = s.var? j → k = i ∨ ∃ P ∈ ps, ∃ o, P.lookup x = some o ∧ s.var? o = s.var? i) := by
  obtain ⟨body, span, c, hvisits, hcond, hbody⟩ := h
  obtain ⟨d₃, d₄, r, h₃, h₄, hm⟩ := exists_lowerMethod m
  have hfinished := finished_of_lowerMethod h₃ h₄
  -- the loop grows from a sound draft, and its joins are part of the finished draft
  obtain ⟨he, e', hloop, hpre⟩ := hvisits.exists_lowerStmt h₃ (sound_declaredDraft m)
  have hg := LoopGrows.of_parts he span (grows_lowerExpr cond hcond) (grows_lowerStmt body hbody)
  obtain ⟨c', d₁', d₂', hcond', hbody', rfl⟩ := exists_of_lowerStmt_loop hloop
  obtain ⟨rfl, rfl⟩ : c = c' ∧ d₁ = d₁' := Prod.mk.inj (Except.ok.inj (hcond.symm.trans hcond'))
  obtain rfl : d₂ = d₂' := congrArg Prod.snd (Except.ok.inj (hbody.symm.trans hbody'))
  obtain ⟨-, hg₄, hg₅⟩ := grows_of_lowerMethod h₃ h₄
  have hD := hpre.trans (hg₄.trans hg₅).ops
  -- the name stays bound
  have hbound : ∀ {d : Draft}, SameNames e.scope d.scope → ∃ k, d.scope.lookup x = some k := by
    intro d hnames
    have := hnames x
    rw [hx] at this
    exact Option.isSome_iff_exists.1 this
  obtain ⟨k, hk⟩ := hbound (hg.beginLoop.trans hg.cond).names
  obtain ⟨j, hj⟩ := hbound (((hg.beginLoop.trans hg.cond).trans hg.beginBody).trans hg.body).names
  obtain ⟨s, hs, hdescribes⟩ := hfinished.closed.exists_storage
  have hkj : s.var? k = s.var? j :=
    hdescribes.var?_eq_of_linked hfinished.closed (hg.linked hD hk hj)
  obtain ⟨ps, hreaches⟩ := hvisits.exists_reaches
  refine ⟨_, s, k, j, span, ps, lower_eq hm, hs, hk, hj, hkj, fun havoid => ?_, Or.inl hreaches,
    fun hij => ?_⟩
  · have hki : some k = some i := by
      rw [← hk, lookup_lowerExpr cond hcond havoid, ← hx]
      rfl
    rw [← Option.some.inj hki, hkj]
  · exact ReachesIn.exists_pending (Or.inl hreaches) hcond hm hdescribes hx hk
      (hkj.trans hij.symm)

/-- A method with the loop `while (cond) body` over a parameter `x`. -/
def loopMethod (cond : Source.Expr) (body : Source.Stmt) : Source.MethodDecl where
  name := "count"
  params := [{ name := "x" }]
  body := [.loop cond body {}]
  result := .var "x" {}

/-- The assignment `x = x + 1`. -/
def increment : Source.Expr :=
  .assign (.var "x" {}) (.binary .plus (.var "x" {}) (.int 1 {}) {}) {}

/-- The loop `while (x < 10) x = x + 1` carries its variable. -/
theorem carried_increment :
    ∃ e d₁ d₂ t s k j,
      LoopIn (loopMethod (.binary .lt (.var "x" {}) (.int 10 {}) {}) (.expr increment {}))
        (.binary .lt (.var "x" {}) (.int 10 {}) {}) e d₁ d₂ ∧ e.scope.lookup "x" = some 0 ∧
      (loopMethod (.binary .lt (.var "x" {}) (.int 10 {}) {}) (.expr increment {})).lower = .ok t ∧
      Storage.ofBody t.value.body = .ok s ∧ d₁.scope.lookup "x" = some k ∧
      d₂.scope.lookup "x" = some j ∧ s.var? k = s.var? j ∧ s.var? 0 = s.var? j := by
  obtain ⟨e, d₁, d₂, hloop, hx⟩ : ∃ e d₁ d₂,
      LoopIn (loopMethod (.binary .lt (.var "x" {}) (.int 10 {}) {}) (.expr increment {}))
        (.binary .lt (.var "x" {}) (.int 10 {}) {}) e d₁ d₂ ∧ e.scope.lookup "x" = some 0 :=
    ⟨_, _, _, ⟨_, _, _, .head (.here _ _), rfl, rfl⟩, rfl⟩
  obtain ⟨t, s, k, j, -, -, ht, hs, hk, hj, hkj, h, -⟩ := carried_of_loopIn hloop hx
  exact ⟨e, d₁, d₂, t, s, k, j, hloop, hx, ht, hs, hk, hj, hkj, h fun _ => nofun⟩

/-- The loop `while ((x = x + 1) < 10) {}` does not: in every iteration the condition reads the `x`
of before the loop. -/
theorem not_carried_increment_in_condition :
    ∃ e d₁ d₂ i j t s,
      LoopIn (loopMethod (.binary .lt increment (.int 10 {}) {}) .skip)
        (.binary .lt increment (.int 10 {}) {}) e d₁ d₂ ∧
      e.scope.lookup "x" = some i ∧ d₂.scope.lookup "x" = some j ∧
      (loopMethod (.binary .lt increment (.int 10 {}) {}) .skip).lower = .ok t ∧
      Storage.ofBody t.value.body = .ok s ∧ s.var? i ≠ s.var? j := by
  obtain ⟨t, ht, h⟩ :
      ∃ t, (loopMethod (.binary .lt increment (.int 10 {}) {}) .skip).lower = .ok t ∧
      ((Storage.ofBody t.value.body).toOption.any fun s => decide (s.var? 0 ≠ s.var? 4)) = true :=
    exists_ok_of_any (by decide +kernel)
  obtain ⟨s, hs, h⟩ := exists_ok_of_any h
  exact ⟨_, _, _, 0, 4, t, s, ⟨_, _, _, .head (.here _ _), rfl, rfl⟩, rfl, rfl, ht, hs,
    of_decide_eq_true h⟩

end Backend.Lowering
