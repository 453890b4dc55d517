/-
# Orderly drafts

The arguments of a call are handed over right in front of the call, one after the other.  Parameters
stand at the beginning, and of two declarations of one name only the later one is ever joined with
anything.  `Orderly` says this about a draft, and lowering keeps drafts orderly
(`orderly_lowerExpr`, `orderly_lowerStmt`).
-/
import Mathlib
import Backend.Proofs.Statements

namespace Backend.Lowering

/-! ## Writing an orderly draft -/

/-- An instruction of the draft that hands over no argument. -/
def Draft.IsValue (d : Draft) (id : Nat) : Prop :=
  ∃ op, d.ops[id]? = some op ∧ ∀ v n, op ≠ .arg v n

/-- If the instruction hands over an argument, only later arguments have been handed over since. -/
def Draft.Pending (d : Draft) (id : Nat) : Prop :=
  ∀ v n, d.ops[id]? = some (.arg v n) → ∀ z, id < z → z < d.code.size →
    ∃ w m, d.ops[z]? = some (.arg w m) ∧ n < m

/-- If the instruction declares a name, the name still stands for it behind all declarations. -/
def Draft.Binds (first : Draft) (id : Nat) : Prop :=
  id < first.code.size → id ∈ first.scope.map (·.2)

/-- The names of a scope stand for values, and not for declarations hidden by later ones. -/
def Bound (first d : Draft) (scope : Scope) : Prop := ∀ e ∈ scope, d.IsValue e.2 ∧ first.Binds e.2

/-- A draft that goes on where `first` has declared all names.  Parameters are among the
declarations; between an argument and what reads it stand only later arguments. -/
structure Orderly (first d : Draft) : Prop where
  ops : first.ops <+: d.ops
  bare : ∀ i ∈ d.code.toList, i.pin = none ∧ i.isSpillCode = false
  parameter : ∀ p n : Nat, d.ops[p]? = some (.parameter n) → p < first.code.size
  arg : ∀ p v n : Nat, d.ops[p]? = some (.arg v n) → first.code.size ≤ p
  read : ∀ (x v n y : Nat) (op : Op), d.ops[x]? = some (.arg v n) → d.ops[y]? = some op →
    x ∈ op.operands → ∀ z, x < z → z < y → ∃ w m, d.ops[z]? = some (.arg w m) ∧ n < m
  joined : ∀ p l r : Nat, d.ops[p]? = some (.unify l r) → first.Binds l ∧ first.Binds r
  bound : Bound first d d.scope

/-- An orderly draft that goes on where another one ends. -/
structure Continues (first d d' : Draft) : Prop where
  ops : d.ops <+: d'.ops
  orderly : Orderly first d'

section

variable {first d d' d'' : Draft}

theorem Continues.refl (hd : Orderly first d) : Continues first d d := ⟨List.prefix_rfl, hd⟩

theorem Continues.trans (h : Continues first d d') (h' : Continues first d' d'') :
    Continues first d d'' := ⟨h.ops.trans h'.ops, h'.orderly⟩

/-- Values stay values when the code goes on. -/
theorem Draft.IsValue.mono {id : Nat} (h : d.IsValue id) (hops : d.ops <+: d'.ops) :
    d'.IsValue id := by
  obtain ⟨op, hop, harg⟩ := h
  exact ⟨op, getElem?_of_isPrefix hops hop, harg⟩

/-- What hands over no argument may be read at any time. -/
theorem Draft.IsValue.pending {id : Nat} (h : d.IsValue id) : d.Pending id := by
  intro v n hid
  obtain ⟨op, hop, harg⟩ := h
  exact absurd (Option.some.inj (hop.symm.trans hid)) (harg v n)

/-- A scope stays bound when the code goes on. -/
theorem Bound.mono {scope : Scope} (h : Bound first d scope) (hops : d.ops <+: d'.ops) :
    Bound first d' scope := fun e he => ⟨(h e he).1.mono hops, (h e he).2⟩

namespace Orderly

/-- The declarations come first. -/
theorem size_le (hd : Orderly first d) : first.code.size ≤ d.code.size := by
  rw [← first.length_ops, ← d.length_ops]
  exact hd.ops.length_le

/-- What is written behind the declarations is no declaration. -/
theorem binds_size (hd : Orderly first d) : first.Binds d.code.size :=
  fun hlt => absurd hlt (not_lt.2 hd.size_le)

/-- Going on with other bindings. -/
theorem setScope (hd : Orderly first d) {scope : Scope} (hscope : Bound first d scope) :
    Orderly first { d with scope } :=
  ⟨hd.ops, hd.bare, hd.parameter, hd.arg, hd.read, hd.joined, hscope⟩

theorem draw (hd : Orderly first d) : Orderly first d.draw :=
  ⟨hd.ops, hd.bare, hd.parameter, hd.arg, hd.read, hd.joined, hd.bound⟩

/-- **Step lemma.**  Writing one instruction. -/
theorem write (hd : Orderly first d) (op : Op) (span : Span) (hslot : op.accessesSlot = false)
    (hparameter : ∀ n, op ≠ .parameter n) (hread : ∀ o ∈ op.operands, d.Pending o)
    (hjoined : ∀ l r, op = .unify l r → first.Binds l ∧ first.Binds r) :
    Continues first d (d.write op span) := by
  have hpre := d.prefix_write op span
  refine ⟨hpre, ⟨hd.ops.trans hpre, ?_, ?_, ?_, ?_, ?_, hd.bound.mono hpre⟩⟩
  · intro i hi
    rw [Draft.write, Array.toList_push, List.mem_append, List.mem_singleton] at hi
    rcases hi with hi | rfl
    · exact hd.bare i hi
    · exact ⟨rfl, hslot⟩
  · intro p n hp
    rw [Draft.ops_write] at hp
    rcases getElem?_concat_cases hp with hp | ⟨-, hop⟩
    · exact hd.parameter p n hp
    · exact absurd hop.symm (hparameter n)
  · intro p v n hp
    rw [Draft.ops_write] at hp
    rcases getElem?_concat_cases hp with hp | ⟨rfl, -⟩
    · exact hd.arg p v n hp
    · rw [d.length_ops]
      exact hd.size_le
  · intro x v n y op' hx hy hxy z hxz hzy
    -- an instruction that is not the last one reads nothing behind it, so `x` is an old one
    have hlt : x < d.ops.length := by
      have := (List.getElem?_eq_some_iff.1 hy).1
      rw [Draft.ops_write, List.length_append, List.length_singleton] at this
      omega
    rw [Draft.ops_write, List.getElem?_append_left hlt] at hx
    have hold : ∃ w m, d.ops[z]? = some (.arg w m) ∧ n < m := by
      rw [Draft.ops_write] at hy
      rcases getElem?_concat_cases hy with hy | ⟨rfl, rfl⟩
      · exact hd.read x v n y op' hx hy hxy z hxz hzy
      · exact hread x hxy v n hx z hxz (d.length_ops ▸ hzy)
    obtain ⟨w, m, hz, hm⟩ := hold
    exact ⟨w, m, getElem?_of_isPrefix hpre hz, hm⟩
  · intro p l r hp
    rw [Draft.ops_write] at hp
    rcases getElem?_concat_cases hp with hp | ⟨-, hop⟩
    · exact hd.joined p l r hp
    · exact hjoined l r hop.symm

end Orderly

/-- Operations that concern neither arguments, parameters, joins nor the stack. -/
def ordinary : Op → Bool
  | .arg .. | .parameter _ | .unify .. | .load _ | .store .. => false
  | _ => true

namespace Orderly

/-- Writing an ordinary instruction. -/
theorem writeOrdinary (hd : Orderly first d) (op : Op) (span : Span) (hop : ordinary op = true)
    (hread : ∀ o ∈ op.operands, d.Pending o) :
    Continues first d (d.write op span) ∧ (d.write op span).IsValue d.code.size := by
  have hslot : op.accessesSlot = false := by cases op <;> first | rfl | cases hop
  refine ⟨hd.write op span hslot ?_ hread ?_, op, d.getElem?_ops_write_self op span, ?_⟩
  · rintro n rfl
    cases hop
  · rintro l r rfl
    cases hop
  · rintro v n rfl
    cases hop

end Orderly

end

/-! ## Expressions -/

section

variable {first : Draft} {receiver : Bool}

/-- Arguments are handed over one after the other. -/
theorem orderly_emitArgs {values : List (Nat × Span)} {start : Nat} {d d' : Draft} {ids : List Nat}
    (h : emitArgs start values d = .ok (ids, d')) (hd : Orderly first d)
    (hvalues : ∀ v ∈ values, d.IsValue v.1) :
    Continues first d d' ∧ (∀ id ∈ ids, d'.Pending id) ∧
      ∀ z, d.code.size ≤ z → z < d'.code.size →
        ∃ w m, d'.ops[z]? = some (.arg w m) ∧ start ≤ m := by
  induction values generalizing start d ids with
  | nil =>
    cases h
    exact ⟨.refl hd, fun _ => nofun, fun z hz hlt => absurd hlt (not_lt.2 hz)⟩
  | cons v values ih =>
    obtain ⟨id, d₁, h₁, h⟩ := bind_eq_ok h
    obtain ⟨ids', d₂, h₂, h⟩ := bind_eq_ok h
    cases h
    obtain ⟨rfl, rfl⟩ := emit_eq_ok.1 h₁
    have hv : ∀ o ∈ (Op.arg v.1 start).operands, d.Pending o :=
      fun o ho => List.mem_singleton.1 ho ▸ (hvalues v List.mem_cons_self).pending
    have hc₁ := hd.write (.arg v.1 start) v.2 rfl (fun _ => nofun) hv (fun _ _ => nofun)
    obtain ⟨hc₂, hids, hrest⟩ := ih h₂ hc₁.orderly fun w hw =>
      (hvalues w (List.mem_cons_of_mem v hw)).mono hc₁.ops
    rw [Draft.size_write] at hrest
    have hself : d'.ops[d.code.size]? = some (.arg v.1 start) :=
      getElem?_of_isPrefix hc₂.ops (d.getElem?_ops_write_self _ _)
    refine ⟨hc₁.trans hc₂, fun i hi => ?_, fun z hz hlt => ?_⟩
    · rcases List.mem_cons.1 hi with rfl | hi
      · intro w n hop z hz hlt
        obtain ⟨-, rfl⟩ := Op.arg.inj (Option.some.inj (hself.symm.trans hop))
        exact hrest z hz hlt
      · exact hids i hi
    · rcases Nat.eq_or_lt_of_le hz with rfl | hz
      · exact ⟨v.1, start, hself, le_refl _⟩
      · obtain ⟨w, m, hop, hm⟩ := hrest z hz hlt
        exact ⟨w, m, hop, Nat.le_of_succ_le hm⟩

/-- What a scope binds after a definition: what it bound before, or the new instruction. -/
theorem mem_define {scope : Scope} {x : Name} {id : Nat} {e : Name × Nat}
    (h : e ∈ scope.define x id) : e ∈ scope ∨ e.2 = id := by
  induction scope with
  | nil => exact Or.inr (by rw [List.mem_singleton.1 h])
  | cons f scope ih =>
    obtain ⟨y, i⟩ := f
    rw [Scope.define] at h
    split at h
    · rcases List.mem_cons.1 h with rfl | h
      · exact Or.inr rfl
      · exact Or.inl (List.mem_cons_of_mem _ h)
    · rcases List.mem_cons.1 h with rfl | h
      · exact Or.inl List.mem_cons_self
      · exact (ih h).imp_left (List.mem_cons_of_mem _)

/-- A scope stays bound when a name is bound to a value behind the declarations. -/
theorem Bound.define {d : Draft} {scope : Scope} {x : Name} {id : Nat} (h : Bound first d scope)
    (hid : d.IsValue id) (hbinds : first.Binds id) : Bound first d (scope.define x id) := by
  intro e he
  rcases mem_define he with he | rfl
  · exact h e he
  · exact ⟨hid, hbinds⟩

theorem ordinary_of_evaluating {op : Op} (h : evaluating op = true) : ordinary op = true := by
  cases op <;> first | rfl | cases h

/-- Writing an assignment to a variable in scope. -/
theorem Orderly.assign {d : Draft} (hd : Orderly first d) {v : Nat} (hv : d.IsValue v) (x : Name)
    (span : Span) :
    Continues first d (d.assign v x span) ∧ (d.assign v x span).IsValue d.code.size := by
  obtain ⟨hc, hid⟩ := hd.writeOrdinary (.assignVar v x) span rfl
    fun o ho => List.mem_singleton.1 ho ▸ hv.pending
  exact ⟨⟨hc.ops, hc.orderly.setScope (hc.orderly.bound.define hid hd.binds_size)⟩, hid⟩

/-- **Step lemma.**  The draft stays orderly, and no value at hand hands over an argument. -/
theorem Evaluation.Step.orderly {A : Name → Prop} {d : Draft} {s s' : Evaluation}
    (h : s.Step A s') (hs : s.Good (Continues first d) Draft.IsValue) :
    s'.Good (Continues first d) Draft.IsValue := by
  obtain ⟨hc, hvs⟩ := hs
  have hold : ∀ v ∈ s.values, s'.draft.IsValue v := fun v hv => (hvs v hv).mono h.ops
  cases h with
  | read hx =>
    exact ⟨hc, List.forall_mem_cons.2
      ⟨(hc.orderly.bound _ (mem_of_lookup_eq_some hx)).1, hold⟩⟩
  | write span hop hread =>
    obtain ⟨hc', hid⟩ := hc.orderly.writeOrdinary _ span (ordinary_of_evaluating hop)
      fun o ho => (hvs o (hread o ho)).pending
    exact ⟨hc.trans hc', List.forall_mem_cons.2 ⟨hid, hold⟩⟩
  | @assign _ _ _ x span hv _ _ =>
    obtain ⟨hc', hid⟩ := hc.orderly.assign (hvs _ hv) x span
    exact ⟨hc.trans hc', List.forall_mem_cons.2 ⟨hid, hold⟩⟩
  | @call _ _ _ o _ ids method span hobject hargs h =>
    obtain ⟨hc₁, hids, -⟩ := orderly_emitArgs h hc.orderly fun a ha => hvs _ (hargs a ha)
    obtain ⟨hc₂, hid⟩ := hc₁.orderly.writeOrdinary (.call o method ids) span rfl
      (List.forall_mem_cons.2 ⟨((hvs o hobject).mono hc₁.ops).pending, hids⟩)
    exact ⟨(hc.trans hc₁).trans hc₂, List.forall_mem_cons.2 ⟨hid, hold⟩⟩

/-- **Lowering an expression keeps drafts orderly**; the result is a value. -/
theorem orderly_lowerExpr {d d' : Draft} {id : Nat} (e : Source.Expr)
    (h : lowerExpr receiver e d = .ok (id, d')) (hd : Orderly first d) :
    Continues first d d' ∧ d'.IsValue id :=
  keeps_lowerExpr (P := Continues first d) e h (.refl hd) fun _ _ hs step => step.orderly hs

end

/-! ## Statements -/

section

variable {first d : Draft}

/-- The sides of a join are bound in the two scopes. -/
theorem exists_of_mem_joins {ours theirs : Scope} {j : Join} (hj : j ∈ ours.joins theirs) :
    (j.name, j.left) ∈ ours ∧ (j.name, j.right) ∈ theirs := by
  rw [Scope.joins, (Join.sort_perm _).mem_iff, List.mem_filterMap] at hj
  obtain ⟨⟨x, l⟩, hmem, hj⟩ := hj
  cases hr : theirs.lookup x with
  | none => simp [hr] at hj
  | some r =>
    simp only [hr] at hj
    split at hj
    · cases hj
    · cases hj
      exact ⟨hmem, mem_of_lookup_eq_some hr⟩

namespace Orderly

/-- **Step lemma.**  A join keeps drafts orderly. -/
theorem join (hd : Orderly first d) {j : Join} (span : Span)
    (hl : d.IsValue j.left ∧ first.Binds j.left) (hr : d.IsValue j.right ∧ first.Binds j.right) :
    Continues first d (d.join span j) := by
  have hread : ∀ o ∈ (Op.unify j.left j.right).operands, d.Pending o := by
    simp [Op.operands, hl.1.pending, hr.1.pending]
  have hjoined : ∀ l r, Op.unify j.left j.right = .unify l r → first.Binds l ∧ first.Binds r := by
    intro l r h
    cases h
    exact ⟨hl.2, hr.2⟩
  have hc := hd.write (.unify j.left j.right) span rfl (fun _ => nofun) hread hjoined
  have hvalue : (d.write (.unify j.left j.right) span).IsValue d.code.size :=
    ⟨.unify j.left j.right, d.getElem?_ops_write_self _ _, fun _ _ => nofun⟩
  have ho := hc.orderly.setScope (hc.orderly.bound.define (x := j.name) hvalue hd.binds_size)
  exact ⟨hc.ops, ⟨ho.ops, ho.bare, ho.parameter, ho.arg, ho.read, ho.joined, ho.bound⟩⟩

/-- Joins keep drafts orderly. -/
theorem foldl_join (hd : Orderly first d) (span : Span) {js : List Join}
    (hjs : ∀ j ∈ js, (d.IsValue j.left ∧ first.Binds j.left) ∧
      d.IsValue j.right ∧ first.Binds j.right) :
    Continues first d (js.foldl (Draft.join span) d) := by
  induction js generalizing d with
  | nil => exact .refl hd
  | cons j js ih =>
    have hj := hjs j List.mem_cons_self
    have hc := hd.join span hj.1 hj.2
    refine hc.trans (ih hc.orderly fun k hk => ?_)
    obtain ⟨hl, hr⟩ := hjs k (List.mem_cons_of_mem j hk)
    exact ⟨⟨hl.1.mono hc.ops, hl.2⟩, hr.1.mono hc.ops, hr.2⟩

/-- Joining with the bindings of another path keeps drafts orderly. -/
theorem joinWith (hd : Orderly first d) {other : Scope} (hother : Bound first d other)
    (span : Span) : Continues first d (d.joined other span) := by
  refine hd.foldl_join span fun j hj => ?_
  obtain ⟨hl, hr⟩ := exists_of_mem_joins hj
  exact ⟨hd.bound _ hl, hother _ hr⟩

/-- Going into the first branch of a conditional. -/
theorem beginThen (hd : Orderly first d) {c : Nat} (hc : d.IsValue c) (span : Span) :
    Continues first d (d.beginThen c span) := by
  have hread : ∀ o ∈ (Op.branchNot c (.ifElse d.labels.next)).operands, d.draw.Pending o :=
    fun _ ho => List.mem_singleton.1 ho ▸ hc.pending
  have hc := (hd.draw.writeOrdinary _ span rfl hread).1
  exact ⟨hc.ops, hc.orderly⟩

/-- Going into the second branch of a conditional, with the bindings behind the condition. -/
theorem beginElse (hd : Orderly first d) {scope : Scope} (hscope : Bound first d scope) (n : Nat)
    (span : Span) : Continues first d (d.beginElse n scope span) := by
  have hc₁ := (hd.writeOrdinary (.goto (.ifDone n)) span rfl fun _ => nofun).1
  have hc₂ := (hc₁.orderly.writeOrdinary (.label (.ifElse n)) span rfl fun _ => nofun).1
  have hc := hc₁.trans hc₂
  exact ⟨hc.ops, hc.orderly.setScope (hscope.mono hc.ops)⟩

/-- The end of a conditional, with the bindings of one of its branches. -/
theorem endIte (hd : Orderly first d) {scope : Scope} (hscope : Bound first d scope) (n : Nat)
    (span : Span) : Continues first d (d.endIte n scope span) := by
  have hc := ((hd.setScope hscope).writeOrdinary (.label (.ifDone n)) span rfl fun _ => nofun).1
  exact ⟨hc.ops, hc.orderly⟩

/-- Going into a loop. -/
theorem beginLoop (hd : Orderly first d) (span : Span) : Continues first d (d.beginLoop span) := by
  have hc := (hd.draw.writeOrdinary (.label (.whileCond d.labels.next)) span rfl fun _ => nofun).1
  exact ⟨hc.ops, hc.orderly⟩

/-- Going into the body of a loop. -/
theorem beginBody (hd : Orderly first d) {c : Nat} (hc : d.IsValue c) (n : Nat) (span : Span) :
    Continues first d (d.beginBody n c span) :=
  (hd.writeOrdinary (.branchNot c (.whileEnd n)) span rfl fun _ ho =>
    List.mem_singleton.1 ho ▸ hc.pending).1

/-- The end of a loop, with the bindings behind its condition. -/
theorem endLoop (hd : Orderly first d) {scope : Scope} (hscope : Bound first d scope) (n : Nat)
    (span : Span) : Continues first d (d.endLoop n scope span) := by
  have hc₁ := ((hd.setScope hscope).writeOrdinary (.goto (.whileCond n)) span rfl
    fun _ => nofun).1
  have hc₂ := (hc₁.orderly.writeOrdinary (.label (.whileEnd n)) span rfl fun _ => nofun).1
  exact ⟨(hc₁.trans hc₂).ops, hc₂.orderly⟩

end Orderly

end

section

variable {first : Draft} {receiver : Bool}

mutual

/-- **Lowering a statement keeps drafts orderly.** -/
theorem orderly_lowerStmt {d d' : Draft} (s : Source.Stmt)
    (h : lowerStmt receiver s d = .ok ((), d')) (hd : Orderly first d) : Continues first d d' := by
  match s with
  | .block body _ => exact orderly_lowerStmts body h hd
  | .ite cond s t span =>
    obtain ⟨c, d₁, d₂, d₃, hcond, hs, ht, rfl⟩ := exists_of_lowerStmt_ite h
    obtain ⟨hc₁, hc⟩ := orderly_lowerExpr cond hcond hd
    have hthen := hc₁.orderly.beginThen hc span
    have hc₂ := orderly_lowerStmt s hs hthen.orderly
    have helse := hc₂.orderly.beginElse (hc₁.orderly.bound.mono (hthen.trans hc₂).ops)
      d₁.labels.next span
    have hc₃ := orderly_lowerStmt t ht helse.orderly
    have hend := hc₃.orderly.endIte (hc₂.orderly.bound.mono (helse.trans hc₃).ops)
      d₁.labels.next span
    have hjoin := hend.orderly.joinWith (hc₃.orderly.bound.mono hend.ops) span
    exact (((((hc₁.trans hthen).trans hc₂).trans helse).trans hc₃).trans hend).trans hjoin
  | .loop cond s span =>
    obtain ⟨c, d₁, d₂, hcond, hs, rfl⟩ := exists_of_lowerStmt_loop h
    have hbegin := hd.beginLoop span
    obtain ⟨hc₁, hc⟩ := orderly_lowerExpr cond hcond hbegin.orderly
    have hbody := hc₁.orderly.beginBody hc d.labels.next span
    have hc₂ := orderly_lowerStmt s hs hbody.orderly
    have hend := hc₂.orderly.endLoop (hc₁.orderly.bound.mono (hbody.trans hc₂).ops)
      d.labels.next span
    have hjoin := hend.orderly.joinWith (hc₂.orderly.bound.mono hend.ops) span
    exact ((((hbegin.trans hc₁).trans hbody).trans hc₂).trans hend).trans hjoin
  | .print value span =>
    obtain ⟨v, d₁, h₁, h⟩ := bind_eq_ok h
    obtain ⟨i, d₂, h₂, h⟩ := bind_eq_ok h
    cases h
    obtain ⟨-, rfl⟩ := emit_eq_ok.1 h₂
    obtain ⟨hc₁, hv⟩ := orderly_lowerExpr value h₁ hd
    exact hc₁.trans (hc₁.orderly.writeOrdinary (.print v) span rfl fun _ ho =>
      List.mem_singleton.1 ho ▸ hv.pending).1
  | .expr value _ =>
    obtain ⟨v, d₁, h₁, h⟩ := bind_eq_ok h
    cases h
    exact (orderly_lowerExpr value h₁ hd).1

theorem orderly_lowerStmts {d d' : Draft} (ss : List Source.Stmt)
    (h : lowerStmts receiver ss d = .ok ((), d')) (hd : Orderly first d) :
    Continues first d d' := by
  match ss with
  | [] =>
    cases h
    exact .refl hd
  | s :: ss =>
    obtain ⟨⟨⟩, d₁, h₁, h⟩ := bind_eq_ok h
    have hc₁ := orderly_lowerStmt s h₁ hd
    exact hc₁.trans (orderly_lowerStmts ss h hc₁.orderly)

end

end

end Backend.Lowering
