/-
# Lowering preserves meaning

A statement that leads from one state to another is followed by its code, from the end of one draft
to the end of the next (`arrives_of_exec`).  At a join the two bindings of a name have one cell, so
that it does not matter from which side control arrives; when a loop goes back, the cell of what was
bound behind the body is the cell of what was bound before the loop.  So a method that returns a
value is lowered to code that reaches its return with this value (`reaches_ret_of_returns`).
-/
import Mathlib
import Backend.Proofs.LoweredValues

namespace Backend.Lowering

open Source (State)

variable {Val World : Type} {m : Meaning Val World} {decls : List Name} {D d d' d₁ d₂ : Draft}
  {s : Storage} {σ τ : Config (Option Nat) Val World} {st : State Val World}

/-! ## Control -/

/-- Control passes over labels and joins. -/
theorem leads_pass {op : Op} {q : Nat} (hp : D.ops[σ.pc]? = some op)
    (hop : op.isUnify = true ∨ ∃ l, op = .label l) (hq : σ.pc + 1 = q) :
    Leads m D s σ { σ with pc := q } := by
  have hstep := leads_execute (m := m) (s := s) hp
  subst hq
  rcases hop with hop | ⟨l, rfl⟩
  · cases op <;> first | exact hstep | cases hop
  · exact hstep

/-- The position of a label in a finished draft. -/
theorem labelAt_body (hD : D.Finished decls) {q : Nat} {l : Label}
    (hq : D.ops[q]? = some (.label l)) : D.body.labelAt l = q := by
  rw [Body.labelAt, hD.labelPosition?_body hq]
  rfl

theorem leads_goto (hD : D.Finished decls) {q : Nat} {l : Label}
    (hp : D.ops[σ.pc]? = some (.goto l)) (hq : D.ops[q]? = some (.label l)) :
    Leads m D s σ { σ with pc := q } := by
  have hstep := leads_execute (m := m) (s := s) hp
  rw [← labelAt_body hD hq]
  exact hstep

theorem leads_branchNot_of_true {c q : Nat} {l : Label}
    (hp : D.ops[σ.pc]? = some (.branchNot c l)) (hc : m.truth (σ.cells (s.var? c)) = true)
    (hq : σ.pc + 1 = q) : Leads m D s σ { σ with pc := q } := by
  have hstep := leads_execute (m := m) (s := s) hp
  have hnext : m.next D.body (.branchNot c l) (σ.reads s.var? (.branchNot c l)) σ.pc = q := by
    simp [Meaning.next, Config.reads, Op.operands, hc, hq]
  rw [← hnext]
  exact hstep

theorem leads_branchNot_of_false (hD : D.Finished decls) {c q : Nat} {l : Label}
    (hp : D.ops[σ.pc]? = some (.branchNot c l)) (hc : m.truth (σ.cells (s.var? c)) = false)
    (hq : D.ops[q]? = some (.label l)) : Leads m D s σ { σ with pc := q } := by
  have hstep := leads_execute (m := m) (s := s) hp
  have hnext : m.next D.body (.branchNot c l) (σ.reads s.var? (.branchNot c l)) σ.pc = q := by
    simp [Meaning.next, Config.reads, Op.operands, hc, labelAt_body hD hq]
  rw [← hnext]
  exact hstep

/-- Control passes over any number of joins. -/
theorem leads_joins {js ops : List Op} (hjs : ∀ op ∈ js, op.isUnify = true)
    (hpre : ops ++ js <+: D.ops) (hpc : σ.pc = ops.length) :
    Leads m D s σ { σ with pc := (ops ++ js).length } := by
  induction js generalizing ops σ with
  | nil =>
    rw [List.append_nil, ← hpc]
    exact .refl σ
  | cons op js ih =>
    have hp : D.ops[σ.pc]? = some op := by
      refine getElem?_of_isPrefix hpre ?_
      rw [hpc, List.getElem?_append_right (le_refl _), Nat.sub_self]
      rfl
    rw [List.append_cons] at hpre ⊢
    refine (leads_pass hp (Or.inl (hjs op List.mem_cons_self)) rfl).trans ?_
    refine ih (σ := { σ with pc := σ.pc + 1 }) (fun op' h => hjs op' (List.mem_cons_of_mem op h))
      hpre ?_
    rw [List.length_append, ← hpc]
    rfl

/-- Behind a join the cells of the names are those of both paths. -/
theorem map_var?_joined (hD : D.Finished decls) (hs : s.Describes D.body) (hd : d.Sound decls)
    {other : Scope} (hother : ScopeSound decls d.ops other) (hnames : SameNames d.scope other)
    {span : Span} (hpre : (d.joined other span).ops <+: D.ops) (x : Name) :
    ((d.joined other span).scope.lookup x).map s.var? = (d.scope.lookup x).map s.var? ∧
      ((d.joined other span).scope.lookup x).map s.var? = (other.lookup x).map s.var? := by
  cases hl : d.scope.lookup x with
  | none =>
    have hr := hnames x
    have hu := (hd.grows_joined hother span).names x
    rw [hl, Option.isSome_none, Option.isSome_eq_false_iff, Option.isNone_iff_eq_none] at hr hu
    rw [hu, hr]
    exact ⟨rfl, rfl⟩
  | some l =>
    have hr := hnames x
    rw [hl] at hr
    obtain ⟨r, hr⟩ := Option.isSome_iff_exists.1 hr
    obtain ⟨u, hu, hul, hur⟩ := linked_joined hd.scope.nodup hpre hl hr
    rw [hu, hr, Option.map_some, Option.map_some, Option.map_some,
      hs.var?_eq_of_linked hD.closed hul]
    exact ⟨rfl, by rw [← hs.var?_eq_of_linked hD.closed hul, hs.var?_eq_of_linked hD.closed hur]⟩

/-- Where an instruction stands that has been written. -/
theorem getElem?_of_write {op : Op} {span : Span} (h : (d.write op span).ops <+: D.ops) :
    D.ops[d.code.size]? = some op := by
  refine getElem?_of_isPrefix h ?_
  rw [Draft.ops_write, ← d.length_ops, List.getElem?_concat_length]

/-- Where two instructions stand that have been written one after the other. -/
theorem getElem?_of_write_write {op op' : Op} {span : Span}
    (h : ((d.write op span).write op' span).ops <+: D.ops) :
    D.ops[d.code.size]? = some op ∧ D.ops[d.code.size + 1]? = some op' := by
  constructor
  · exact getElem?_of_write (((d.write op span).prefix_write op' span).trans h)
  · rw [← Draft.size_write]
    exact getElem?_of_write h

/-! ## Arriving at the end of a draft -/

/-- Control moves to the end of another draft whose names are bound to the same cells. -/
theorem Ready.move (h : Ready decls s d st σ) (hd' : d'.Sound decls)
    (hle : decls.length ≤ d'.code.size)
    (hscope : ∀ x, (d'.scope.lookup x).map s.var? = (d.scope.lookup x).map s.var?) :
    Ready decls s d' st { σ with pc := d'.code.size } := by
  refine ⟨hd', hle, rfl, ⟨fun x => ?_, h.represents.world⟩⟩
  have hcells := congrArg (Option.map σ.cells) (hscope x)
  rw [Option.map_map, Option.map_map] at hcells
  exact (h.represents.env x).trans hcells.symm

/-- The machine gets to the end of a draft and represents a state there. -/
def Arrives (m : Meaning Val World) (decls : List Name) (D : Draft) (s : Storage)
    (σ : Config (Option Nat) Val World) (d : Draft) (st : State Val World) : Prop :=
  ∃ τ, Leads m D s σ τ ∧ Ready decls s d st τ

theorem Arrives.of_leads (h : Leads m D s σ τ) (h' : Arrives m decls D s τ d st) :
    Arrives m decls D s σ d st := by
  obtain ⟨υ, hυ, hready⟩ := h'
  exact ⟨υ, h.trans hυ, hready⟩

/-- The machine passes over the joins at the end of two paths, from whichever path it comes. -/
theorem arrives_joined (hD : D.Finished decls) (hs : s.Describes D.body) (hd : d.Sound decls)
    (hle : decls.length ≤ d.code.size) {other : Scope} (hother : ScopeSound decls d.ops other)
    (hnames : SameNames d.scope other) {span : Span} (hpre : (d.joined other span).ops <+: D.ops)
    (hready : Ready decls s d₁ st σ) (hscope : d₁.scope = d.scope ∨ d₁.scope = other) :
    Arrives m decls D s { σ with pc := d.code.size } (d.joined other span) st := by
  have hg := hd.grows_joined hother span
  have hops := d.ops_joined other span
  refine ⟨{ σ with pc := (d.joined other span).code.size }, ?_, ?_⟩
  · rw [← (d.joined other span).length_ops, hops]
    rw [hops] at hpre
    refine leads_joins (σ := { σ with pc := d.code.size }) (fun op hop => ?_) hpre
      d.length_ops.symm
    obtain ⟨j, -, rfl⟩ := List.mem_map.1 hop
    rfl
  · refine hready.move hg.sound (le_trans hle hg.size_le) fun x => ?_
    obtain ⟨hours, htheirs⟩ := map_var?_joined hD hs hd hother hnames hpre x
    rcases hscope with hscope | hscope
    · rw [hscope, hours]
    · rw [hscope, htheirs]

/-! ## Conditionals -/

namespace IteGrows

variable {d₃ : Draft} {c : Nat} {span : Span}

theorem declared (h : IteGrows decls d d₁ d₂ d₃ c span) (hle : decls.length ≤ d.code.size) :
    decls.length ≤ d₁.code.size ∧ decls.length ≤ d₂.code.size ∧ decls.length ≤ d₃.code.size := by
  have h₁ := le_trans hle h.cond.size_le
  have h₂ := le_trans h₁ (h.beginThen.trans h.thenBranch).size_le
  exact ⟨h₁, h₂, le_trans h₂ (h.beginElse.trans h.elseBranch).size_le⟩

/-- A condition that holds leads into the first branch. -/
theorem arrives_beginThen (h : IteGrows decls d d₁ d₂ d₃ c span)
    (hpre : (d₁.beginThen c span).ops <+: D.ops) (hready : Ready decls s d₁ st σ)
    (hc : m.truth (σ.cells (s.var? c)) = true) :
    Arrives m decls D s σ (d₁.beginThen c span) st := by
  have hp : D.ops[σ.pc]? = some (.branchNot c (.ifElse d₁.labels.next)) := by
    rw [hready.pc]
    exact getElem?_of_write (d := d₁.draw) hpre
  refine ⟨_, leads_branchNot_of_true hp hc ?_, hready.move h.beginThen.sound ?_ fun x => rfl⟩
  · rw [hready.pc]
    exact (Draft.size_write (d := d₁.draw)).symm
  · exact le_trans hready.declared h.beginThen.size_le

/-- A condition that fails leads into the second branch. -/
theorem arrives_beginElse (hD : D.Finished decls) (h : IteGrows decls d d₁ d₂ d₃ c span)
    (hpre : (d₂.beginElse d₁.labels.next d₁.scope span).ops <+: D.ops)
    (hready : Ready decls s d₁ st σ) (hc : m.truth (σ.cells (s.var? c)) = false) :
    Arrives m decls D s σ (d₂.beginElse d₁.labels.next d₁.scope span) st := by
  have hthen := (h.thenBranch.trans h.beginElse).ops.trans hpre
  have hp : D.ops[σ.pc]? = some (.branchNot c (.ifElse d₁.labels.next)) := by
    rw [hready.pc]
    exact getElem?_of_write (d := d₁.draw) hthen
  obtain ⟨-, hlabel⟩ := getElem?_of_write_write (d := d₂) hpre
  have hle := le_trans hready.declared ((h.beginThen.trans h.thenBranch).trans h.beginElse).size_le
  refine ⟨_, (leads_branchNot_of_false hD hp hc hlabel).trans
    (leads_pass hlabel (Or.inr ⟨_, rfl⟩) ?_), hready.move h.beginElse.sound hle fun x => rfl⟩
  show d₂.code.size + 1 + 1 = ((d₂.write _ span).write _ span).code.size
  rw [Draft.size_write, Draft.size_write]

/-- Both branches lead to the joins at the end. -/
theorem arrives_joined (hD : D.Finished decls) (hs : s.Describes D.body)
    (h : IteGrows decls d d₁ d₂ d₃ c span) (hle : decls.length ≤ d.code.size)
    (hpre : ((d₃.endIte d₁.labels.next d₂.scope span).joined d₃.scope span).ops <+: D.ops)
    {d₄ : Draft} (hready : Ready decls s d₄ st σ) (hd₄ : d₄ = d₂ ∨ d₄ = d₃) :
    Arrives m decls D s { σ with pc := d₃.code.size }
      ((d₃.endIte d₁.labels.next d₂.scope span).joined d₃.scope span) st := by
  have hlabel : D.ops[d₃.code.size]? = some (.label (.ifDone d₁.labels.next)) :=
    getElem?_of_write (d := { d₃ with scope := d₂.scope }) (h.joined.ops.trans hpre)
  refine .of_leads (leads_pass hlabel (Or.inr ⟨_, rfl⟩) rfl) ?_
  have hsize : d₃.code.size + 1 = (d₃.endIte d₁.labels.next d₂.scope span).code.size :=
    (Draft.size_write (d := { d₃ with scope := d₂.scope })).symm
  rw [hsize]
  refine Lowering.arrives_joined (σ := σ) hD hs h.endIte.sound
    (le_trans (h.declared hle).2.2 h.endIte.size_le) (h.elseBranch.sound.scope.mono h.endIte.ops)
    h.endIte.names.symm hpre hready ?_
  rcases hd₄ with rfl | rfl
  · exact Or.inl rfl
  · exact Or.inr rfl

/-- The first branch jumps over the second one. -/
theorem leads_endIte (hD : D.Finished decls) (h : IteGrows decls d d₁ d₂ d₃ c span)
    (hpre : (d₃.endIte d₁.labels.next d₂.scope span).ops <+: D.ops)
    (hpc : σ.pc = d₂.code.size) : Leads m D s σ { σ with pc := d₃.code.size } := by
  have hlabel : D.ops[d₃.code.size]? = some (.label (.ifDone d₁.labels.next)) :=
    getElem?_of_write (d := { d₃ with scope := d₂.scope }) hpre
  obtain ⟨hgoto, -⟩ := getElem?_of_write_write (d := d₂)
    ((h.elseBranch.trans h.endIte).ops.trans hpre)
  rw [← hpc] at hgoto
  exact leads_goto hD hgoto hlabel

end IteGrows

/-! ## Loops -/

namespace LoopGrows

variable {c : Nat} {span : Span}

/-- A loop starts with its condition. -/
theorem arrives_beginLoop (h : LoopGrows decls d d₁ d₂ c span)
    (hpre : (d.beginLoop span).ops <+: D.ops) (hready : Ready decls s d st σ) :
    Arrives m decls D s σ (d.beginLoop span) st := by
  have hlabel : D.ops[σ.pc]? = some (.label (.whileCond d.labels.next)) := by
    rw [hready.pc]
    exact getElem?_of_write (d := d.draw) hpre
  refine ⟨_, leads_pass hlabel (Or.inr ⟨_, rfl⟩) ?_, hready.move h.beginLoop.sound ?_ fun x => rfl⟩
  · rw [hready.pc]
    exact (Draft.size_write (d := d.draw)).symm
  · exact le_trans hready.declared h.beginLoop.size_le

/-- A condition that holds leads into the body. -/
theorem arrives_beginBody (h : LoopGrows decls d d₁ d₂ c span)
    (hpre : (d₁.beginBody d.labels.next c span).ops <+: D.ops) (hready : Ready decls s d₁ st σ)
    (hc : m.truth (σ.cells (s.var? c)) = true) :
    Arrives m decls D s σ (d₁.beginBody d.labels.next c span) st := by
  have hp : D.ops[σ.pc]? = some (.branchNot c (.whileEnd d.labels.next)) := by
    rw [hready.pc]
    exact getElem?_of_write hpre
  refine ⟨_, leads_branchNot_of_true hp hc ?_, hready.move h.beginBody.sound ?_ fun x => rfl⟩
  · rw [hready.pc]
    exact Draft.size_write.symm
  · exact le_trans hready.declared h.beginBody.size_le

/-- A condition that fails leads to the joins behind the loop. -/
theorem arrives_joined (hD : D.Finished decls) (hs : s.Describes D.body)
    (h : LoopGrows decls d d₁ d₂ c span)
    (hpre : ((d₂.endLoop d.labels.next d₁.scope span).joined d₂.scope span).ops <+: D.ops)
    (hready : Ready decls s d₁ st σ) (hc : m.truth (σ.cells (s.var? c)) = false) :
    Arrives m decls D s σ ((d₂.endLoop d.labels.next d₁.scope span).joined d₂.scope span) st := by
  have hend := h.joined.ops.trans hpre
  have hp : D.ops[σ.pc]? = some (.branchNot c (.whileEnd d.labels.next)) := by
    rw [hready.pc]
    exact getElem?_of_write ((h.body.trans h.endLoop).ops.trans hend)
  obtain ⟨-, hlabel⟩ := getElem?_of_write_write (d := { d₂ with scope := d₁.scope }) hend
  refine .of_leads (leads_branchNot_of_false hD hp hc hlabel) ?_
  refine .of_leads (leads_pass hlabel (Or.inr ⟨_, rfl⟩) rfl) ?_
  have hsize : d₂.code.size + 1 + 1 = (d₂.endLoop d.labels.next d₁.scope span).code.size := by
    rw [Draft.endLoop, Draft.size_write, Draft.size_write]
  have hle := le_trans hready.declared ((h.beginBody.trans h.body).trans h.endLoop).size_le
  show Arrives m decls D s { σ with pc := d₂.code.size + 1 + 1 } _ st
  rw [hsize]
  exact Lowering.arrives_joined (σ := σ) hD hs h.endLoop.sound hle
    (h.body.sound.scope.mono h.endLoop.ops) h.endLoop.names.symm hpre hready (Or.inl rfl)

/-- **Going back.**  If the condition assigns to no name, the cells of the names in front of the
loop are those behind its body. -/
theorem arrives_again (hD : D.Finished decls) (hs : s.Describes D.body) (hd : d.Sound decls)
    (h : LoopGrows decls d d₁ d₂ c span) (hle : decls.length ≤ d.code.size)
    (hpre : ((d₂.endLoop d.labels.next d₁.scope span).joined d₂.scope span).ops <+: D.ops)
    (hcond : ∀ x, d₁.scope.lookup x = d.scope.lookup x) (hready : Ready decls s d₂ st σ) :
    Arrives m decls D s σ d st := by
  have hend := h.joined.ops.trans hpre
  have hlabel : D.ops[d.code.size]? = some (.label (.whileCond d.labels.next)) :=
    getElem?_of_write (d := d.draw)
      ((((h.cond.trans h.beginBody).trans h.body).trans h.endLoop).ops.trans hend)
  obtain ⟨hgoto, -⟩ := getElem?_of_write_write (d := { d₂ with scope := d₁.scope }) hend
  have hpc : σ.pc = { d₂ with scope := d₁.scope : Draft }.code.size := hready.pc
  rw [← hpc] at hgoto
  refine ⟨_, leads_goto hD hgoto hlabel, hready.move hd hle fun x => ?_⟩
  obtain ⟨hours, htheirs⟩ := map_var?_joined hD hs h.endLoop.sound
    (h.body.sound.scope.mono h.endLoop.ops) h.endLoop.names.symm hpre x
  rw [← hcond x, ← htheirs, hours]
  rfl

end LoopGrows

/-! ## Statements -/

/-- An assignment to a declared name. -/
theorem arrives_assignVar (hD : D.Finished decls) (hs : s.Describes D.body) {v : Nat} {x : Name}
    {span : Span} (hready : Ready decls s d st σ) (hv : v < d.code.size)
    (hx : (d.scope.lookup x).isSome)
    (hpre : (d.write (.assignVar v x) span).ops <+: D.ops) :
    Arrives m decls D s σ (d.assign v x span)
      ((m.primitive (.assignVar 0 x) [σ.cells (s.var? v)] st).2.bind x
        (m.primitive (.assignVar 0 x) [σ.cells (s.var? v)] st).1) := by
  have hp : D.ops[σ.pc]? = some (.assignVar v x) := by
    rw [hready.pc]
    exact getElem?_of_write hpre
  have hname : nameOf decls D.ops σ.pc = some x := nameOf_eq_nextName decls hp
  have hscope := hready.sound.scope.mono ((d.prefix_write _ span).trans hpre)
  obtain ⟨τ, hleads, hpc, hrep⟩ :=
    exists_leads_bind (m := m) hD hs hp ⟨rfl, rfl, rfl, rfl⟩ rfl hname
    hscope hready.represents
  have hg := hready.sound.grows_assign hv hx span
  rw [hready.pc] at hrep
  refine ⟨τ, hleads, hg.sound, le_trans hready.declared hg.size_le, ?_, hrep⟩
  rw [hpc, hready.pc]
  exact Draft.size_write.symm

/-- An assignment as a statement of its own. -/
theorem arrives_assign (hD : D.Finished decls) (hs : s.Describes D.body) {target : Source.Target}
    {value : Source.Expr} {span : Span} {id : Nat} (hvalue : value.targets = [])
    (htarget : target.targets = [])
    (h : lowerExpr true (.assign target value span) d = .ok (id, d'))
    (hpre : d'.ops <+: D.ops) (hready : Ready decls s d st σ) :
    Arrives m decls D s σ d' (m.evalExpr (.assign target value span) st).2 := by
  obtain ⟨v, d₁, h₁, h⟩ := bind_eq_ok h
  obtain ⟨hg₁, hv⟩ := grows_lowerExpr value h₁ hready.sound
  have hops := prefix_lowerTarget target h
  obtain ⟨τ, hτ⟩ :=
    exists_computes_lowerExpr (m := m) hD hs value hvalue h₁ (hops.trans hpre) hready
  have hval : τ.cells (s.var? v) = (m.evalExpr value st).1 := List.singleton_inj.1 hτ.values
  rw [Meaning.evalExpr]
  -- the value is computed first, and its cell is old by the time the target has been computed
  match target with
  | .var name _ =>
    obtain ⟨scope, d₂, h₂, h⟩ := bind_eq_ok h
    cases h₂
    have henv := hτ.ready.represents.env name
    rw [Meaning.evalTarget]
    cases hx : d₁.scope.lookup name with
    | some i =>
      simp only [hx] at h
      obtain ⟨j, d₂, h₂, h⟩ := bind_eq_ok h
      obtain ⟨rfl, rfl⟩ := emit_eq_ok.1 h₂
      cases h
      rw [hx] at henv
      simp only [henv, Option.map_some]
      rw [← hval]
      refine .of_leads hτ.leads (arrives_assignVar hD hs hτ.ready hv ?_ hpre)
      rw [hx]
      rfl
    | none =>
      simp only [hx] at h
      obtain ⟨o, d₂, h₂, h⟩ := bind_eq_ok h
      rw [hx] at henv
      simp only [henv, Option.map_none]
      obtain ⟨hg₂, ho⟩ := grows_emitThis h₂ hg₁.sound
      have hv' := lt_of_lt_of_le hv hg₂.size_le
      have hg₃ := (hg₂.sound.grows_emit h (by simp [Op.operands, ho, hv']) rfl rfl rfl).1
      obtain ⟨υ, hυ⟩ := exists_computes_emitThis (m := m) hD hs h₂ (hg₃.ops.trans hpre) hτ.ready
      have hold := hυ.append_old hv
      rw [hval] at hold
      obtain ⟨ρ, hρ⟩ := hold.exists_emit hD hs h hpre rfl ⟨rfl, rfl, rfl, rfl⟩ rfl
        (fun _ _ => nofun)
      exact ⟨ρ, hτ.leads.trans hρ.leads, hρ.ready⟩
  | .member object field _ =>
    obtain ⟨o, d₂, h₂, h⟩ := bind_eq_ok h
    obtain ⟨hg₂, ho⟩ := grows_lowerExpr object h₂ hg₁.sound
    have hv' := lt_of_lt_of_le hv hg₂.size_le
    have hg₃ := (hg₂.sound.grows_emit h (by simp [Op.operands, ho, hv']) rfl rfl rfl).1
    obtain ⟨υ, hυ⟩ :=
      exists_computes_lowerExpr (m := m) hD hs object htarget h₂ (hg₃.ops.trans hpre) hτ.ready
    have hold := hυ.append_old hv
    rw [hval] at hold
    obtain ⟨ρ, hρ⟩ := hold.exists_emit hD hs h hpre rfl ⟨rfl, rfl, rfl, rfl⟩ rfl
      (fun _ _ => nofun)
    exact ⟨ρ, hτ.leads.trans hρ.leads, hρ.ready⟩
  | .index array index _ =>
    obtain ⟨a, d₂, h₂, h⟩ := bind_eq_ok h
    obtain ⟨i, d₃, h₃, h⟩ := bind_eq_ok h
    obtain ⟨harray, hindex⟩ := List.append_eq_nil_iff.1 htarget
    obtain ⟨hg₂, ha⟩ := grows_lowerExpr array h₂ hg₁.sound
    obtain ⟨hg₃, hi⟩ := grows_lowerExpr index h₃ hg₂.sound
    have ha' := lt_of_lt_of_le ha hg₃.size_le
    have hv' := lt_of_lt_of_le hv (hg₂.trans hg₃).size_le
    have hg₄ := (hg₃.sound.grows_emit h (by simp [Op.operands, ha', hv', hi]) rfl rfl rfl).1
    have hpre₃ := hg₄.ops.trans hpre
    obtain ⟨υ, hυ⟩ := exists_computes_lowerExpr (m := m) hD hs array harray h₂ (hg₃.ops.trans hpre₃)
      hτ.ready
    obtain ⟨ρ, hρ⟩ := exists_computes_lowerExpr (m := m) hD hs index hindex h₃ hpre₃ hυ.ready
    have hold := (hυ.append_old hv).trans hρ
    rw [hval] at hold
    obtain ⟨ω, hω⟩ := hold.exists_emit hD hs h hpre rfl ⟨rfl, rfl, rfl, rfl⟩ rfl
      (fun _ _ => nofun)
    exact ⟨ω, hτ.leads.trans hω.leads, hω.ready⟩

/-- Printing a value. -/
theorem arrives_print (hD : D.Finished decls) (hs : s.Describes D.body) {value : Source.Expr}
    {span : Span} (hvalue : value.targets = [])
    (h : lowerStmt true (.print value span) d = .ok ((), d')) (hpre : d'.ops <+: D.ops)
    (hready : Ready decls s d st σ) :
    Arrives m decls D s σ d'
      (m.primitive (.print 0) [(m.evalExpr value st).1] (m.evalExpr value st).2).2 := by
  obtain ⟨v, d₁, h₁, h⟩ := bind_eq_ok h
  obtain ⟨i, d₂, h₂, h⟩ := bind_eq_ok h
  cases h
  obtain ⟨hg₁, hv⟩ := grows_lowerExpr value h₁ hready.sound
  have hg₂ := (hg₁.sound.grows_emit h₂ (by simp [Op.operands, hv]) rfl rfl rfl).1
  obtain ⟨τ, hτ⟩ := exists_computes_lowerExpr (m := m) hD hs value hvalue h₁
    (hg₂.ops.trans hpre) hready
  have hval : τ.cells (s.var? v) = (m.evalExpr value st).1 := List.singleton_inj.1 hτ.values
  obtain ⟨rfl, rfl⟩ := emit_eq_ok.1 h₂
  have hp : D.ops[τ.pc]? = some (.print v) := by
    rw [hτ.ready.pc]
    exact getElem?_of_write hpre
  refine ⟨_, hτ.leads.trans (leads_execute hp), hg₂.sound,
    le_trans hτ.ready.declared hg₂.size_le, ?_, hτ.ready.represents.env, ?_⟩
  · rw [Draft.size_write, ← hτ.ready.pc]
    rfl
  · rw [Meaning.primitive, ← hval, ← hτ.ready.represents.world]
    rfl

/-- **Code follows statements.**  If assignments are whole statements, a statement that leads from
one state to another is followed by its code. -/
theorem arrives_of_exec (hD : D.Finished decls) (hs : s.Describes D.body) {stmt : Source.Stmt}
    {st st' : State Val World} (hexec : m.Exec stmt st st') (htop : stmt.assignsOnTop = true)
    (h : lowerStmt true stmt d = .ok ((), d')) (hpre : d'.ops <+: D.ops)
    (hready : Ready decls s d st σ) : Arrives m decls D s σ d' st' := by
  -- induction on the run, so that a loop that goes back runs the same code again
  induction hexec generalizing d d' σ with
  | done span st =>
    cases h
    exact ⟨σ, .refl σ, hready⟩
  | @seq stmt ss span st st₁ st₂ _ _ ih ih' =>
    obtain ⟨htop₁, htop₂⟩ := Bool.and_eq_true_iff.1 htop
    obtain ⟨⟨⟩, d₁, h₁, h⟩ := bind_eq_ok h
    have hg := grows_lowerStmts ss h (grows_lowerStmt stmt h₁ hready.sound).sound
    obtain ⟨τ, hleads, hready₁⟩ := ih htop₁ h₁ (hg.ops.trans hpre) hready
    exact .of_leads hleads (ih' htop₂ h hpre hready₁)
  | @thenBranch cond stmt stmt' span st st' hcond _ ih =>
    obtain ⟨htop₁, htop₂⟩ := Bool.and_eq_true_iff.1 (Bool.and_eq_true_iff.1 htop).1
    obtain ⟨c, d₁, d₂, d₃, h₁, h₂, h₃, rfl⟩ := exists_of_lowerStmt_ite h
    have hg := IteGrows.of_branches (grows_lowerExpr cond h₁ hready.sound) span
      (grows_lowerStmt stmt h₂) (grows_lowerStmt stmt' h₃)
    have hend := hg.joined.ops.trans hpre
    have hthen := ((hg.beginElse.trans hg.elseBranch).trans hg.endIte).ops.trans hend
    obtain ⟨τ, hτ⟩ := exists_computes_lowerExpr (m := m) hD hs cond (List.isEmpty_iff.1 htop₁) h₁
      ((hg.beginThen.trans hg.thenBranch).ops.trans hthen) hready
    rw [← List.singleton_inj.1 hτ.values] at hcond
    obtain ⟨υ, hυ, hready₂⟩ := hg.arrives_beginThen (hg.thenBranch.ops.trans hthen) hτ.ready hcond
    obtain ⟨ρ, hρ, hready₃⟩ := ih htop₂ h₂ hthen hready₂
    -- the jump behind the first branch skips the second one and its label
    exact .of_leads ((hτ.leads.trans hυ).trans (hρ.trans (hg.leads_endIte hD hend hready₃.pc)))
      (hg.arrives_joined hD hs hready.declared hpre hready₃ (Or.inl rfl))
  | @elseBranch cond stmt stmt' span st st' hcond _ ih =>
    obtain ⟨htop₁, htop₂⟩ := Bool.and_eq_true_iff.1 htop
    obtain ⟨c, d₁, d₂, d₃, h₁, h₂, h₃, rfl⟩ := exists_of_lowerStmt_ite h
    have hg := IteGrows.of_branches (grows_lowerExpr cond h₁ hready.sound) span
      (grows_lowerStmt stmt h₂) (grows_lowerStmt stmt' h₃)
    have helse := (hg.endIte.trans hg.joined).ops.trans hpre
    have hbegin := hg.elseBranch.ops.trans helse
    obtain ⟨τ, hτ⟩ := exists_computes_lowerExpr (m := m) hD hs cond
      (List.isEmpty_iff.1 (Bool.and_eq_true_iff.1 htop₁).1) h₁
      (((hg.beginThen.trans hg.thenBranch).trans hg.beginElse).ops.trans hbegin) hready
    rw [← List.singleton_inj.1 hτ.values] at hcond
    obtain ⟨υ, hυ, hready₂⟩ := hg.arrives_beginElse hD hbegin hτ.ready hcond
    obtain ⟨ρ, hρ, hready₃⟩ := ih htop₂ h₃ helse hready₂
    -- behind the second branch control falls into the joins
    have hjoined := hg.arrives_joined (m := m) hD hs hready.declared hpre hready₃ (Or.inr rfl)
    rw [← hready₃.pc] at hjoined
    exact .of_leads ((hτ.leads.trans hυ).trans hρ) hjoined
  | @leave cond stmt span st hcond =>
    obtain ⟨htop₁, htop₂⟩ := Bool.and_eq_true_iff.1 htop
    obtain ⟨c, d₁, d₂, h₁, h₂, rfl⟩ := exists_of_lowerStmt_loop h
    have hg := LoopGrows.of_parts hready.sound span (grows_lowerExpr cond h₁)
      (grows_lowerStmt stmt h₂)
    have hbody := (((hg.beginBody.trans hg.body).trans hg.endLoop).trans hg.joined).ops.trans hpre
    obtain ⟨τ, hτ, hready₁⟩ := hg.arrives_beginLoop (m := m) (hg.cond.ops.trans hbody) hready
    obtain ⟨υ, hυ⟩ := exists_computes_lowerExpr (m := m) hD hs cond (List.isEmpty_iff.1 htop₁) h₁
      hbody hready₁
    rw [← List.singleton_inj.1 hυ.values] at hcond
    exact .of_leads (hτ.trans hυ.leads) (hg.arrives_joined hD hs hpre hυ.ready hcond)
  | @again cond stmt span st st₁ st₂ hcond _ _ ih ih' =>
    obtain ⟨htop₁, htop₂⟩ := Bool.and_eq_true_iff.1 htop
    obtain ⟨c, d₁, d₂, h₁, h₂, rfl⟩ := exists_of_lowerStmt_loop h
    have hg := LoopGrows.of_parts hready.sound span (grows_lowerExpr cond h₁)
      (grows_lowerStmt stmt h₂)
    have hend := (hg.endLoop.trans hg.joined).ops.trans hpre
    have hbody := (hg.beginBody.trans hg.body).ops.trans hend
    obtain ⟨τ, hτ, hready₁⟩ := hg.arrives_beginLoop (m := m) (hg.cond.ops.trans hbody) hready
    obtain ⟨υ, hυ⟩ := exists_computes_lowerExpr (m := m) hD hs cond (List.isEmpty_iff.1 htop₁) h₁
      hbody hready₁
    rw [← List.singleton_inj.1 hυ.values] at hcond
    obtain ⟨ρ, hρ, hready₂⟩ := hg.arrives_beginBody (hg.body.ops.trans hend) hυ.ready hcond
    obtain ⟨ω, hω, hready₃⟩ := ih htop₂ h₂ hend hready₂
    -- the condition assigns to nothing, so the names in front of the loop have kept their cells
    have hkeep : ∀ x, d₁.scope.lookup x = (d.beginLoop span).scope.lookup x := by
      refine fun x => lookup_lowerExpr cond h₁ fun _ hmem => ?_
      rw [List.isEmpty_iff.1 htop₁] at hmem
      cases hmem
    obtain ⟨π, hπ, hready₄⟩ := hg.arrives_again hD hs hready.sound hready.declared hpre hkeep
      hready₃
    exact .of_leads ((hτ.trans hυ.leads).trans (hρ.trans (hω.trans hπ))) (ih' htop h hpre hready₄)
  | print value span st => exact arrives_print hD hs (List.isEmpty_iff.1 htop) h hpre hready
  | expr value span st =>
    obtain ⟨v, d₁, h₁, h⟩ := bind_eq_ok h
    cases h
    cases value with
    | assign target value span =>
      obtain ⟨hvalue, htarget⟩ := Bool.and_eq_true_iff.1 htop
      exact arrives_assign hD hs (List.isEmpty_iff.1 hvalue) (List.isEmpty_iff.1 htarget) h₁ hpre
        hready
    | _ =>
      obtain ⟨τ, hτ⟩ := exists_computes_lowerExpr (m := m) hD hs _ (List.isEmpty_iff.1 htop) h₁
        hpre hready
      exact ⟨τ, hτ.leads, hτ.ready⟩

/-! ## Methods -/

/-- Declarations are followed by their code. -/
theorem exists_leads_declare (hD : D.Finished decls) (hs : s.Describes D.body)
    {es : List (Op × Source.Decl)} (hes : ∀ e ∈ es, Initial e.1) (hd : d.Sound decls)
    (hnames : decls.drop d.code.size = es.map (·.2.name))
    (hpre : (es.foldl Draft.declare d).ops <+: D.ops) (hpc : σ.pc = d.code.size)
    (hrep : Represents s d.scope st σ) :
    ∃ τ, Leads m D s σ τ ∧ τ.pc = (es.foldl Draft.declare d).code.size ∧
      Represents s (es.foldl Draft.declare d).scope (es.foldl m.declare st) τ := by
  induction es generalizing d σ st with
  | nil => exact ⟨σ, .refl σ, hpc, hrep⟩
  | cons e es ih =>
    have hname : decls[d.code.size]? = some e.2.name := by
      have hhead := congrArg List.head? hnames
      rwa [List.head?_drop] at hhead
    have he := hes e List.mem_cons_self
    have hes' : ∀ e' ∈ es, Initial e'.1 := fun e' he' => hes e' (List.mem_cons_of_mem e he')
    have hp : D.ops[σ.pc]? = some e.1 := by
      rw [hpc]
      refine getElem?_of_isPrefix hpre ?_
      rw [Draft.ops_foldl_declare, ← d.length_ops, List.getElem?_append_right (le_refl _),
        Nat.sub_self]
      rfl
    have hd' := hd.declare he hname
    have hle : d.ops <+: D.ops := by
      rw [Draft.ops_foldl_declare] at hpre
      exact (List.prefix_append _ _).trans hpre
    have hbound : nameOf decls D.ops σ.pc = some e.2.name := by
      rw [he.nameOf_eq decls hp, hpc, hname]
    obtain ⟨τ, hτ, hpc', hrep'⟩ := exists_leads_bind (m := m) hD hs hp he.primitive he.definesValue
      hbound (hd.scope.mono hle) hrep
    rw [he.shape_eq, Config.reads, he.operands_eq, hpc] at hrep'
    have hnames' : decls.drop (d.declare e).code.size = es.map (·.2.name) := by
      rw [d.size_declare, ← List.tail_drop, hnames]
      rfl
    have hpc'' : τ.pc = (d.declare e).code.size := by rw [hpc', hpc, d.size_declare]
    obtain ⟨υ, hυ, h⟩ := ih hes' hd' hnames' hpre hpc'' hrep'
    exact ⟨υ, hτ.trans hυ, h⟩

/-- **Lowering preserves meaning.**  If assignments occur in a method only as whole statements, and
the method returns a value, then the lowered method, run with one cell for each storage class from
its first instruction on, reaches its return with this value and in the same world. -/
theorem reaches_ret_of_returns {decl : Source.MethodDecl} (htop : decl.assignsOnTop = true)
    {w w' : World} {v : Val} (hrun : m.Returns decl w v w') :
    ∃ t s, decl.lower = .ok t ∧ Storage.ofBody t.value.body = .ok s ∧
      ∀ σ : Config (Option Nat) Val World, σ.pc = 0 → σ.world = w →
        ∃ es τ r i, Path (m.step t.value.body s.var?) es σ τ ∧
          t.value.body.toList[τ.pc]? = some (τ.pc, i) ∧ i.op = .ret r ∧
          τ.pc + 1 = t.value.body.size ∧ τ.cells (s.var? r) = v ∧ τ.world = w' := by
  obtain ⟨htop₁, htop₂⟩ := Bool.and_eq_true_iff.1 htop
  obtain ⟨st, hexec, rfl, rfl⟩ := hrun
  obtain ⟨d₁, d₂, r, h₁, h₂, hm⟩ := exists_lowerMethod decl
  have hD := finished_of_lowerMethod h₁ h₂
  obtain ⟨hg₁, hg₂, hg₃⟩ := grows_of_lowerMethod h₁ h₂
  obtain ⟨s, hs, hdescribes⟩ := hD.closed.exists_storage
  refine ⟨_, s, lower_eq hm, hs, fun σ hpc hworld => ?_⟩
  have hpre := (hg₂.trans hg₃).ops
  have hstart : Represents s [] ⟨fun _ => none, w⟩ σ := ⟨fun _ => rfl, hworld⟩
  obtain ⟨τ, hτ, hpc₁, hrep⟩ := exists_leads_declare (m := m) (d := {}) hD hdescribes
    (fun e he => initial_of_mem_header he) (sound_empty _) rfl (hg₁.ops.trans hpre) hpc hstart
  have hready : Ready decl.declared s (declaredDraft decl) (m.start decl w) τ :=
    ⟨sound_declaredDraft decl, le_of_eq (size_declaredDraft decl).symm, hpc₁, hrep⟩
  obtain ⟨υ, hυ, hready₁⟩ := arrives_of_exec hD hdescribes hexec htop₁ h₁ hpre hready
  obtain ⟨ρ, hρ⟩ := exists_computes_lowerExpr (m := m) hD hdescribes decl.result
    (List.isEmpty_iff.1 htop₂) h₂ hg₃.ops hready₁
  have hp : (d₂.write (.ret r) decl.result.span).ops[ρ.pc]? = some (.ret r) := by
    rw [hρ.ready.pc]
    exact getElem?_of_write List.prefix_rfl
  obtain ⟨i, hi, hop⟩ := Draft.getElem?_toList_body hp
  obtain ⟨es, hes⟩ := (hτ.trans hυ).trans hρ.leads
  refine ⟨es, ρ, r, i, hes, hi, hop, ?_, List.singleton_inj.1 hρ.values, hρ.ready.represents.world⟩
  rw [hρ.ready.pc, Draft.wellFormed_body _ |>.size_eq]
  exact Draft.size_write.symm

/-- A meaning of arithmetic, where the first parameter is `8`. -/
def arithmetic : Meaning Int Unit where
  perform op vs w :=
    match op, vs with
    | .parameter _, _ => (8, w)
    | .int n, _ => (n, w)
    | .binary .plus _ _, [a, b] => (a + b, w)
    | .binary .lt _ _, [a, b] => (if a < b then 1 else 0, w)
    | .assignVar _ _, [a] => (a, w)
    | _, _ => (0, w)
  truth v := v != 0

/-- The loop `while (x < 10) x = x + 1` counts to `10`. -/
theorem reaches_ret_increment :
    (loopMethod (.binary .lt (.var "x" {}) (.int 10 {}) {})
      (.expr increment {})).assignsOnTop = true ∧
    arithmetic.Returns (loopMethod (.binary .lt (.var "x" {}) (.int 10 {}) {}) (.expr increment {}))
      () 10 () ∧
    ∃ t s, (loopMethod (.binary .lt (.var "x" {}) (.int 10 {}) {}) (.expr increment {})).lower =
        .ok t ∧ Storage.ofBody t.value.body = .ok s ∧
      ∀ σ : Config (Option Nat) Int Unit, σ.pc = 0 → σ.world = () →
        ∃ es τ r i, Path (arithmetic.step t.value.body s.var?) es σ τ ∧
          t.value.body.toList[τ.pc]? = some (τ.pc, i) ∧ i.op = .ret r ∧
          τ.pc + 1 = t.value.body.size ∧ τ.cells (s.var? r) = 10 ∧ τ.world = () := by
  have hrun : arithmetic.Returns
      (loopMethod (.binary .lt (.var "x" {}) (.int 10 {}) {}) (.expr increment {})) () 10 () :=
    ⟨_, .seq (.again rfl (.expr _ _ _) (.again rfl (.expr _ _ _) (.leave rfl))) (.done _ _),
      rfl, rfl⟩
  exact ⟨rfl, hrun, reaches_ret_of_returns rfl hrun⟩

end Backend.Lowering
