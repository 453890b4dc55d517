/-
# Running lowered expressions

When a lowered method runs with one cell for each storage class, the cell of what a name is bound to
holds the value of the name (`Represents`).  The code of an expression without assignments computes
its value in a cell of its own and leaves all older cells alone (`Computes`), since what is written
in between binds no name and is alone in its class.
-/
import Mathlib
import Backend.Proofs.Loops

namespace Backend.Lowering

open Source (State)

variable {Val World : Type} {m : Meaning Val World} {decls : List Name} {D d d' d₁ : Draft}
  {s : Storage} {σ τ υ : Config (Option Nat) Val World} {st : State Val World}

/-! ## Steps -/

/-- The machine gets from one state to another. -/
def Leads (m : Meaning Val World) (D : Draft) (s : Storage) (σ τ : Config (Option Nat) Val World) :
    Prop := ∃ es, Path (m.step D.body s.var?) es σ τ

theorem Leads.refl (σ : Config (Option Nat) Val World) : Leads m D s σ σ := ⟨[], .nil σ⟩

/-- Runs may follow one another. -/
theorem Leads.trans (h : Leads m D s σ τ) (h' : Leads m D s τ υ) : Leads m D s σ υ := by
  obtain ⟨es, hes⟩ := h
  obtain ⟨fs, hfs⟩ := h'
  exact ⟨es ++ fs, hes.append hfs⟩

/-- The instruction at the position of the machine is executed. -/
theorem leads_execute {op : Op} (h : D.ops[σ.pc]? = some op) :
    Leads m D s σ (m.execute D.body s.var? σ σ.pc op).2 := by
  obtain ⟨i, hi, rfl⟩ := D.getElem?_toList_body h
  exact ⟨_, .single (Meaning.step_eq hi)⟩

/-! ## Representation -/

/-- The names in scope have the values that are in the cells of what they are bound to. -/
structure Represents (s : Storage) (scope : Scope) (st : State Val World)
    (σ : Config (Option Nat) Val World) : Prop where
  env : ∀ x, st.env x = (scope.lookup x).map fun i => σ.cells (s.var? i)
  world : σ.world = st.world

/-- In a finished draft, instructions with the same cell bind the same name. -/
theorem nameOf_eq_of_var?_eq (hD : D.Finished decls) (hs : s.Describes D.body) {i p : Nat}
    (hi : i < D.code.size) (hp : p < D.code.size) (h : s.var? i = s.var? p) :
    nameOf decls D.ops i = nameOf decls D.ops p :=
  hD.nameOf_eq_of_linked ((hs.var?_eq_iff hi hp).1 h)

theorem lt_size_of_getElem? {p : Nat} {op : Op} (h : D.ops[p]? = some op) : p < D.code.size := by
  rw [← D.length_ops]
  exact (List.getElem?_eq_some_iff.1 h).1

/-- Behind the declarations, only assignments and joins bind names. -/
theorem nameOf_eq_none {p : Nat} {op : Op} (hp : D.ops[p]? = some op) (hle : decls.length ≤ p)
    (hunify : op.isUnify = false) (hassign : ∀ v x, op ≠ .assignVar v x) :
    nameOf decls D.ops p = none := by
  have hnone : decls[(boundNames decls (D.ops.take p)).length]? = none := by
    rw [length_boundNames, List.length_take_of_le (le_of_lt (List.getElem?_eq_some_iff.1 hp).1)]
    exact List.getElem?_eq_none hle
  rw [nameOf_eq_nextName decls hp]
  cases op with
  | assignVar v x => exact absurd rfl (hassign v x)
  | unify l r => cases hunify
  | _ => exact hnone

/-- **Binding a name.**  An instruction that binds a name leaves the values of the other names
alone. -/
theorem exists_leads_bind (hD : D.Finished decls) (hs : s.Describes D.body) {op : Op} {x : Name}
    {scope : Scope} (hp : D.ops[σ.pc]? = some op) (hprim : Meaning.Primitive op)
    (hdef : op.definesValue = true) (hname : nameOf decls D.ops σ.pc = some x)
    (hscope : ScopeSound decls D.ops scope) (h : Represents s scope st σ) :
    ∃ τ, Leads m D s σ τ ∧ τ.pc = σ.pc + 1 ∧
      Represents s (scope.define x σ.pc)
        ((m.primitive op.shape (σ.reads s.var? op) st).2.bind x
          (m.primitive op.shape (σ.reads s.var? op) st).1) τ := by
  refine ⟨_, leads_execute hp, ?_, ?_, ?_⟩
  · rw [m.execute_of_primitive hprim]
  · intro y
    rw [m.execute_of_primitive hprim, Scope.lookup_define]
    simp only [Meaning.primitive, State.bind, h.world]
    by_cases hy : y = x
    · rw [hy, Function.update_self, if_pos rfl, Option.map_some, Meaning.write_self hdef]
    · rw [Function.update_of_ne hy, if_neg hy, h.env y]
      refine Option.map_congr fun i hi => ?_
      have hbound := hscope.names y i hi
      have hne : s.var? i ≠ s.var? σ.pc := by
        intro heq
        have hlt := lt_length_of_nameOf hbound
        rw [D.length_ops] at hlt
        have hsame := nameOf_eq_of_var?_eq hD hs hlt (lt_size_of_getElem? hp) heq
        rw [hbound, hname] at hsame
        exact hy (Option.some.inj hsame)
      rw [Meaning.write, if_pos hdef, Function.update_of_ne hne]
  · rw [m.execute_of_primitive hprim]
    simp only [Meaning.primitive, State.bind, h.world]

/-- The machine stands at the end of a draft and represents a state. -/
structure Ready (decls : List Name) (s : Storage) (d : Draft) (st : State Val World)
    (σ : Config (Option Nat) Val World) : Prop where
  sound : d.Sound decls
  declared : decls.length ≤ d.code.size
  pc : σ.pc = d.code.size
  represents : Represents s d.scope st σ

/-- The code between two drafts computes values in the cells of the instructions `ids`, and leaves
the cells of older instructions alone. -/
structure Computes (m : Meaning Val World) (decls : List Name) (D : Draft) (s : Storage)
    (d d' : Draft) (σ τ : Config (Option Nat) Val World) (ids : List Nat) (vs : List Val)
    (st : State Val World) : Prop where
  leads : Leads m D s σ τ
  ready : Ready decls s d' st τ
  le : d.code.size ≤ d'.code.size
  lt : ∀ i ∈ ids, i < d'.code.size
  values : ids.map (fun i => τ.cells (s.var? i)) = vs
  frame : ∀ i < d.code.size, τ.cells (s.var? i) = σ.cells (s.var? i)

namespace Computes

variable {ids ids' : List Nat} {vs vs' : List Val} {st' : State Val World}

/-- Nothing has to be done for a value that is there. -/
theorem refl (ids : List Nat) (h : Ready decls s d st σ) (hids : ∀ i ∈ ids, i < d.code.size) :
    Computes m decls D s d d σ σ ids (ids.map fun i => σ.cells (s.var? i)) st :=
  ⟨.refl σ, h, le_refl _, hids, rfl, fun _ _ => rfl⟩

theorem forget (h : Computes m decls D s d d' σ τ ids vs st) :
    Computes m decls D s d d' σ τ [] [] st :=
  ⟨h.leads, h.ready, h.le, List.forall_mem_nil _, rfl, h.frame⟩

theorem length_eq (h : Computes m decls D s d d' σ τ ids vs st) : ids.length = vs.length := by
  rw [← h.values, List.length_map]

/-- Values are computed one after the other. -/
theorem trans (h : Computes m decls D s d d₁ σ τ ids vs st)
    (h' : Computes m decls D s d₁ d' τ υ ids' vs' st') :
    Computes m decls D s d d' σ υ (ids ++ ids') (vs ++ vs') st' := by
  refine ⟨h.leads.trans h'.leads, h'.ready, le_trans h.le h'.le, fun i hi => ?_, ?_, fun i hi => ?_⟩
  · rcases List.mem_append.1 hi with hi | hi
    · exact lt_of_lt_of_le (h.lt i hi) h'.le
    · exact h'.lt i hi
  · rw [List.map_append, h'.values, ← h.values]
    exact congrArg (· ++ vs') (List.map_congr_left fun i hi => h'.frame i (h.lt i hi))
  · rw [h'.frame i (lt_of_lt_of_le hi h.le), h.frame i hi]

/-- A value that was there before is still there. -/
theorem append_old (h : Computes m decls D s d d' σ τ ids vs st) {i : Nat} (hi : i < d.code.size) :
    Computes m decls D s d d' σ τ (ids ++ [i]) (vs ++ [σ.cells (s.var? i)]) st := by
  have hold := h.trans (.refl [i] h.ready fun j hj =>
    List.mem_singleton.1 hj ▸ lt_of_lt_of_le hi h.le)
  rwa [List.map_singleton, h.frame i hi] at hold

/-- **One more instruction.**  A primitive operation that binds no name computes its value in a cell
of its own. -/
theorem exists_emit (hD : D.Finished decls) (hs : s.Describes D.body)
    (h : Computes m decls D s d d₁ σ τ ids vs st) {op : Op} {span : Span} {id : Nat}
    (he : emit op span d₁ = .ok (id, d')) (hpre : d'.ops <+: D.ops) (hids : op.operands = ids)
    (hprim : Meaning.Primitive op) (hdef : op.definesValue = true)
    (hassign : ∀ v x, op ≠ .assignVar v x) :
    ∃ υ, Computes m decls D s d d' σ υ [id] [(m.primitive op.shape vs st).1]
      (m.primitive op.shape vs st).2 := by
  obtain ⟨hg, hlt⟩ :=
    h.ready.sound.grows_emit he (hids ▸ h.lt) hprim.1 hprim.2.2.1 hprim.2.2.2
  obtain ⟨rfl, rfl⟩ := emit_eq_ok.1 he
  have hp : D.ops[τ.pc]? = some op := by
    refine getElem?_of_isPrefix hpre ?_
    rw [Draft.ops_write, h.ready.pc, ← d₁.length_ops, List.getElem?_concat_length]
  -- the cell that is written is no other instruction's
  have hpc : d₁.code.size < D.code.size := h.ready.pc ▸ lt_size_of_getElem? hp
  have hnone : nameOf decls D.ops τ.pc = none :=
    nameOf_eq_none hp (h.ready.pc ▸ h.ready.declared) hprim.1 hassign
  have hfresh : ∀ i < d₁.code.size, s.var? i ≠ s.var? τ.pc := by
    intro i hi heq
    have hlinked := (hs.var?_eq_iff (lt_trans hi hpc) (lt_size_of_getElem? hp)).1 heq
    have := hD.eq_of_linked hnone (D.body.linked_equivalence.symm hlinked)
    rw [h.ready.pc] at this
    exact absurd this.symm (ne_of_lt hi)
  have hreads : τ.reads s.var? op = vs := by rw [Config.reads, hids, h.values]
  have hstep := m.execute_of_primitive hprim D.body s.var? τ τ.pc
  rw [hreads, h.ready.represents.world] at hstep
  have hcells : (m.execute D.body s.var? τ τ.pc op).2.cells =
      Meaning.write op (some (m.primitive op.shape vs st).1) (s.var? τ.pc) τ.cells :=
    congrArg Config.cells hstep
  have hkeep : ∀ i < d₁.code.size,
      (m.execute D.body s.var? τ τ.pc op).2.cells (s.var? i) = τ.cells (s.var? i) := by
    intro i hi
    rw [hcells, Meaning.write, if_pos hdef, Function.update_of_ne (hfresh i hi)]
  refine ⟨_, h.leads.trans (leads_execute hp), ⟨hg.sound, ?_, ?_, ?_, ?_⟩, ?_, ?_, ?_, ?_⟩
  · exact le_trans h.ready.declared hg.size_le
  · rw [hstep, Draft.size_write, h.ready.pc]
  · intro x
    rw [Draft.scope_write]
    refine (h.ready.represents.env x).trans (Option.map_congr fun i hi => (hkeep i ?_).symm)
    rw [← d₁.length_ops]
    exact lt_length_of_nameOf (h.ready.sound.scope.names x i hi)
  · rw [hstep]
    rfl
  · exact le_trans h.le hg.size_le
  · intro i hi
    rwa [List.mem_singleton.1 hi]
  · rw [List.map_singleton, ← h.ready.pc, hcells, Meaning.write_self hdef]
  · intro i hi
    rw [hkeep i (lt_of_lt_of_le hi h.le), h.frame i hi]

end Computes

/-! ## Expressions -/

/-- Every expression has one result. -/
theorem length_of_lowerExprs {receiver : Bool} {ids : List Nat} (es : List Source.Expr) :
    ∀ {d d' : Draft}, lowerExprs receiver es d = .ok (ids, d') → ids.length = es.length := by
  induction es generalizing ids with
  | nil =>
    intro d d' h
    cases h
    rfl
  | cons e es ih =>
    intro d d' h
    obtain ⟨id, d₁, h₁, h⟩ := bind_eq_ok h
    obtain ⟨ids', d₂, h₂, h⟩ := bind_eq_ok h
    cases h
    rw [List.length_cons, List.length_cons, ih h₂]

theorem shape_call (o : Nat) (method : Name) (ids : List Nat) :
    (Op.call o method ids).shape = .call 0 method (ids.map fun _ => 0) := by
  simp only [Op.shape, Op.mapOperands, Op.withOperands, Op.operands, List.map_cons, List.tail_cons,
    Op.overwrite_map]
  rfl

/-- Handing over argument values. -/
theorem exists_computes_emitArgs (hD : D.Finished decls) (hs : s.Describes D.body)
    {values : List (Nat × Span)} {start : Nat} {ids : List Nat}
    (h : emitArgs start values d = .ok (ids, d')) (hpre : d'.ops <+: D.ops)
    (hvalues : ∀ v ∈ values, v.1 < d.code.size) (hready : Ready decls s d st σ) {vs : List Val}
    (hvs : values.map (fun v => σ.cells (s.var? v.1)) = vs) :
    ∃ τ, Computes m decls D s d d' σ τ ids
      (m.evalArgs start vs st).1 (m.evalArgs start vs st).2 := by
  induction values generalizing start ids d σ st vs with
  | nil =>
    cases h
    subst hvs
    exact ⟨σ, .refl [] hready (List.forall_mem_nil _)⟩
  | cons v values ih =>
    obtain ⟨id, d₁, h₁, h⟩ := bind_eq_ok h
    obtain ⟨ids', d₂, h₂, h⟩ := bind_eq_ok h
    cases h
    subst hvs
    have hv : ∀ i ∈ [v.1], i < d.code.size := by simpa using hvalues v List.mem_cons_self
    have hd₁ := (hready.sound.grows_emit h₁ hv rfl rfl rfl).1
    have hrest : ∀ w ∈ values, w.1 < d₁.code.size := fun w hw =>
      lt_of_lt_of_le (hvalues w (List.mem_cons_of_mem v hw)) hd₁.size_le
    have hpre₁ := (grows_emitArgs h₂ hd₁.sound hrest).1.ops.trans hpre
    obtain ⟨τ, hτ⟩ := (Computes.refl (m := m) _ hready hv).exists_emit hD hs h₁ hpre₁ rfl
      ⟨rfl, rfl, rfl, rfl⟩ rfl (fun _ _ => nofun)
    have hvs : values.map (fun w => τ.cells (s.var? w.1)) =
        values.map (fun w => σ.cells (s.var? w.1)) :=
      List.map_congr_left fun w hw => hτ.frame w.1 (hvalues w (List.mem_cons_of_mem v hw))
    obtain ⟨υ, hυ⟩ := ih h₂ hrest hτ.ready hvs
    exact ⟨υ, hτ.trans hυ⟩

/-- A `this` on behalf of a name. -/
theorem exists_computes_emitThis (hD : D.Finished decls) (hs : s.Describes D.body) {name : Name}
    {span : Span} {id : Nat}
    (h : emitThis true name span d = .ok (id, d')) (hpre : d'.ops <+: D.ops)
    (hready : Ready decls s d st σ) :
    ∃ τ, Computes m decls D s d d' σ τ [id] [(m.primitive .this [] st).1]
      (m.primitive .this [] st).2 :=
  (Computes.refl [] hready (List.forall_mem_nil _)).exists_emit hD hs h hpre rfl
    ⟨rfl, rfl, rfl, rfl⟩ rfl (fun _ _ => nofun)

/-- A member of `this`. -/
theorem exists_computes_field (hD : D.Finished decls) (hs : s.Describes D.body) {name : Name}
    {span : Span} {o id : Nat}
    (h₁ : emitThis true name span d = .ok (o, d₁))
    (h : emit (.member o name) span d₁ = .ok (id, d')) (hpre : d'.ops <+: D.ops)
    (hready : Ready decls s d st σ) :
    ∃ τ, Computes m decls D s d d' σ τ [id] [(m.evalField name st).1] (m.evalField name st).2 := by
  obtain ⟨hg₁, ho⟩ := grows_emitThis h₁ hready.sound
  have hg₂ := (hg₁.sound.grows_emit h (by simp [Op.operands, ho]) rfl rfl rfl).1
  obtain ⟨τ, hτ⟩ := exists_computes_emitThis hD hs h₁ (hg₂.ops.trans hpre) hready
  exact hτ.exists_emit hD hs h hpre rfl ⟨rfl, rfl, rfl, rfl⟩ rfl (fun _ _ => nofun)

mutual

/-- **The code of an expression without assignments computes its value.** -/
theorem exists_computes_lowerExpr (hD : D.Finished decls) (hs : s.Describes D.body) {d d' : Draft}
    {σ : Config (Option Nat) Val World} {st : State Val World} {id : Nat} (e : Source.Expr)
    (htargets : e.targets = [])
    (h : lowerExpr true e d = .ok (id, d')) (hpre : d'.ops <+: D.ops)
    (hready : Ready decls s d st σ) :
    ∃ τ, Computes m decls D s d d' σ τ [id] [(m.evalExpr e st).1] (m.evalExpr e st).2 := by
  match e with
  | .assign target value span =>
    rw [Source.Expr.targets] at htargets
    exact absurd htargets (by simp)
  | .binary op left right span =>
    obtain ⟨l, d₁, h₁, h⟩ := bind_eq_ok h
    obtain ⟨r, d₂, h₂, h⟩ := bind_eq_ok h
    obtain ⟨hleft, hright⟩ := List.append_eq_nil_iff.1 htargets
    obtain ⟨hg₁, hl⟩ := grows_lowerExpr left h₁ hready.sound
    obtain ⟨hg₂, hr⟩ := grows_lowerExpr right h₂ hg₁.sound
    have hl' := lt_of_lt_of_le hl hg₂.size_le
    have hg₃ := (hg₂.sound.grows_emit h (by simp [Op.operands, hl', hr]) rfl rfl rfl).1
    have hpre₂ := hg₃.ops.trans hpre
    obtain ⟨τ, hτ⟩ := exists_computes_lowerExpr hD hs left hleft h₁ (hg₂.ops.trans hpre₂) hready
    obtain ⟨υ, hυ⟩ := exists_computes_lowerExpr hD hs right hright h₂ hpre₂ hτ.ready
    exact (hτ.trans hυ).exists_emit hD hs h hpre rfl ⟨rfl, rfl, rfl, rfl⟩ rfl (fun _ _ => nofun)
  | .not value span =>
    obtain ⟨v, d₁, h₁, h⟩ := bind_eq_ok h
    obtain ⟨hg₁, hv⟩ := grows_lowerExpr value h₁ hready.sound
    have hg₂ := (hg₁.sound.grows_emit h (by simp [Op.operands, hv]) rfl rfl rfl).1
    obtain ⟨τ, hτ⟩ := exists_computes_lowerExpr hD hs value htargets h₁ (hg₂.ops.trans hpre) hready
    exact hτ.exists_emit hD hs h hpre rfl ⟨rfl, rfl, rfl, rfl⟩ rfl (fun _ _ => nofun)
  | .int _ _ | .boolean _ _ | .null _ | .newObject _ _ =>
    exact (Computes.refl [] hready (List.forall_mem_nil _)).exists_emit hD hs h hpre rfl
      ⟨rfl, rfl, rfl, rfl⟩ rfl (fun _ _ => nofun)
  | .this span => exact exists_computes_emitThis hD hs h hpre hready
  | .var name span =>
    obtain ⟨scope, d₁, h₁, h⟩ := bind_eq_ok h
    cases h₁
    have henv := hready.represents.env name
    rw [Meaning.evalExpr]
    cases hx : d.scope.lookup name with
    | some i =>
      -- a declared name needs no code: its value is in the cell of what it is bound to
      simp only [hx] at h
      cases h
      rw [hx] at henv
      simp only [henv, Option.map_some]
      refine ⟨σ, .refl [id] hready fun j hj => ?_⟩
      rw [List.mem_singleton.1 hj, ← Draft.length_ops]
      exact lt_length_of_nameOf (hready.sound.scope.names name id hx)
    | none =>
      simp only [hx] at h
      obtain ⟨o, d₂, h₂, h⟩ := bind_eq_ok h
      rw [hx] at henv
      simp only [henv, Option.map_none]
      exact exists_computes_field hD hs h₂ h hpre hready
  | .member object field span =>
    obtain ⟨o, d₁, h₁, h⟩ := bind_eq_ok h
    obtain ⟨hg₁, ho⟩ := grows_lowerExpr object h₁ hready.sound
    have hg₂ := (hg₁.sound.grows_emit h (by simp [Op.operands, ho]) rfl rfl rfl).1
    obtain ⟨τ, hτ⟩ := exists_computes_lowerExpr hD hs object htargets h₁ (hg₂.ops.trans hpre) hready
    exact hτ.exists_emit hD hs h hpre rfl ⟨rfl, rfl, rfl, rfl⟩ rfl (fun _ _ => nofun)
  | .index array index span =>
    obtain ⟨a, d₁, h₁, h⟩ := bind_eq_ok h
    obtain ⟨i, d₂, h₂, h⟩ := bind_eq_ok h
    obtain ⟨harray, hindex⟩ := List.append_eq_nil_iff.1 htargets
    obtain ⟨hg₁, ha⟩ := grows_lowerExpr array h₁ hready.sound
    obtain ⟨hg₂, hi⟩ := grows_lowerExpr index h₂ hg₁.sound
    have ha' := lt_of_lt_of_le ha hg₂.size_le
    have hg₃ := (hg₂.sound.grows_emit h (by simp [Op.operands, ha', hi]) rfl rfl rfl).1
    have hpre₂ := hg₃.ops.trans hpre
    obtain ⟨τ, hτ⟩ := exists_computes_lowerExpr hD hs array harray h₁ (hg₂.ops.trans hpre₂) hready
    obtain ⟨υ, hυ⟩ := exists_computes_lowerExpr hD hs index hindex h₂ hpre₂ hτ.ready
    exact (hτ.trans hυ).exists_emit hD hs h hpre rfl ⟨rfl, rfl, rfl, rfl⟩ rfl (fun _ _ => nofun)
  | .call object method args span =>
    obtain ⟨o, d₁, h₁, h⟩ := bind_eq_ok h
    obtain ⟨vs, d₂, h₂, h⟩ := bind_eq_ok h
    obtain ⟨ids, d₃, h₃, h⟩ := bind_eq_ok h
    obtain ⟨hobject, hargs⟩ := List.append_eq_nil_iff.1 htargets
    obtain ⟨hg₁, ho⟩ := grows_lowerExpr object h₁ hready.sound
    obtain ⟨hg₂, hvs⟩ := grows_lowerExprs args h₂ hg₁.sound
    have hzip : ∀ v ∈ vs.zip (args.map Source.Expr.span), v.1 < d₂.code.size :=
      fun v hv => hvs _ (List.of_mem_zip hv).1
    obtain ⟨hg₃, hids⟩ := grows_emitArgs h₃ hg₂.sound hzip
    have ho' := lt_of_lt_of_le ho (hg₂.trans hg₃).size_le
    have hg₄ := (hg₃.sound.grows_emit h (by simpa [Op.operands, ho'] using hids) rfl rfl rfl).1
    have hpre₃ := hg₄.ops.trans hpre
    have hpre₂ := hg₃.ops.trans hpre₃
    obtain ⟨τ, hτ⟩ := exists_computes_lowerExpr hD hs object hobject h₁ (hg₂.ops.trans hpre₂) hready
    obtain ⟨υ, hυ⟩ := exists_computes_lowerExprs hD hs args hargs h₂ hpre₂ hτ.ready
    have hvalues : (vs.zip (args.map Source.Expr.span)).map (fun v => υ.cells (s.var? v.1)) =
        (m.evalExprs args (m.evalExpr object st).2).1 := by
      have hlen : vs.length ≤ (args.map Source.Expr.span).length := by
        rw [List.length_map, length_of_lowerExprs args h₂]
      have hmap := congrArg (List.map fun i => υ.cells (s.var? i)) (List.map_fst_zip hlen)
      rw [List.map_map] at hmap
      exact hmap.trans hυ.values
    obtain ⟨ρ, hρ⟩ := exists_computes_emitArgs (m := m) hD hs h₃ hpre₃ hzip hυ.ready hvalues
    obtain ⟨ω, hω⟩ := ((hτ.trans hυ.forget).trans hρ).exists_emit hD hs h hpre rfl
      ⟨rfl, rfl, rfl, rfl⟩ rfl (fun _ _ => nofun)
    -- what a call means depends on how many arguments it has, not on where they are
    refine ⟨ω, ?_⟩
    rw [shape_call, List.map_const', hρ.length_eq, ← List.map_const'] at hω
    exact hω
  | .newIntArray size span =>
    obtain ⟨n, d₁, h₁, h⟩ := bind_eq_ok h
    obtain ⟨hg₁, hn⟩ := grows_lowerExpr size h₁ hready.sound
    have hg₂ := (hg₁.sound.grows_emit h (by simp [Op.operands, hn]) rfl rfl rfl).1
    obtain ⟨τ, hτ⟩ := exists_computes_lowerExpr hD hs size htargets h₁ (hg₂.ops.trans hpre) hready
    exact hτ.exists_emit hD hs h hpre rfl ⟨rfl, rfl, rfl, rfl⟩ rfl (fun _ _ => nofun)

/-- **The code of several expressions computes their values**, one after the other. -/
theorem exists_computes_lowerExprs (hD : D.Finished decls) (hs : s.Describes D.body)
    {d d' : Draft} {σ : Config (Option Nat) Val World} {st : State Val World} {ids : List Nat}
    (es : List Source.Expr)
    (htargets : Source.listTargets es = []) (h : lowerExprs true es d = .ok (ids, d'))
    (hpre : d'.ops <+: D.ops) (hready : Ready decls s d st σ) :
    ∃ τ, Computes m decls D s d d' σ τ ids (m.evalExprs es st).1 (m.evalExprs es st).2 := by
  match es with
  | [] =>
    cases h
    exact ⟨σ, .refl [] hready (List.forall_mem_nil _)⟩
  | e :: es =>
    obtain ⟨id, d₁, h₁, h⟩ := bind_eq_ok h
    obtain ⟨ids', d₂, h₂, h⟩ := bind_eq_ok h
    cases h
    obtain ⟨he, hes⟩ := List.append_eq_nil_iff.1 htargets
    have hg₁ := (grows_lowerExpr e h₁ hready.sound).1
    have hg₂ := (grows_lowerExprs es h₂ hg₁.sound).1
    obtain ⟨τ, hτ⟩ := exists_computes_lowerExpr hD hs e he h₁ (hg₂.ops.trans hpre) hready
    obtain ⟨υ, hυ⟩ := exists_computes_lowerExprs hD hs es hes h₂ hpre hτ.ready
    exact ⟨υ, hτ.trans hυ⟩

end

end Backend.Lowering
