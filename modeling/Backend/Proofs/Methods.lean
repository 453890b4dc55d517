/-
# Lowered methods

Lowering a method always succeeds (`exists_lowerMethod`), and the draft it leaves is finished
(`Draft.Finished`): its code is a closed body, each label stands at one place, instructions that
bind different names are never in one storage class, and those that bind none are alone in theirs.
-/
import Mathlib
import Backend.Proofs.SourceRun
import Backend.Proofs.Statements

namespace Backend.Lowering

/-! ## Declarations -/

/-- Declare a name, with what computes its first value. -/
def Draft.declare (d : Draft) (e : Op × Source.Decl) : Draft :=
  { d.write e.1 e.2.span with scope := d.scope.define e.2.name d.code.size }

/-- Parameters are declared one after the other. -/
theorem declareParams_apply (ps : List Source.Decl) (start : Nat) (d : Draft) :
    declareParams start ps d =
      .ok ((), ((ps.zipIdx start).map fun p => (.parameter p.2, p.1)).foldl Draft.declare d) := by
  induction ps generalizing start d with
  | nil => rfl
  | cons p ps ih => exact ih (start + 1) (d.declare (.parameter start, p))

/-- Local variables are declared one after the other. -/
theorem declareLocals_apply (vs : List Source.Decl) (d : Draft) :
    declareLocals vs d = .ok ((), (vs.map fun v => (.null, v)).foldl Draft.declare d) := by
  induction vs generalizing d with
  | nil => rfl
  | cons v vs ih => exact ih (d.declare (.null, v))

/-- The draft behind the declarations of a method. -/
def declaredDraft (m : Source.MethodDecl) : Draft := m.header.foldl Draft.declare {}

/-- The parameters are declared first, then the local variables. -/
theorem foldl_declare_header (m : Source.MethodDecl) :
    (m.locals.map fun v => (Op.null, v)).foldl Draft.declare
      ((m.params.zipIdx.map fun p => (Op.parameter p.2, p.1)).foldl Draft.declare {}) =
      declaredDraft m := (List.foldl_append ..).symm

/-- Operations that give a declared name its first value. -/
def Initial (op : Op) : Prop := op = .null ∨ ∃ i, op = .parameter i

/-- Declarations compute a parameter or nothing. -/
theorem initial_of_mem_header {m : Source.MethodDecl} {e : Op × Source.Decl} (he : e ∈ m.header) :
    Initial e.1 := by
  rcases List.mem_append.1 he with he | he
  · obtain ⟨p, -, rfl⟩ := List.mem_map.1 he
    exact Or.inr ⟨p.2, rfl⟩
  · obtain ⟨v, -, rfl⟩ := List.mem_map.1 he
    exact Or.inl rfl

section

variable {decls : List Name} {d : Draft}

namespace Initial

variable {op : Op}

/-- A declaration reads nothing. -/
theorem operands_eq (h : Initial op) : op.operands = [] := by rcases h with rfl | ⟨i, rfl⟩ <;> rfl

theorem shape_eq (h : Initial op) : op.shape = op := by rcases h with rfl | ⟨i, rfl⟩ <;> rfl

/-- A declaration leaves a value. -/
theorem definesValue (h : Initial op) : op.definesValue = true := by
  rcases h with rfl | ⟨i, rfl⟩ <;> rfl

/-- A declaration neither joins nor jumps, and has nothing to do with slots. -/
theorem primitive (h : Initial op) : Meaning.Primitive op := by
  rcases h with rfl | ⟨i, rfl⟩ <;> exact ⟨rfl, rfl, rfl, rfl⟩

/-- It binds the declared name. -/
theorem nameOf_eq (h : Initial op) (decls : List Name) {ops : List Op} {p : Nat}
    (hp : ops[p]? = some op) : nameOf decls ops p = decls[p]? := by
  have hlen : (boundNames decls (ops.take p)).length = p := by
    rw [length_boundNames, List.length_take_of_le (le_of_lt (List.getElem?_eq_some_iff.1 hp).1)]
  rw [nameOf_eq_nextName decls hp]
  conv_rhs => rw [← hlen]
  rcases h with rfl | ⟨i, rfl⟩ <;> rfl

end Initial

theorem Draft.ops_declare (d : Draft) (e : Op × Source.Decl) :
    (d.declare e).ops = d.ops ++ [e.1] := Draft.ops_write

theorem Draft.size_declare (d : Draft) (e : Op × Source.Decl) :
    (d.declare e).code.size = d.code.size + 1 := Draft.size_write

/-- A draft stays sound when the next name of `decls` is declared. -/
theorem Draft.Sound.declare (hd : d.Sound decls) {e : Op × Source.Decl} (he : Initial e.1)
    (hname : decls[d.code.size]? = some e.2.name) : (d.declare e).Sound decls := by
  have hbound : nameOf decls (d.ops ++ [e.1]) d.code.size = some e.2.name := by
    rw [← hname, ← d.length_ops]
    exact he.nameOf_eq decls List.getElem?_concat_length
  have hcode : CodeSound decls (d.ops ++ [e.1]) d.labels.next := by
    refine hd.code.concat ?_ ?_ ?_
    · rw [he.operands_eq]
      exact List.forall_mem_nil _
    · intro l r hop
      have := he.primitive.1
      rw [hop] at this
      cases this
    · intro l hop
      have := he.primitive.2.2.1
      rw [hop] at this
      cases this
  have hscope := (hd.scope.mono (List.prefix_append d.ops [e.1])).define hbound
  rw [← d.ops_declare] at hcode hscope
  exact ⟨hcode, hscope⟩

/-- Declarations keep a draft sound, as long as they are those that the names are read off. -/
theorem Draft.Sound.foldl_declare (hd : d.Sound decls) {es : List (Op × Source.Decl)}
    (hes : ∀ e ∈ es, Initial e.1) (hnames : decls.drop d.code.size = es.map (·.2.name)) :
    (es.foldl Draft.declare d).Sound decls := by
  induction es generalizing d with
  | nil => exact hd
  | cons e es ih =>
    have hname : decls[d.code.size]? = some e.2.name := by
      have hhead := congrArg List.head? hnames
      rwa [List.head?_drop] at hhead
    refine ih (hd.declare (hes e List.mem_cons_self) hname)
      (fun e' he' => hes e' (List.mem_cons_of_mem e he')) ?_
    rw [d.size_declare, ← List.tail_drop, hnames]
    rfl

/-- What declarations write. -/
theorem Draft.ops_foldl_declare (es : List (Op × Source.Decl)) (d : Draft) :
    (es.foldl Draft.declare d).ops = d.ops ++ es.map (·.1) := by
  induction es generalizing d with
  | nil => exact (List.append_nil _).symm
  | cons e es ih =>
    rw [List.foldl_cons, ih, d.ops_declare, List.append_assoc]
    rfl

/-- The empty draft is sound. -/
theorem sound_empty (decls : List Name) : Draft.Sound decls {} := by
  refine ⟨⟨fun p op h => ?_, fun p l r h => ?_, fun p q l h => ?_, fun l h => ?_⟩,
    ⟨List.nodup_nil, fun x i h => ?_⟩⟩ <;> cases h

/-- The draft behind the declarations of a method is sound. -/
theorem sound_declaredDraft (m : Source.MethodDecl) : (declaredDraft m).Sound m.declared :=
  (sound_empty m.declared).foldl_declare (fun _ he => initial_of_mem_header he) rfl

/-- There is one instruction for each declared name. -/
theorem size_declaredDraft (m : Source.MethodDecl) :
    (declaredDraft m).code.size = m.declared.length := by
  rw [← Draft.length_ops, declaredDraft, Draft.ops_foldl_declare, Source.MethodDecl.declared]
  simp [Draft.ops]

end

/-! ## Lowering with a receiver succeeds -/

/-- A computation that never fails. -/
def Total {α : Type} (x : Lower α) : Prop := ∀ d, ∃ a d', x d = .ok (a, d')

namespace Total

variable {α β : Type}

/-- What always succeeds may be followed by what always succeeds. -/
theorem bind {x : Lower α} {f : α → Lower β} (hx : Total x) (hf : ∀ a, Total (f a)) :
    Total (x >>= f) := by
  intro d
  obtain ⟨a, d', ha⟩ := hx d
  obtain ⟨c, d'', hc⟩ := hf a d'
  refine ⟨c, d'', ?_⟩
  rw [bind_apply, ha]
  exact hc

theorem pure (a : α) : Total (pure a : Lower α) := fun d => ⟨a, d, rfl⟩

theorem emit (op : Op) (span : Span) : Total (emit op span) := fun d => ⟨_, _, emit_apply op span d⟩

theorem freshLabel : Total freshLabel := fun d => ⟨_, _, freshLabel_apply d⟩

theorem currentScope : Total currentScope := fun d => ⟨_, _, currentScope_apply d⟩

theorem setScope (scope : Scope) : Total (setScope scope) := fun d => ⟨_, _, setScope_apply scope d⟩

theorem define (x : Name) (id : Nat) : Total (define x id) := fun d => ⟨_, _, define_apply x id d⟩

/-- Joins always succeed. -/
theorem joinWith (other : Scope) (span : Span) : Total (joinWith other span) :=
  fun d => ⟨_, _, Draft.joinWith_apply other span d⟩

/-- Arguments can always be handed over. -/
theorem emitArgs (values : List (Nat × Span)) (start : Nat) : Total (emitArgs start values) := by
  induction values generalizing start with
  | nil => exact pure []
  | cons v values ih => exact (emit _ _).bind fun id => (ih (start + 1)).bind fun ids => pure _

end Total

mutual

/-- With a receiver, every expression can be lowered. -/
theorem total_lowerExpr (e : Source.Expr) : Total (lowerExpr true e) := by
  match e with
  | .assign target value _ =>
    exact (total_lowerExpr value).bind fun v => total_lowerTarget v _ target
  | .binary _ left right _ =>
    exact (total_lowerExpr left).bind fun _ => (total_lowerExpr right).bind fun _ => .emit _ _
  | .not value _ | .newIntArray value _ | .member value _ _ =>
    exact (total_lowerExpr value).bind fun _ => .emit _ _
  | .int _ _ | .boolean _ _ | .null _ | .newObject _ _ | .this _ => exact .emit _ _
  | .var name _ =>
    refine Total.currentScope.bind fun scope => ?_
    cases scope.lookup name with
    | some id => exact .pure id
    | none => exact (Total.emit _ _).bind fun _ => .emit _ _
  | .index array index _ =>
    exact (total_lowerExpr array).bind fun _ => (total_lowerExpr index).bind fun _ => .emit _ _
  | .call object _ args _ =>
    exact (total_lowerExpr object).bind fun _ => (total_lowerExprs args).bind fun _ =>
      (Total.emitArgs _ 0).bind fun _ => .emit _ _

theorem total_lowerTarget (value : Nat) (span : Span) (t : Source.Target) :
    Total (lowerTarget true value span t) := by
  match t with
  | .var name _ =>
    refine Total.currentScope.bind fun scope => ?_
    cases scope.lookup name with
    | some _ => exact (Total.emit _ _).bind fun id => (Total.define name id).bind fun _ => .pure id
    | none => exact (Total.emit _ _).bind fun _ => .emit _ _
  | .member object _ _ => exact (total_lowerExpr object).bind fun _ => .emit _ _
  | .index array index _ =>
    exact (total_lowerExpr array).bind fun _ => (total_lowerExpr index).bind fun _ => .emit _ _

theorem total_lowerExprs (es : List Source.Expr) : Total (lowerExprs true es) := by
  match es with
  | [] => exact .pure []
  | e :: es => exact (total_lowerExpr e).bind fun _ => (total_lowerExprs es).bind fun _ => .pure _

end

mutual

/-- With a receiver, every statement can be lowered. -/
theorem total_lowerStmt (s : Source.Stmt) : Total (lowerStmt true s) := by
  match s with
  | .block body _ => exact total_lowerStmts body
  | .ite cond s t span =>
    exact (total_lowerExpr cond).bind fun _ => Total.freshLabel.bind fun _ =>
      (Total.emit _ _).bind fun _ => Total.currentScope.bind fun _ =>
      (total_lowerStmt s).bind fun _ => (Total.emit _ _).bind fun _ =>
      (Total.emit _ _).bind fun _ => Total.currentScope.bind fun _ =>
      (Total.setScope _).bind fun _ => (total_lowerStmt t).bind fun _ =>
      Total.currentScope.bind fun _ => (Total.setScope _).bind fun _ =>
      (Total.emit _ _).bind fun _ => .joinWith _ _
  | .loop cond s span =>
    exact Total.freshLabel.bind fun _ => (Total.emit _ _).bind fun _ =>
      (total_lowerExpr cond).bind fun _ => (Total.emit _ _).bind fun _ =>
      Total.currentScope.bind fun _ => (total_lowerStmt s).bind fun _ =>
      Total.currentScope.bind fun _ => (Total.setScope _).bind fun _ =>
      (Total.emit _ _).bind fun _ => (Total.emit _ _).bind fun _ => .joinWith _ _
  | .print value _ =>
    exact (total_lowerExpr value).bind fun _ => (Total.emit _ _).bind fun _ => .pure _
  | .expr value _ => exact (total_lowerExpr value).bind fun _ => .pure _

theorem total_lowerStmts (ss : List Source.Stmt) : Total (lowerStmts true ss) := by
  match ss with
  | [] => exact .pure _
  | s :: ss => exact (total_lowerStmt s).bind fun _ => total_lowerStmts ss

end

/-! ## Finished drafts -/

/-- A sound draft whose jumps all lead to labels of the draft. -/
structure Draft.Finished (decls : List Name) (d : Draft) : Prop extends d.Sound decls where
  landed : ∀ op ∈ d.ops, ∀ l, op.target = some l → .label l ∈ d.ops

/-- The code of a draft, in the order in which it was written. -/
def Draft.body (d : Draft) : Body := .ofStore d.code

/-- Every instruction of a draft is executed at one place. -/
theorem Draft.wellFormed_body (d : Draft) : d.body.WellFormed :=
  ⟨List.nodup_range, fun _ => List.mem_range⟩

/-- What stands at a place of a draft. -/
theorem Draft.getElem?_ops (d : Draft) (p : Nat) : d.ops[p]? = d.code[p]?.map (·.op) := by
  rw [ops, List.getElem?_map, Array.getElem?_toList]

/-- Positions of a lowered body are the numbers of its instructions. -/
theorem Draft.getElem?_toList_body {d : Draft} {p : Nat} {op : Op} (h : d.ops[p]? = some op) :
    ∃ i, d.body.toList[p]? = some (p, i) ∧ i.op = op := by
  rw [d.getElem?_ops] at h
  obtain ⟨i, hi, hop⟩ := Option.map_eq_some_iff.1 h
  refine ⟨i, (d.wellFormed_body.getElem?_toList_eq_some).2 ⟨?_, hi⟩, hop⟩
  exact List.getElem?_range (Array.getElem?_eq_some_iff.1 hi).1

/-- The operations of a draft, in the order in which they are executed. -/
theorem Draft.ops_body (d : Draft) : d.body.ops = d.ops := by
  refine List.ext_getElem? fun p => ?_
  cases h : d.ops[p]? with
  | some op =>
    obtain ⟨i, hi, hop⟩ := d.getElem?_toList_body h
    rw [Body.getElem?_ops, hi, ← hop]
    rfl
  | none =>
    rw [List.getElem?_eq_none_iff] at h ⊢
    rw [Body.length_ops d.wellFormed_body, d.wellFormed_body.size_eq]
    rwa [d.length_ops] at h

namespace Draft.Finished

variable {decls : List Name} {d : Draft}

/-- **The code of a finished draft is a closed body.** -/
theorem closed (h : d.Finished decls) : d.body.Closed := by
  have hops : ∀ (id : Nat) (i : Instr), d.body.store[id]? = some i → d.ops[id]? = some i.op := by
    intro id i hi
    rw [d.getElem?_ops]
    exact Option.map_eq_some_iff.2 ⟨i, hi, rfl⟩
  refine ⟨d.wellFormed_body, fun id i hi o ho => ?_, fun id i hi l hl => ?_⟩
  · have hlt := h.code.operands id i.op (hops id i hi) o ho
    exact lt_trans hlt (Body.lt_size_of_getElem? hi)
  · obtain ⟨q, hq⟩ := List.mem_iff_getElem?.1
      (h.landed i.op (List.mem_of_getElem? (hops id i hi)) l hl)
    rw [d.getElem?_ops] at hq
    obtain ⟨i', hi', hop⟩ := Option.map_eq_some_iff.1 hq
    exact ⟨q, i', hi', by rw [hop]; rfl⟩

/-- A label is found where it was written. -/
theorem labelPosition?_body (h : d.Finished decls) {p : Nat} {l : Label}
    (hp : d.ops[p]? = some (.label l)) : FlowGraph.labelPosition? d.body.ops l = some p := by
  rw [d.ops_body, FlowGraph.labelPosition?_eq_some]
  refine ⟨⟨_, hp, rfl⟩, fun q op hq hl => ?_⟩
  have hop : op = .label l := by
    cases op <;> first | exact congrArg Op.label (Option.some.inj hl) | cases hl
  rw [hop] at hq
  exact le_of_eq (h.code.unique q p l hq hp)

/-- What joins tie together binds one name. -/
theorem nameOf_of_unify (h : d.Finished decls) {p l r : Nat} (hp : d.ops[p]? = some (.unify l r)) :
    ∃ x, nameOf decls d.ops p = some x ∧ nameOf decls d.ops l = some x ∧
      nameOf decls d.ops r = some x := by
  obtain ⟨x, hl, hr⟩ := h.code.joined p l r hp
  refine ⟨x, ?_, hl, hr⟩
  have hlt : l < (d.ops.take p).length := by
    rw [List.length_take_of_le (le_of_lt (List.getElem?_eq_some_iff.1 hp).1)]
    exact h.code.operands p _ hp l List.mem_cons_self
  rw [nameOf_eq_nextName decls hp, ← hl, nameOf_of_isPrefix (List.take_prefix p d.ops) hlt]
  rfl

/-- **A storage class holds one name.** -/
theorem nameOf_eq_of_linked (h : d.Finished decls) {x y : Nat} (hxy : d.body.Linked x y) :
    nameOf decls d.ops x = nameOf decls d.ops y := by
  refine hxy.congr _ fun id i l r hi hop => ?_
  have hid : d.ops[id]? = some (.unify l r) := by
    rw [d.getElem?_ops, ← hop]
    exact Option.map_eq_some_iff.2 ⟨i, hi, rfl⟩
  obtain ⟨x, hx, hl, hr⟩ := h.nameOf_of_unify hid
  rw [hx, hl, hr]
  exact ⟨rfl, rfl⟩

/-- **An instruction that binds no name is alone in its storage class.** -/
theorem eq_of_linked (h : d.Finished decls) {x y : Nat} (hx : nameOf decls d.ops x = none)
    (hxy : d.body.Linked x y) : x = y := by
  have hsame := hxy.congr (fun id => if nameOf decls d.ops id = none then some id else none)
    fun id i l r hi hop => by
      have hid : d.ops[id]? = some (.unify l r) := by
        rw [d.getElem?_ops, ← hop]
        exact Option.map_eq_some_iff.2 ⟨i, hi, rfl⟩
      obtain ⟨x, hx, hl, hr⟩ := h.nameOf_of_unify hid
      simp only [hx, hl, hr, reduceCtorEq, if_false, and_self]
  rw [← h.nameOf_eq_of_linked hxy, if_pos hx, if_pos hx] at hsame
  exact Option.some.inj hsame

/-- Instructions joined by a `unify` of the draft are in its storage class. -/
theorem linked_of_unify {p l r : Nat} (hp : d.ops[p]? = some (.unify l r)) :
    d.body.Linked p l ∧ d.body.Linked p r := by
  rw [d.getElem?_ops] at hp
  obtain ⟨i, hi, hop⟩ := Option.map_eq_some_iff.1 hp
  exact Body.linked_of_unify hi hop

end Draft.Finished

/-! ## Methods -/

/-- **Lowering a method succeeds.**  The result stands behind the declarations, the statements and
the returned expression. -/
theorem exists_lowerMethod (m : Source.MethodDecl) :
    ∃ d₁ d₂ r, lowerStmts true m.body (declaredDraft m) = .ok ((), d₁) ∧
      lowerExpr true m.result d₁ = .ok (r, d₂) ∧
      lowerMethod m {} = .ok ((), d₂.write (.ret r) m.result.span) := by
  obtain ⟨⟨⟩, d₁, h₁⟩ := total_lowerStmts m.body (declaredDraft m)
  obtain ⟨r, d₂, h₂⟩ := total_lowerExpr m.result d₁
  refine ⟨d₁, d₂, r, h₁, h₂, ?_⟩
  rw [lowerMethod, bind_apply, declareParams_apply]
  show (declareLocals m.locals >>= _) _ = _
  rw [bind_apply, declareLocals_apply, foldl_declare_header]
  show (lowerStmts true m.body >>= _) _ = _
  rw [bind_apply, h₁]
  show (lowerExpr true m.result >>= _) _ = _
  rw [bind_apply, h₂]
  rfl

section

variable {m : Source.MethodDecl} {d₁ d₂ : Draft} {r : Nat}

/-- The draft of a method grows along its statements, the returned expression and the return. -/
theorem grows_of_lowerMethod (h₁ : lowerStmts true m.body (declaredDraft m) = .ok ((), d₁))
    (h₂ : lowerExpr true m.result d₁ = .ok (r, d₂)) :
    (declaredDraft m).Grows m.declared d₁ [] ∧ d₁.Grows m.declared d₂ [] ∧
      d₂.Grows m.declared (d₂.write (.ret r) m.result.span) [] := by
  have hg₁ := grows_lowerStmts m.body h₁ (sound_declaredDraft m)
  obtain ⟨hg₂, hr⟩ := grows_lowerExpr m.result h₂ hg₁.sound
  exact ⟨hg₁, hg₂, hg₂.sound.grows_write (.ret r) m.result.span
    (fun _ ho => List.mem_singleton.1 ho ▸ hr) (fun _ _ => nofun) (fun _ => nofun)⟩

/-- **The draft of a method is finished.** -/
theorem finished_of_lowerMethod (h₁ : lowerStmts true m.body (declaredDraft m) = .ok ((), d₁))
    (h₂ : lowerExpr true m.result d₁ = .ok (r, d₂)) :
    (d₂.write (.ret r) m.result.span).Finished m.declared := by
  obtain ⟨hg₁, hg₂, hg₃⟩ := grows_of_lowerMethod h₁ h₂
  refine ⟨hg₃.sound, fun op hop l hl => ?_⟩
  rcases ((hg₁.trans hg₂).trans hg₃).jumps op hop l hl with ⟨op', hop', hl'⟩ | hland | hown
  · -- declarations do not jump
    rw [declaredDraft, Draft.ops_foldl_declare] at hop'
    obtain ⟨e, he, rfl⟩ := List.mem_map.1 hop'
    rw [(initial_of_mem_header he).primitive.2.2.2] at hl'
    cases hl'
  · exact hland
  · cases hown

end

/-- **The draft of a statement on its own is finished.** -/
theorem finished_of_lowerStmt {receiver : Bool} {s : Source.Stmt} {d : Draft}
    (h : lowerStmt receiver s {} = .ok ((), d)) : d.Finished [] := by
  have hg := grows_lowerStmt s h (sound_empty [])
  refine ⟨hg.sound, fun op hop l hl => ?_⟩
  rcases hg.jumps op hop l hl with ⟨op', hop', -⟩ | hland | hown
  · cases hop'
  · exact hland
  · cases hown

/-- The body of a lowered method. -/
theorem lower_eq {m : Source.MethodDecl} {d : Draft} (h : lowerMethod m {} = .ok ((), d)) :
    m.lower = .ok ⟨{ name := m.name, params := m.params.map (·.name), body := d.body },
      d.events⟩ := by
  rw [Source.MethodDecl.lower, run, h]
  rfl

end Backend.Lowering
