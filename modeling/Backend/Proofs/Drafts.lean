/-
# What lowering writes

Lowering only adds to a draft, and keeps it sound: operands stand before their use, labels are new,
names in scope stand for instructions that bind them, and joins tie instructions that bind the same
name (`Draft.Sound`).  `nameOf` says which name an instruction binds; it can be read off the code
alone, so that it also speaks about the finished body.
-/
import Mathlib
import Backend.Proofs.Classes
import Backend.Proofs.Expressions

namespace Backend

/-- The number of a label. -/
def Label.number : Label → Nat
  | .ifElse n | .ifDone n | .whileCond n | .whileEnd n => n

namespace Lowering

/-! ## Which name an instruction binds -/

/-- The name that the next instruction binds: that of an assignment, that of what it joins, or that
of the declaration it stands for. -/
def nextName (decls : List Name) (names : List (Option Name)) : Op → Option Name
  | .assignVar _ x => some x
  | .unify l _ => names[l]?.join
  | _ => decls[names.length]?

/-- The names bound by instructions in order, of which the first ones declare `decls`. -/
def boundNames (decls : List Name) (ops : List Op) : List (Option Name) :=
  ops.foldl (fun names op => names ++ [nextName decls names op]) []

/-- The name that an instruction binds. -/
def nameOf (decls : List Name) (ops : List Op) (id : Nat) : Option Name :=
  (boundNames decls ops)[id]?.join

theorem boundNames_concat (decls : List Name) (ops : List Op) (op : Op) :
    boundNames decls (ops ++ [op]) =
      boundNames decls ops ++ [nextName decls (boundNames decls ops) op] := by
  rw [boundNames, List.foldl_append]
  rfl

/-- Every instruction has an entry in the list of names. -/
theorem length_boundNames (decls : List Name) (ops : List Op) :
    (boundNames decls ops).length = ops.length := by
  induction ops using List.reverseRecOn with
  | nil => rfl
  | append_singleton ops op ih =>
    rw [boundNames_concat, List.length_append, ih, List.length_append]
    rfl

/-- Later instructions do not change what an instruction binds. -/
theorem nameOf_append (decls : List Name) (ops more : List Op) {id : Nat} (h : id < ops.length) :
    nameOf decls (ops ++ more) id = nameOf decls ops id := by
  induction more using List.reverseRecOn with
  | nil => rw [List.append_nil]
  | append_singleton more op ih =>
    have hlt : id < (boundNames decls (ops ++ more)).length := by
      rw [length_boundNames, List.length_append]
      omega
    rw [← ih, ← List.append_assoc, nameOf, nameOf, boundNames_concat,
      List.getElem?_append_left hlt]

/-- Longer code gives old instructions the same names. -/
theorem nameOf_of_isPrefix {decls : List Name} {ops ops' : List Op} (h : ops <+: ops') {id : Nat}
    (hid : id < ops.length) : nameOf decls ops' id = nameOf decls ops id := by
  obtain ⟨more, rfl⟩ := h
  exact nameOf_append decls ops more hid

/-- What the last instruction binds. -/
theorem nameOf_concat_self (decls : List Name) (ops : List Op) (op : Op) :
    nameOf decls (ops ++ [op]) ops.length = nextName decls (boundNames decls ops) op := by
  rw [nameOf, boundNames_concat, ← length_boundNames decls ops,
    List.getElem?_append_right (le_refl _), Nat.sub_self]
  rfl

/-- What an instruction binds is decided by the instructions before it. -/
theorem nameOf_eq_nextName (decls : List Name) {ops : List Op} {op : Op} {p : Nat}
    (h : ops[p]? = some op) :
    nameOf decls ops p = nextName decls (boundNames decls (ops.take p)) op := by
  obtain ⟨hlt, hop⟩ := List.getElem?_eq_some_iff.1 h
  have hlen : (ops.take p).length = p := List.length_take_of_le (le_of_lt hlt)
  have hsplit : ops.take p ++ [op] ++ ops.drop (p + 1) = ops := by
    rw [← hop, List.take_concat_get', List.take_append_drop]
  have hself := nameOf_concat_self decls (ops.take p) op
  rw [hlen] at hself
  rw [← hself, ← nameOf_append decls (ops.take p ++ [op]) (ops.drop (p + 1)), hsplit]
  rw [List.length_append, hlen]
  exact Nat.lt_succ_self p

/-- What binds a name is an instruction of the code. -/
theorem lt_length_of_nameOf {decls : List Name} {ops : List Op} {id : Nat} {x : Name}
    (h : nameOf decls ops id = some x) : id < ops.length := by
  rw [← length_boundNames decls ops]
  by_contra hge
  rw [nameOf, List.getElem?_eq_none (not_lt.1 hge)] at h
  exact absurd h (by simp)

/-! ## Sound drafts -/

/-- Operations that can be part of a body: operands stand before their use, joins tie instructions
that bind one name, and a label stands at one place, with a number below `next`. -/
structure CodeSound (decls : List Name) (ops : List Op) (next : Nat) : Prop where
  operands : ∀ (p : Nat) (op : Op), ops[p]? = some op → ∀ o ∈ op.operands, o < p
  joined : ∀ p l r : Nat, ops[p]? = some (.unify l r) →
    ∃ x, nameOf decls ops l = some x ∧ nameOf decls ops r = some x
  unique : ∀ (p q : Nat) (l : Label), ops[p]? = some (.label l) → ops[q]? = some (.label l) → p = q
  labels_lt : ∀ l, .label l ∈ ops → l.number < next

/-- A scope whose names stand for instructions that bind them. -/
structure ScopeSound (decls : List Name) (ops : List Op) (scope : Scope) : Prop where
  nodup : (scope.map (·.1)).Nodup
  names : ∀ x i, scope.lookup x = some i → nameOf decls ops i = some x

/-- A draft with sound code and a sound scope. -/
structure Draft.Sound (decls : List Name) (d : Draft) : Prop where
  code : CodeSound decls d.ops d.labels.next
  scope : ScopeSound decls d.ops d.scope

/-- Two scopes that declare the same names. -/
def SameNames (scope scope' : Scope) : Prop :=
  ∀ x, (scope'.lookup x).isSome = (scope.lookup x).isSome

theorem SameNames.refl (scope : Scope) : SameNames scope scope := fun _ => rfl

theorem SameNames.trans {s t u : Scope} (h : SameNames s t) (h' : SameNames t u) : SameNames s u :=
  fun x => (h' x).trans (h x)

/-- The names of a scope after a definition. -/
theorem map_fst_define (x : Name) (id : Nat) (scope : Scope) :
    (scope.define x id).map (·.1) =
      if x ∈ scope.map (·.1) then scope.map (·.1) else scope.map (·.1) ++ [x] := by
  induction scope with
  | nil => rfl
  | cons entry rest ih =>
    obtain ⟨y, i⟩ := entry
    by_cases hy : y = x
    · simp [Scope.define, hy]
    · have hy' : x ≠ y := fun h => hy h.symm
      by_cases hx : x ∈ rest.map (·.1)
      · rw [if_pos hx] at ih
        simp only [Scope.define, if_neg hy, List.map_cons, ih, List.mem_cons, hx, or_true, if_true]
      · rw [if_neg hx] at ih
        simp only [Scope.define, if_neg hy, List.map_cons, ih, List.mem_cons, hx, hy', or_self,
          if_false, List.cons_append]

/-- A scope stays sound when a name is bound to an instruction that binds it. -/
theorem ScopeSound.define {decls : List Name} {ops : List Op} {scope : Scope} {x : Name} {id : Nat}
    (h : ScopeSound decls ops scope) (hid : nameOf decls ops id = some x) :
    ScopeSound decls ops (scope.define x id) := by
  constructor
  · rw [map_fst_define]
    split
    · exact h.nodup
    · rename_i hx
      exact List.nodup_append.2 ⟨h.nodup, List.nodup_singleton x, fun y hy z hz hyz =>
        hx (List.mem_singleton.1 hz ▸ hyz ▸ hy)⟩
  · intro y i hi
    rw [Scope.lookup_define] at hi
    split at hi
    · rename_i hy
      rw [← Option.some.inj hi, hid, hy]
    · exact h.names y i hi

/-- Binding a declared name anew declares nothing. -/
theorem SameNames.define {scope : Scope} {x : Name} (hx : (scope.lookup x).isSome) (id : Nat) :
    SameNames scope (scope.define x id) := by
  intro y
  rw [Scope.lookup_define]
  split
  · rename_i hy
    rw [hy, hx]
    rfl
  · rfl

/-- A scope stays sound when the code goes on. -/
theorem ScopeSound.mono {decls : List Name} {ops ops' : List Op} {scope : Scope}
    (h : ScopeSound decls ops scope) (hops : ops <+: ops') : ScopeSound decls ops' scope := by
  refine ⟨h.nodup, fun x i hi => ?_⟩
  have hname := h.names x i hi
  rw [nameOf_of_isPrefix hops (lt_length_of_nameOf hname), hname]

/-! ## Growing drafts -/

/-- What lowering does to a draft: it stays sound, its code goes on, the names in scope stay the
same, labels that are written are new, and jumps lead to labels of the code.  The labels in `own`
are those of statements that have been begun; they are drawn before they are written, and jumps to
them are written before them. -/
structure Draft.Grows (decls : List Name) (d d' : Draft) (own : List Label) : Prop where
  sound : d'.Sound decls
  ops : d.ops <+: d'.ops
  names : SameNames d.scope d'.scope
  next_le : d.labels.next ≤ d'.labels.next
  labels : ∀ l, .label l ∈ d'.ops → .label l ∈ d.ops ∨ d.labels.next ≤ l.number ∨ l ∈ own
  jumps : ∀ op ∈ d'.ops, ∀ l, op.target = some l →
    (∃ op ∈ d.ops, op.target = some l) ∨ .label l ∈ d'.ops ∨ l ∈ own

namespace Draft.Grows

variable {decls : List Name} {d d' d'' : Draft} {own own' : List Label}

theorem refl (hd : d.Sound decls) : d.Grows decls d [] :=
  ⟨hd, List.prefix_rfl, .refl _, le_refl _, fun _ h => Or.inl h,
    fun op hop _ hl => Or.inl ⟨op, hop, hl⟩⟩

theorem size_le (h : d.Grows decls d' own) : d.code.size ≤ d'.code.size := by
  rw [← d.length_ops, ← d'.length_ops]
  exact h.ops.length_le

/-- Drafts grow step by step. -/
theorem trans (h : d.Grows decls d' own) (h' : d'.Grows decls d'' own') :
    d.Grows decls d'' (own ++ own') := by
  refine ⟨h'.sound, h.ops.trans h'.ops, h.names.trans h'.names, le_trans h.next_le h'.next_le,
    ?_, ?_⟩
  · intro l hl
    rcases h'.labels l hl with hl | hl | hl
    · exact (h.labels l hl).imp_right (Or.imp_right (List.mem_append_left _))
    · exact Or.inr (Or.inl (le_trans h.next_le hl))
    · exact Or.inr (Or.inr (List.mem_append_right _ hl))
  · intro op hop l hl
    rcases h'.jumps op hop l hl with ⟨op', hop', hl'⟩ | hland | hown
    · rcases h.jumps op' hop' l hl' with htarget | hland | hown
      · exact Or.inl htarget
      · exact Or.inr (Or.inl (h'.ops.subset hland))
      · exact Or.inr (Or.inr (List.mem_append_left _ hown))
    · exact Or.inr (Or.inl hland)
    · exact Or.inr (Or.inr (List.mem_append_right _ hown))

/-- A statement is finished once its labels have been written. -/
theorem finish (h : d.Grows decls d' own)
    (hown : ∀ l ∈ own, .label l ∈ d'.ops ∧ d.labels.next ≤ l.number) : d.Grows decls d' [] := by
  refine ⟨h.sound, h.ops, h.names, h.next_le, ?_, ?_⟩
  · intro l hl
    rcases h.labels l hl with hl | hl | hl
    · exact Or.inl hl
    · exact Or.inr (Or.inl hl)
    · exact Or.inr (Or.inl (hown l hl).2)
  · intro op hop l hl
    rcases h.jumps op hop l hl with htarget | hland | hl
    · exact Or.inl htarget
    · exact Or.inr (Or.inl hland)
    · exact Or.inr (Or.inl (hown l hl).1)

/-- What is lowered in between does not write the labels of a statement that has been begun. -/
theorem notMem {l : Label} (h : d.Grows decls d' []) (hl : .label l ∉ d.ops)
    (hlt : l.number < d.labels.next) : .label l ∉ d'.ops := by
  intro hmem
  rcases h.labels l hmem with hmem | hle | hown
  · exact hl hmem
  · exact absurd hlt (not_lt.2 hle)
  · exact absurd hown List.not_mem_nil

end Draft.Grows

/-! ## Writing one instruction -/

section

variable {decls : List Name} {d d' : Draft} {op : Op} {span : Span}

/-- The code stays sound if the operands of an instruction are there, its label is new, and what it
joins binds one name. -/
theorem CodeSound.concat {ops : List Op} {next : Nat} (h : CodeSound decls ops next)
    (hoperands : ∀ o ∈ op.operands, o < ops.length)
    (hjoined : ∀ l r, op = .unify l r →
      ∃ x, nameOf decls ops l = some x ∧ nameOf decls ops r = some x)
    (hlabel : ∀ l, op = .label l → .label l ∉ ops ∧ l.number < next) :
    CodeSound decls (ops ++ [op]) next := by
  have hkeep : ∀ l r, (∃ x, nameOf decls ops l = some x ∧ nameOf decls ops r = some x) →
      ∃ x, nameOf decls (ops ++ [op]) l = some x ∧ nameOf decls (ops ++ [op]) r = some x := by
    rintro l r ⟨x, hl, hr⟩
    refine ⟨x, ?_, ?_⟩
    · rw [nameOf_append decls ops _ (lt_length_of_nameOf hl), hl]
    · rw [nameOf_append decls ops _ (lt_length_of_nameOf hr), hr]
  refine ⟨?_, ?_, ?_, ?_⟩
  · intro p op' hp o ho
    rcases getElem?_concat_cases hp with hold | ⟨rfl, rfl⟩
    · exact h.operands p op' hold o ho
    · exact hoperands o ho
  · intro p l r hp
    rcases getElem?_concat_cases hp with hold | ⟨rfl, hop⟩
    · exact hkeep l r (h.joined p l r hold)
    · exact hkeep l r (hjoined l r hop.symm)
  · intro p q l hp hq
    rcases getElem?_concat_cases hp with hp' | ⟨rfl, hp'⟩
    · rcases getElem?_concat_cases hq with hq' | ⟨rfl, hq'⟩
      · exact h.unique p q l hp' hq'
      · exact absurd (List.mem_of_getElem? hp') (hlabel l hq'.symm).1
    · rcases getElem?_concat_cases hq with hq' | ⟨rfl, hq'⟩
      · exact absurd (List.mem_of_getElem? hq') (hlabel l hp'.symm).1
      · rfl
  · intro l hl
    rcases List.mem_append.1 hl with hl | hl
    · exact h.labels_lt l hl
    · exact (hlabel l (List.mem_singleton.1 hl).symm).2

/-- Writing one instruction. -/
theorem Draft.Sound.grows_write (hd : d.Sound decls) (op : Op) (span : Span)
    (hoperands : ∀ o ∈ op.operands, o < d.code.size)
    (hjoined : ∀ l r, op = .unify l r →
      ∃ x, nameOf decls d.ops l = some x ∧ nameOf decls d.ops r = some x)
    (hlabel : ∀ l, op = .label l → .label l ∉ d.ops ∧ l.number < d.labels.next) :
    d.Grows decls (d.write op span) (op.labelHere.toList ++ op.target.toList) := by
  have hpre := d.prefix_write op span
  refine ⟨⟨?_, hd.scope.mono hpre⟩, hpre, .refl _, le_refl _, ?_, ?_⟩
  · rw [ops_write]
    exact hd.code.concat (by simpa using hoperands) hjoined hlabel
  · intro l hl
    rw [ops_write, List.mem_append, List.mem_singleton] at hl
    rcases hl with hl | rfl
    · exact Or.inl hl
    · exact Or.inr (Or.inr List.mem_cons_self)
  · intro op' hop' l hl
    rw [ops_write, List.mem_append, List.mem_singleton] at hop'
    rcases hop' with hop' | rfl
    · exact Or.inl ⟨op', hop', hl⟩
    · refine Or.inr (Or.inr (List.mem_append_right _ ?_))
      rw [hl]
      exact List.mem_cons_self

/-- Writing an instruction that computes a value. -/
theorem Draft.Sound.grows_emit (hd : d.Sound decls) {id : Nat}
    (h : emit op span d = .ok (id, d')) (hoperands : ∀ o ∈ op.operands, o < d.code.size)
    (hunify : op.isUnify = false) (hlabel : op.labelHere = none) (htarget : op.target = none) :
    d.Grows decls d' [] ∧ id < d'.code.size := by
  obtain ⟨rfl, rfl⟩ := emit_eq_ok.1 h
  have hgrows := hd.grows_write op span hoperands (fun l r hop => ?_) (fun l hop => ?_)
  · rw [hlabel, htarget] at hgrows
    refine ⟨hgrows, ?_⟩
    rw [Draft.size_write]
    exact Nat.lt_succ_self _
  · rw [hop] at hunify
    cases hunify
  · rw [hop] at hlabel
    cases hlabel

end

/-- Going on with other bindings of the names in scope. -/
theorem Draft.Sound.grows_setScope {decls : List Name} {d : Draft} (hd : d.Sound decls)
    {scope : Scope} (hscope : ScopeSound decls d.ops scope) (hnames : SameNames d.scope scope) :
    d.Grows decls { d with scope } [] :=
  ⟨⟨hd.code, hscope⟩, List.prefix_rfl, hnames, le_refl _, fun _ h => Or.inl h,
    fun op hop _ hl => Or.inl ⟨op, hop, hl⟩⟩

/-! ## Expressions -/

section

variable {decls : List Name} {receiver : Bool}

/-- Writing a `this` lets the draft grow. -/
theorem grows_emitThis {d d' : Draft} {name : Name} {span : Span} {id : Nat}
    (h : emitThis receiver name span d = .ok (id, d')) (hd : d.Sound decls) :
    d.Grows decls d' [] ∧ id < d'.code.size :=
  hd.grows_emit (emit_of_emitThis h) (List.forall_mem_nil _) rfl rfl rfl

/-- Handing over arguments lets the draft grow. -/
theorem grows_emitArgs {args : List (Nat × Span)} {start : Nat} {d d' : Draft} {ids : List Nat}
    (h : emitArgs start args d = .ok (ids, d')) (hd : d.Sound decls)
    (hargs : ∀ a ∈ args, a.1 < d.code.size) :
    d.Grows decls d' [] ∧ ∀ id ∈ ids, id < d'.code.size := by
  refine ⟨keeps_emitArgs (P := fun e => d.Grows decls e []) h (.refl hd) fun a ha e n hg => ?_,
    fun id hid => ?_⟩
  · have hread : ∀ o ∈ (Op.arg a.1 n).operands, o < e.code.size := fun o ho =>
      List.mem_singleton.1 ho ▸ lt_of_lt_of_le (hargs a ha) hg.size_le
    exact hg.trans (hg.sound.grows_emit (emit_apply _ a.2 e) hread rfl rfl rfl).1
  · obtain ⟨v, n, harg⟩ := exists_arg_of_emitArgs h id hid
    rw [← d'.length_ops]
    exact (List.getElem?_eq_some_iff.1 harg).1

/-- An assignment to a variable binds it. -/
theorem nameOf_assign (decls : List Name) (d : Draft) (v : Nat) (x : Name) (span : Span) :
    nameOf decls (d.assign v x span).ops d.code.size = some x := by
  show nameOf decls (d.write (.assignVar v x) span).ops d.code.size = some x
  rw [Draft.ops_write, ← d.length_ops, nameOf_concat_self]
  rfl

namespace Draft.Sound

variable {d : Draft}

/-- What a name stands for is an instruction of the draft. -/
theorem lt_size (hd : d.Sound decls) {x : Name} {i : Nat} (hx : d.scope.lookup x = some i) :
    i < d.code.size := by
  rw [← d.length_ops]
  exact lt_length_of_nameOf (hd.scope.names x i hx)

/-- Writing an operation of an expression. -/
theorem grows_evaluating (hd : d.Sound decls) {op : Op} (span : Span) (hop : evaluating op = true)
    (hoperands : ∀ o ∈ op.operands, o < d.code.size) : d.Grows decls (d.write op span) [] :=
  (hd.grows_emit (emit_apply op span d) hoperands (isUnify_of_evaluating hop)
    (labelHere_of_evaluating hop) (target_of_evaluating hop)).1

/-- Writing an assignment to a variable in scope. -/
theorem grows_assign (hd : d.Sound decls) {v : Nat} (hv : v < d.code.size) {x : Name}
    (hx : (d.scope.lookup x).isSome) (span : Span) : d.Grows decls (d.assign v x span) [] := by
  have hg := (hd.grows_emit (emit_apply (.assignVar v x) span d)
    (by simpa [Op.operands] using hv) rfl rfl rfl).1
  exact hg.trans (hg.sound.grows_setScope
    (hg.sound.scope.define (nameOf_assign decls d v x span)) (.define hx _))

end Draft.Sound

/-- **Step lemma.**  The draft grows, and the values at hand are instructions of it. -/
theorem Evaluation.Step.grows {A : Name → Prop} {d : Draft} {s s' : Evaluation}
    (h : s.Step A s') (hs : s.Good (fun e => d.Grows decls e []) fun e v => v < e.code.size) :
    s'.Good (fun e => d.Grows decls e []) fun e v => v < e.code.size := by
  obtain ⟨hg, hvs⟩ := hs
  have hold : ∀ v ∈ s.values, v < s'.draft.code.size :=
    fun v hv => lt_of_lt_of_le (hvs v hv) h.size_le
  have hnew : ∀ {e : Draft} {op : Op} {span : Span}, e.code.size < (e.write op span).code.size := by
    intro e op span
    rw [Draft.size_write]
    exact Nat.lt_succ_self _
  cases h with
  | read hx => exact ⟨hg, List.forall_mem_cons.2 ⟨hg.sound.lt_size hx, hold⟩⟩
  | write span hop hread =>
    exact ⟨hg.trans (hg.sound.grows_evaluating span hop fun o ho => hvs o (hread o ho)),
      List.forall_mem_cons.2 ⟨hnew, hold⟩⟩
  | assign span hv hx _ =>
    exact ⟨hg.trans (hg.sound.grows_assign (hvs _ hv) hx span),
      List.forall_mem_cons.2 ⟨hnew, hold⟩⟩
  | @call _ d₁ _ object _ ids method span hobject hargs h =>
    obtain ⟨hg₁, hids⟩ := grows_emitArgs h hg.sound fun a ha => hvs _ (hargs a ha)
    have ho := lt_of_lt_of_le (hvs _ hobject) hg₁.size_le
    have hread : ∀ i ∈ (Op.call object method ids).operands, i < d₁.code.size :=
      List.forall_mem_cons.2 ⟨ho, hids⟩
    have hg₂ := hg₁.sound.grows_evaluating span rfl hread
    exact ⟨(hg.trans hg₁).trans hg₂, List.forall_mem_cons.2 ⟨hnew, hold⟩⟩

theorem Evaluation.Steps.grows {A : Name → Prop} {s s' : Evaluation} (h : s.Steps A s')
    (hd : s.draft.Sound decls) (hvs : ∀ v ∈ s.values, v < s.draft.code.size) :
    s'.Good (fun e => s.draft.Grows decls e []) fun e v => v < e.code.size :=
  h.keeps ⟨.refl hd, hvs⟩ fun _ _ hs step => step.grows hs

/-- **Lowering an expression lets the draft grow**; the result is an instruction of the draft. -/
theorem grows_lowerExpr {d d' : Draft} {id : Nat} (e : Source.Expr)
    (h : lowerExpr receiver e d = .ok (id, d')) (hd : d.Sound decls) :
    d.Grows decls d' [] ∧ id < d'.code.size :=
  keeps_lowerExpr (P := fun e => d.Grows decls e []) e h (.refl hd) fun _ _ hs step => step.grows hs

/-- Lowering several expressions lets the draft grow. -/
theorem grows_lowerExprs {d d' : Draft} {ids : List Nat} (es : List Source.Expr)
    (h : lowerExprs receiver es d = .ok (ids, d')) (hd : d.Sound decls) :
    d.Grows decls d' [] ∧ ∀ id ∈ ids, id < d'.code.size :=
  keeps_lowerExprs (P := fun e => d.Grows decls e []) es h (.refl hd)
    fun _ _ hs step => step.grows hs

end

end Lowering

end Backend
