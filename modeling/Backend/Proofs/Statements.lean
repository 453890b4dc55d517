/-
# Lowering statements

How the pieces of a lowered statement stand in the draft.  Joins are written one after the other, so
that afterwards every name is bound to what both paths agree on or to a `unify` of their two
bindings (`Draft.lookup_joined`).  Conditionals and loops are taken apart into the drafts at their
borders (`exists_of_lowerStmt_ite`, `exists_of_lowerStmt_loop`), and every statement lets the draft
grow (`grows_lowerStmt`).
-/
import Mathlib
import Backend.Proofs.Drafts

namespace Backend.Lowering

/-! ## Joins -/

theorem Join.insert_perm (j : Join) (js : List Join) : (Join.insert j js).Perm (j :: js) := by
  induction js with
  | nil => exact .refl _
  | cons k ks ih =>
    rw [Join.insert]
    split
    · exact .refl _
    · exact (ih.cons k).trans (.swap j k ks)

/-- Sorting joins changes their order only. -/
theorem Join.sort_perm (js : List Join) : (Join.sort js).Perm js := by
  induction js with
  | nil => exact .refl _
  | cons j js ih => exact (Join.insert_perm j _).trans (ih.cons j)

theorem lookup_eq_some_of_mem {scope : Scope} (hs : (scope.map (·.1)).Nodup) {x : Name} {i : Nat}
    (h : (x, i) ∈ scope) : scope.lookup x = some i := by
  induction scope with
  | nil => cases h
  | cons entry rest ih =>
    obtain ⟨y, k⟩ := entry
    rw [List.map_cons, List.nodup_cons] at hs
    rcases List.mem_cons.1 h with heq | hmem
    · cases heq
      exact List.lookup_cons_self
    · have hne : (x == y) = false := beq_eq_false_iff_ne.2 fun hxy =>
        hs.1 (hxy ▸ List.mem_map.2 ⟨(x, i), hmem, rfl⟩)
      rw [List.lookup_cons, hne]
      exact ih hs.2 hmem

/-- The joins of two scopes are the names that both declare, but bind differently. -/
theorem mem_joins {ours theirs : Scope} (hs : (ours.map (·.1)).Nodup) {j : Join} :
    j ∈ ours.joins theirs ↔
      ours.lookup j.name = some j.left ∧ theirs.lookup j.name = some j.right ∧
        j.right ≠ j.left := by
  rw [Scope.joins, (Join.sort_perm _).mem_iff, List.mem_filterMap]
  constructor
  · rintro ⟨⟨x, l⟩, hmem, hj⟩
    have hl := lookup_eq_some_of_mem hs hmem
    cases hr : theirs.lookup x with
    | none => simp [hr] at hj
    | some r =>
      simp only [hr] at hj
      split at hj
      · cases hj
      · rename_i hne
        cases hj
        exact ⟨hl, hr, hne⟩
  · rintro ⟨hl, hr, hne⟩
    refine ⟨(j.name, j.left), mem_of_lookup_eq_some hl, ?_⟩
    simp only [hr, if_neg hne]

/-- A name is joined once. -/
theorem nodup_joins {ours theirs : Scope} (hs : (ours.map (·.1)).Nodup) :
    ((ours.joins theirs).map Join.name).Nodup := by
  rw [Scope.joins, ((Join.sort_perm _).map Join.name).nodup_iff]
  refine List.Nodup.sublist ?_ hs
  induction ours with
  | nil => exact List.Sublist.refl _
  | cons entry rest ih =>
    obtain ⟨x, l⟩ := entry
    rw [List.map_cons, List.nodup_cons] at hs
    rw [List.filterMap_cons]
    split
    · exact (ih hs.2).cons _
    · rename_i j hj
      have hx : j.name = x := by
        dsimp only at hj
        split at hj
        · split at hj
          · cases hj
          · exact (congrArg Join.name (Option.some.inj hj)).symm
        · cases hj
      rw [List.map_cons, List.map_cons, hx]
      exact (ih hs.2).cons_cons x

namespace Draft

/-- Write one join. -/
def join (span : Span) (d : Draft) (j : Join) : Draft :=
  { d.write (.unify j.left j.right) span with
    scope := d.scope.define j.name d.code.size
    events := d.events ++ [.joined j.name d.code.size j.left j.right] }

/-- Write the joins with the bindings at the end of another path. -/
def joined (d : Draft) (other : Scope) (span : Span) : Draft :=
  (d.scope.joins other).foldl (join span) d

/-- Joins one after the other. -/
theorem forM_emitJoin (span : Span) (js : List Join) (d : Draft) :
    js.forM (emitJoin span) d = .ok ((), js.foldl (join span) d) := by
  induction js generalizing d with
  | nil => rfl
  | cons j js ih => exact ih (d.join span j)

/-- Joining never fails. -/
theorem joinWith_apply (other : Scope) (span : Span) (d : Draft) :
    joinWith other span d = .ok ((), d.joined other span) := forM_emitJoin span _ d

/-- Joins write nothing but themselves. -/
theorem ops_foldl_join (span : Span) (js : List Join) (d : Draft) :
    (js.foldl (join span) d).ops = d.ops ++ js.map fun j => .unify j.left j.right := by
  induction js generalizing d with
  | nil => exact (List.append_nil _).symm
  | cons j js ih =>
    have hops : (d.join span j).ops = d.ops ++ [.unify j.left j.right] := ops_write
    rw [List.foldl_cons, ih, hops, List.append_assoc]
    rfl

/-- What joining writes. -/
theorem ops_joined (d : Draft) (other : Scope) (span : Span) :
    (d.joined other span).ops =
      d.ops ++ (d.scope.joins other).map fun j => .unify j.left j.right := ops_foldl_join ..

/-- Joins leave the bindings of other names alone. -/
theorem lookup_foldl_join_of_notMem (span : Span) {js : List Join} {x : Name}
    (hx : x ∉ js.map Join.name) (d : Draft) :
    (js.foldl (join span) d).scope.lookup x = d.scope.lookup x := by
  induction js generalizing d with
  | nil => rfl
  | cons j js ih =>
    rw [List.map_cons, List.mem_cons, not_or] at hx
    rw [List.foldl_cons, ih hx.2]
    exact (Scope.lookup_define ..).trans (if_neg hx.1)

/-- A join binds its name. -/
theorem lookup_foldl_join_of_mem (span : Span) {js : List Join} (hjs : (js.map Join.name).Nodup)
    {j : Join} (hj : j ∈ js) (d : Draft) :
    ∃ u, (js.foldl (join span) d).scope.lookup j.name = some u ∧
      (js.foldl (join span) d).ops[u]? = some (.unify j.left j.right) := by
  induction js generalizing d with
  | nil => cases hj
  | cons k js ih =>
    rw [List.map_cons, List.nodup_cons] at hjs
    rw [List.foldl_cons]
    rcases List.mem_cons.1 hj with rfl | hj
    · refine ⟨d.code.size, ?_, ?_⟩
      · rw [lookup_foldl_join_of_notMem span hjs.1]
        exact (Scope.lookup_define ..).trans (if_pos rfl)
      · have hops : (d.join span j).ops = d.ops ++ [.unify j.left j.right] := ops_write
        rw [ops_foldl_join, hops, List.append_assoc, ← d.length_ops,
          List.getElem?_append_right (le_refl _), Nat.sub_self]
        rfl
    · exact ih hjs.2 hj (d.join span k)

/-- **Joined bindings.**  Behind a join a name is bound to what both paths agree on, or to a `unify`
of their bindings. -/
theorem lookup_joined {d : Draft} (hd : (d.scope.map (·.1)).Nodup) (other : Scope) (span : Span)
    {x : Name} {l r : Nat} (hl : d.scope.lookup x = some l) (hr : other.lookup x = some r) :
    ∃ u, (d.joined other span).scope.lookup x = some u ∧
      (u = l ∧ r = l ∨ (d.joined other span).ops[u]? = some (.unify l r)) := by
  by_cases hne : r = l
  · refine ⟨l, ?_, Or.inl ⟨rfl, hne⟩⟩
    rw [joined, lookup_foldl_join_of_notMem, hl]
    intro hx
    obtain ⟨j, hj, rfl⟩ := List.mem_map.1 hx
    obtain ⟨hl', hr', hne'⟩ := (mem_joins hd).1 hj
    rw [hl] at hl'
    rw [hr] at hr'
    exact hne' ((Option.some.inj hr').symm.trans (hne.trans (Option.some.inj hl')))
  · have hj : (⟨x, l, r⟩ : Join) ∈ d.scope.joins other := (mem_joins hd).2 ⟨hl, hr, hne⟩
    obtain ⟨u, hu, hop⟩ := lookup_foldl_join_of_mem span (nodup_joins hd) hj d
    exact ⟨u, hu, Or.inr hop⟩

end Draft

section

variable {decls : List Name} {d : Draft}

/-- Writing one join lets the draft grow. -/
theorem Draft.Sound.grows_join (hd : d.Sound decls) {j : Join} (span : Span)
    (hl : nameOf decls d.ops j.left = some j.name)
    (hr : nameOf decls d.ops j.right = some j.name) (hx : (d.scope.lookup j.name).isSome) :
    d.Grows decls (d.join span j) [] := by
  have hoperands : ∀ o ∈ (Op.unify j.left j.right).operands, o < d.code.size := by
    have hlt := lt_length_of_nameOf hl
    have hlt' := lt_length_of_nameOf hr
    rw [d.length_ops] at hlt hlt'
    simp [Op.operands, hlt, hlt']
  have hjoined : ∀ l r, Op.unify j.left j.right = .unify l r →
      ∃ x, nameOf decls d.ops l = some x ∧ nameOf decls d.ops r = some x := by
    intro l r h
    cases h
    exact ⟨j.name, hl, hr⟩
  have hlabel : ∀ l, Op.unify j.left j.right = .label l →
      .label l ∉ d.ops ∧ l.number < d.labels.next := by
    intro l h
    cases h
  have hg := hd.grows_write _ span hoperands hjoined hlabel
  have hname : nameOf decls (d.write (.unify j.left j.right) span).ops d.code.size =
      some j.name := by
    rw [Draft.ops_write, ← d.length_ops, nameOf_concat_self]
    exact hl
  have hg' := hg.sound.grows_setScope (hg.sound.scope.define hname) (.define hx _)
  -- the event that is reported does not matter
  exact ⟨⟨hg'.sound.code, hg'.sound.scope⟩, (hg.trans hg').ops, (hg.trans hg').names,
    (hg.trans hg').next_le, (hg.trans hg').labels, (hg.trans hg').jumps⟩

/-- Joins let the draft grow. -/
theorem Draft.Sound.grows_foldl_join (hd : d.Sound decls) (span : Span) {js : List Join}
    (hjs : ∀ j ∈ js, nameOf decls d.ops j.left = some j.name ∧
      nameOf decls d.ops j.right = some j.name ∧ (d.scope.lookup j.name).isSome) :
    d.Grows decls (js.foldl (Draft.join span) d) [] := by
  induction js generalizing d with
  | nil => exact .refl hd
  | cons j js ih =>
    obtain ⟨hl, hr, hx⟩ := hjs j List.mem_cons_self
    have hg := hd.grows_join span hl hr hx
    refine hg.trans (ih hg.sound fun k hk => ?_)
    obtain ⟨hl', hr', hx'⟩ := hjs k (List.mem_cons_of_mem j hk)
    refine ⟨?_, ?_, ?_⟩
    · rw [nameOf_of_isPrefix hg.ops (lt_length_of_nameOf hl'), hl']
    · rw [nameOf_of_isPrefix hg.ops (lt_length_of_nameOf hr'), hr']
    · rw [hg.names, hx']

/-- Some of the joins with a sound scope let the draft grow. -/
theorem Draft.Sound.grows_of_subset_joins (hd : d.Sound decls) {other : Scope}
    (hother : ScopeSound decls d.ops other) (span : Span) {js : List Join}
    (hjs : js ⊆ d.scope.joins other) : d.Grows decls (js.foldl (Draft.join span) d) [] := by
  refine hd.grows_foldl_join span fun j hj => ?_
  obtain ⟨hl, hr, -⟩ := (mem_joins hd.scope.nodup).1 (hjs hj)
  refine ⟨hd.scope.names _ _ hl, hother.names _ _ hr, ?_⟩
  rw [hl]
  rfl

/-- Joining with a sound scope lets the draft grow. -/
theorem Draft.Sound.grows_joined (hd : d.Sound decls) {other : Scope}
    (hother : ScopeSound decls d.ops other) (span : Span) :
    d.Grows decls (d.joined other span) [] :=
  hd.grows_of_subset_joins hother span (List.Subset.refl _)

end

/-! ## Conditionals and loops -/

namespace Draft

/-- Draw a label number. -/
def draw (d : Draft) : Draft := { d with labels := ⟨d.labels.next + 1⟩ }

/-- Begin the first branch of a conditional, behind its condition. -/
def beginThen (d : Draft) (cond : Nat) (span : Span) : Draft :=
  d.draw.write (.branchNot cond (.ifElse d.labels.next)) span

/-- Begin the second branch of conditional `n`, with the bindings behind its condition. -/
def beginElse (d : Draft) (n : Nat) (scope : Scope) (span : Span) : Draft :=
  { (d.write (.goto (.ifDone n)) span).write (.label (.ifElse n)) span with scope }

/-- End conditional `n`, with the bindings of its first branch. -/
def endIte (d : Draft) (n : Nat) (scope : Scope) (span : Span) : Draft :=
  { d with scope }.write (.label (.ifDone n)) span

/-- Begin the condition of a loop. -/
def beginLoop (d : Draft) (span : Span) : Draft :=
  d.draw.write (.label (.whileCond d.labels.next)) span

/-- Begin the body of loop `n`, behind its condition. -/
def beginBody (d : Draft) (n cond : Nat) (span : Span) : Draft :=
  d.write (.branchNot cond (.whileEnd n)) span

/-- End loop `n`, with the bindings behind its condition. -/
def endLoop (d : Draft) (n : Nat) (scope : Scope) (span : Span) : Draft :=
  ({ d with scope }.write (.goto (.whileCond n)) span).write (.label (.whileEnd n)) span

end Draft

section

variable {α : Type} (d : Draft)

/-! What a step that cannot fail passes on. -/

theorem emit_bind (op : Op) (span : Span) (f : Nat → Lower α) :
    (emit op span >>= f) d = f d.code.size (d.write op span) := rfl

theorem freshLabel_bind (f : Nat → Lower α) :
    (freshLabel >>= f) d = f d.labels.next d.draw := rfl

theorem currentScope_bind (f : Scope → Lower α) : (currentScope >>= f) d = f d.scope d := rfl

theorem setScope_bind (scope : Scope) (f : Unit → Lower α) :
    (setScope scope >>= f) d = f () { d with scope } := rfl

end

section

variable {receiver : Bool} {d d' : Draft} {cond : Source.Expr} {span : Span}

/-- **Inversion of conditionals.** -/
theorem exists_of_lowerStmt_ite {s t : Source.Stmt}
    (h : lowerStmt receiver (.ite cond s t span) d = .ok ((), d')) :
    ∃ c d₁ d₂ d₃, lowerExpr receiver cond d = .ok (c, d₁) ∧
      lowerStmt receiver s (d₁.beginThen c span) = .ok ((), d₂) ∧
      lowerStmt receiver t (d₂.beginElse d₁.labels.next d₁.scope span) = .ok ((), d₃) ∧
      d' = (d₃.endIte d₁.labels.next d₂.scope span).joined d₃.scope span := by
  obtain ⟨c, d₁, hcond, h⟩ := bind_eq_ok h
  rw [freshLabel_bind, emit_bind, currentScope_bind] at h
  obtain ⟨⟨⟩, d₂, hs, h⟩ := bind_eq_ok h
  rw [emit_bind, emit_bind, currentScope_bind, setScope_bind] at h
  obtain ⟨⟨⟩, d₃, ht, h⟩ := bind_eq_ok h
  rw [currentScope_bind, setScope_bind, emit_bind, Draft.joinWith_apply] at h
  exact ⟨c, d₁, d₂, d₃, hcond, hs, ht, (congrArg Prod.snd (Except.ok.inj h)).symm⟩

/-- **Inversion of loops.** -/
theorem exists_of_lowerStmt_loop {s : Source.Stmt}
    (h : lowerStmt receiver (.loop cond s span) d = .ok ((), d')) :
    ∃ c d₁ d₂, lowerExpr receiver cond (d.beginLoop span) = .ok (c, d₁) ∧
      lowerStmt receiver s (d₁.beginBody d.labels.next c span) = .ok ((), d₂) ∧
      d' = (d₂.endLoop d.labels.next d₁.scope span).joined d₂.scope span := by
  rw [lowerStmt, freshLabel_bind, emit_bind] at h
  obtain ⟨c, d₁, hcond, h⟩ := bind_eq_ok h
  rw [emit_bind, currentScope_bind] at h
  obtain ⟨⟨⟩, d₂, hs, h⟩ := bind_eq_ok h
  rw [currentScope_bind, setScope_bind, emit_bind, emit_bind, Draft.joinWith_apply] at h
  exact ⟨c, d₁, d₂, hcond, hs, (congrArg Prod.snd (Except.ok.inj h)).symm⟩

end

/-! ## Statements let the draft grow -/

namespace Draft.Sound

variable {decls : List Name} {d : Draft}

theorem grows_draw (hd : d.Sound decls) : d.Grows decls d.draw [] :=
  ⟨⟨⟨hd.code.operands, hd.code.joined, hd.code.unique,
      fun l hl => Nat.lt_succ_of_lt (hd.code.labels_lt l hl)⟩, hd.scope⟩,
    List.prefix_rfl, .refl _, Nat.le_succ _, fun _ h => Or.inl h,
    fun op hop _ hl => Or.inl ⟨op, hop, hl⟩⟩

/-- A label with a number that has not been drawn yet is new. -/
theorem label_notMem (hd : d.Sound decls) {l : Label} (hl : d.labels.next ≤ l.number) :
    .label l ∉ d.ops := fun hmem => absurd (hd.code.labels_lt l hmem) (not_lt.2 hl)

/-- Writing a jump. -/
theorem grows_jump (hd : d.Sound decls) (op : Op) (span : Span) {l : Label}
    (hoperands : ∀ o ∈ op.operands, o < d.code.size) (htarget : op.target = some l) :
    d.Grows decls (d.write op span) [l] := by
  have hg := hd.grows_write op span hoperands (fun _ _ hop => ?_) (fun _ hop => ?_)
  · have hlabel : op.labelHere = none := by cases op <;> first | rfl | cases htarget
    rwa [hlabel, htarget] at hg
  · rw [hop] at htarget
    cases htarget
  · rw [hop] at htarget
    cases htarget

/-- Writing a label. -/
theorem grows_label (hd : d.Sound decls) (span : Span) {l : Label} (hl : .label l ∉ d.ops)
    (hlt : l.number < d.labels.next) : d.Grows decls (d.write (.label l) span) [l] :=
  hd.grows_write _ span (fun _ => nofun) (fun _ _ => nofun) fun l' h => by
    cases h
    exact ⟨hl, hlt⟩

/-- Going into the first branch of a conditional. -/
theorem grows_beginThen (hd : d.Sound decls) {c : Nat} (hc : c < d.code.size) (span : Span) :
    d.Grows decls (d.beginThen c span) [.ifElse d.labels.next] :=
  hd.grows_draw.trans (hd.grows_draw.sound.grows_jump _ span
    (fun _ ho => List.mem_singleton.1 ho ▸ hc) rfl)

/-- Going into the second branch, with the bindings behind the condition. -/
theorem grows_beginElse (hd : d.Sound decls) {n : Nat} {scope : Scope}
    (hscope : ScopeSound decls d.ops scope) (hnames : SameNames d.scope scope) (span : Span)
    (hl : .label (.ifElse n) ∉ d.ops) (hlt : n < d.labels.next) :
    d.Grows decls (d.beginElse n scope span) [.ifDone n, .ifElse n] := by
  have hg₁ := hd.grows_jump (.goto (.ifDone n)) span (fun _ => nofun) rfl
  have hl' : .label (.ifElse n) ∉ (d.write (.goto (.ifDone n)) span).ops := by
    rw [Draft.ops_write, List.mem_append, not_or]
    exact ⟨hl, by simp⟩
  have hg₂ := hg₁.sound.grows_label span hl' hlt
  exact (hg₁.trans hg₂).trans (hg₂.sound.grows_setScope
    (hscope.mono (hg₁.trans hg₂).ops) hnames)

/-- The end of a conditional, with the bindings of one of its branches. -/
theorem grows_endIte (hd : d.Sound decls) {n : Nat} {scope : Scope}
    (hscope : ScopeSound decls d.ops scope) (hnames : SameNames d.scope scope) (span : Span)
    (hl : .label (.ifDone n) ∉ d.ops) (hlt : n < d.labels.next) :
    d.Grows decls (d.endIte n scope span) [.ifDone n] := by
  have hg := hd.grows_setScope hscope hnames
  exact hg.trans (hg.sound.grows_label span hl hlt)

/-- Going into a loop. -/
theorem grows_beginLoop (hd : d.Sound decls) (span : Span) :
    d.Grows decls (d.beginLoop span) [.whileCond d.labels.next] :=
  hd.grows_draw.trans (hd.grows_draw.sound.grows_label span
    (hd.label_notMem (l := .whileCond d.labels.next) (le_refl _)) (Nat.lt_succ_self _))

/-- Going into the body of a loop. -/
theorem grows_beginBody (hd : d.Sound decls) {c : Nat} (hc : c < d.code.size) (n : Nat)
    (span : Span) : d.Grows decls (d.beginBody n c span) [.whileEnd n] :=
  hd.grows_jump _ span (fun _ ho => List.mem_singleton.1 ho ▸ hc) rfl

/-- The end of a loop, with the bindings behind its condition. -/
theorem grows_endLoop (hd : d.Sound decls) {n : Nat} {scope : Scope}
    (hscope : ScopeSound decls d.ops scope) (hnames : SameNames d.scope scope) (span : Span)
    (hl : .label (.whileEnd n) ∉ d.ops) (hlt : n < d.labels.next) :
    d.Grows decls (d.endLoop n scope span) [.whileCond n, .whileEnd n] := by
  have hg₁ := hd.grows_setScope hscope hnames
  have hg₂ := hg₁.sound.grows_jump (.goto (.whileCond n)) span (fun _ => nofun) rfl
  have hl' : .label (.whileEnd n) ∉
      ({ d with scope : Draft }.write (.goto (.whileCond n)) span).ops := by
    rw [Draft.ops_write, List.mem_append, not_or]
    exact ⟨hl, by simp⟩
  exact (hg₁.trans hg₂).trans (hg₂.sound.grows_label span hl' hlt)

end Draft.Sound

/-- The growth of a draft along a conditional, piece by piece. -/
structure IteGrows (decls : List Name) (d d₁ d₂ d₃ : Draft) (c : Nat) (span : Span) : Prop where
  cond : d.Grows decls d₁ []
  beginThen : d₁.Grows decls (d₁.beginThen c span) [.ifElse d₁.labels.next]
  thenBranch : (d₁.beginThen c span).Grows decls d₂ []
  beginElse : d₂.Grows decls (d₂.beginElse d₁.labels.next d₁.scope span)
    [.ifDone d₁.labels.next, .ifElse d₁.labels.next]
  elseBranch : (d₂.beginElse d₁.labels.next d₁.scope span).Grows decls d₃ []
  endIte : d₃.Grows decls (d₃.endIte d₁.labels.next d₂.scope span) [.ifDone d₁.labels.next]
  joined : (d₃.endIte d₁.labels.next d₂.scope span).Grows decls
    ((d₃.endIte d₁.labels.next d₂.scope span).joined d₃.scope span) []

/-- The growth of a draft along a loop, piece by piece. -/
structure LoopGrows (decls : List Name) (d d₁ d₂ : Draft) (c : Nat) (span : Span) : Prop where
  beginLoop : d.Grows decls (d.beginLoop span) [.whileCond d.labels.next]
  cond : (d.beginLoop span).Grows decls d₁ []
  beginBody : d₁.Grows decls (d₁.beginBody d.labels.next c span) [.whileEnd d.labels.next]
  body : (d₁.beginBody d.labels.next c span).Grows decls d₂ []
  endLoop : d₂.Grows decls (d₂.endLoop d.labels.next d₁.scope span)
    [.whileCond d.labels.next, .whileEnd d.labels.next]
  joined : (d₂.endLoop d.labels.next d₁.scope span).Grows decls
    ((d₂.endLoop d.labels.next d₁.scope span).joined d₂.scope span) []

section

variable {decls : List Name} {d d₁ d₂ d₃ : Draft} {c : Nat}

theorem SameNames.symm {s t : Scope} (h : SameNames s t) : SameNames t s := fun x => (h x).symm

/-- A conditional grows piece by piece, if its branches do. -/
theorem IteGrows.of_branches (hcond : d.Grows decls d₁ [] ∧ c < d₁.code.size) (span : Span)
    (hthen : (d₁.beginThen c span).Sound decls → (d₁.beginThen c span).Grows decls d₂ [])
    (helse : (d₂.beginElse d₁.labels.next d₁.scope span).Sound decls →
      (d₂.beginElse d₁.labels.next d₁.scope span).Grows decls d₃ []) :
    IteGrows decls d d₁ d₂ d₃ c span := by
  have hbegin := hcond.1.sound.grows_beginThen hcond.2 span
  have hthen' := hthen hbegin.sound
  have hfresh : ∀ l : Label, l.number = d₁.labels.next → .label l ∉ d₂.ops := by
    intro l hl
    have hnew := hcond.1.sound.label_notMem (le_of_eq hl.symm)
    refine hthen'.notMem ?_ (hl ▸ Nat.lt_succ_self _)
    rw [Draft.beginThen, Draft.ops_write, List.mem_append, not_or]
    exact ⟨hnew, by simp⟩
  have hscope := hcond.1.sound.scope.mono (hbegin.trans hthen').ops
  have hbegin' := hthen'.sound.grows_beginElse hscope (hbegin.trans hthen').names.symm span
    (hfresh _ rfl) (lt_of_lt_of_le (Nat.lt_succ_self _) hthen'.next_le)
  have helse' := helse hbegin'.sound
  have hdone : .label (.ifDone d₁.labels.next) ∉ d₃.ops := by
    refine helse'.notMem ?_ (lt_of_lt_of_le (Nat.lt_succ_self _) hthen'.next_le)
    have hnew := hfresh (.ifDone d₁.labels.next) rfl
    show .label (.ifDone d₁.labels.next) ∉
      ((d₂.write (.goto (.ifDone d₁.labels.next)) span).write (.label (.ifElse d₁.labels.next))
        span).ops
    rw [Draft.ops_write, Draft.ops_write]
    simp [hnew]
  have hend := helse'.sound.grows_endIte (hthen'.sound.scope.mono (hbegin'.trans helse').ops)
    (hbegin'.trans helse').names.symm span hdone
    (lt_of_lt_of_le (Nat.lt_succ_self _) (le_trans hthen'.next_le helse'.next_le))
  exact ⟨hcond.1, hbegin, hthen', hbegin', helse', hend,
    hend.sound.grows_joined (helse'.sound.scope.mono hend.ops) span⟩

/-- **A conditional lets the draft grow.** -/
theorem IteGrows.grows {span : Span} (h : IteGrows decls d d₁ d₂ d₃ c span) :
    d.Grows decls ((d₃.endIte d₁.labels.next d₂.scope span).joined d₃.scope span) [] := by
  have hall := (((((h.cond.trans h.beginThen).trans h.thenBranch).trans h.beginElse).trans
    h.elseBranch).trans h.endIte).trans h.joined
  have helse : .label (.ifElse d₁.labels.next) ∈
      (d₂.beginElse d₁.labels.next d₁.scope span).ops := by
    rw [show (d₂.beginElse d₁.labels.next d₁.scope span).ops = _ from Draft.ops_write]
    exact List.mem_append_right _ List.mem_cons_self
  have hdone : .label (.ifDone d₁.labels.next) ∈
      (d₃.endIte d₁.labels.next d₂.scope span).ops := by
    rw [Draft.endIte, Draft.ops_write]
    exact List.mem_append_right _ List.mem_cons_self
  refine hall.finish fun l hl => ?_
  have hcases : l = .ifElse d₁.labels.next ∨ l = .ifDone d₁.labels.next := by grind
  rcases hcases with rfl | rfl
  · exact ⟨((h.elseBranch.trans h.endIte).trans h.joined).ops.subset helse, h.cond.next_le⟩
  · exact ⟨h.joined.ops.subset hdone, h.cond.next_le⟩

/-- A loop grows piece by piece, if its parts do. -/
theorem LoopGrows.of_parts (hd : d.Sound decls) (span : Span)
    (hcond : (d.beginLoop span).Sound decls →
      (d.beginLoop span).Grows decls d₁ [] ∧ c < d₁.code.size)
    (hbody : (d₁.beginBody d.labels.next c span).Sound decls →
      (d₁.beginBody d.labels.next c span).Grows decls d₂ []) :
    LoopGrows decls d d₁ d₂ c span := by
  have hbegin := hd.grows_beginLoop span
  obtain ⟨hcond', hc⟩ := hcond hbegin.sound
  have hbegin' := hcond'.sound.grows_beginBody hc d.labels.next span
  have hbody' := hbody hbegin'.sound
  have hlt : d.labels.next < d₁.labels.next :=
    lt_of_lt_of_le (Nat.lt_succ_self _) hcond'.next_le
  have hfresh : .label (.whileEnd d.labels.next) ∉ d₂.ops := by
    refine hbody'.notMem ?_ hlt
    rw [Draft.beginBody, Draft.ops_write, List.mem_append, not_or]
    refine ⟨hcond'.notMem ?_ (Nat.lt_succ_self _), by simp⟩
    rw [Draft.beginLoop, Draft.ops_write, List.mem_append, not_or]
    exact ⟨hd.label_notMem (l := .whileEnd d.labels.next) (le_refl _), by simp⟩
  have hend := hbody'.sound.grows_endLoop (hcond'.sound.scope.mono (hbegin'.trans hbody').ops)
    (hbegin'.trans hbody').names.symm span hfresh (lt_of_lt_of_le hlt hbody'.next_le)
  exact ⟨hbegin, hcond', hbegin', hbody', hend,
    hend.sound.grows_joined (hbody'.sound.scope.mono hend.ops) span⟩

/-- **A loop lets the draft grow.** -/
theorem LoopGrows.grows {span : Span} (h : LoopGrows decls d d₁ d₂ c span) :
    d.Grows decls ((d₂.endLoop d.labels.next d₁.scope span).joined d₂.scope span) [] := by
  have hrest := (((h.cond.trans h.beginBody).trans h.body).trans h.endLoop).trans h.joined
  have hbegin : .label (.whileCond d.labels.next) ∈ (d.beginLoop span).ops := by
    rw [Draft.beginLoop, Draft.ops_write]
    exact List.mem_append_right _ List.mem_cons_self
  have hend : .label (.whileEnd d.labels.next) ∈
      (d₂.endLoop d.labels.next d₁.scope span).ops := by
    rw [Draft.endLoop, Draft.ops_write]
    exact List.mem_append_right _ List.mem_cons_self
  refine (h.beginLoop.trans hrest).finish fun l hl => ?_
  have hcases : l = .whileCond d.labels.next ∨ l = .whileEnd d.labels.next := by grind
  rcases hcases with rfl | rfl
  · exact ⟨hrest.ops.subset hbegin, le_refl _⟩
  · exact ⟨h.joined.ops.subset hend, le_refl _⟩

end

section

variable {decls : List Name} {receiver : Bool}

mutual

/-- **Lowering a statement lets the draft grow.** -/
theorem grows_lowerStmt {d d' : Draft} (s : Source.Stmt)
    (h : lowerStmt receiver s d = .ok ((), d')) (hd : d.Sound decls) : d.Grows decls d' [] := by
  match s with
  | .block body _ => exact grows_lowerStmts body h hd
  | .ite cond s t span =>
    obtain ⟨c, d₁, d₂, d₃, hcond, hs, ht, rfl⟩ := exists_of_lowerStmt_ite h
    exact (IteGrows.of_branches (grows_lowerExpr cond hcond hd) span (grows_lowerStmt s hs)
      (grows_lowerStmt t ht)).grows
  | .loop cond s span =>
    obtain ⟨c, d₁, d₂, hcond, hs, rfl⟩ := exists_of_lowerStmt_loop h
    exact (LoopGrows.of_parts hd span (grows_lowerExpr cond hcond) (grows_lowerStmt s hs)).grows
  | .print value span =>
    obtain ⟨v, d₁, h₁, h⟩ := bind_eq_ok h
    obtain ⟨i, d₂, h₂, h⟩ := bind_eq_ok h
    cases h
    obtain ⟨hg₁, hv⟩ := grows_lowerExpr value h₁ hd
    exact hg₁.trans (hg₁.sound.grows_emit h₂ (by simp [Op.operands, hv]) rfl rfl rfl).1
  | .expr value _ =>
    obtain ⟨v, d₁, h₁, h⟩ := bind_eq_ok h
    cases h
    exact (grows_lowerExpr value h₁ hd).1

theorem grows_lowerStmts {d d' : Draft} (ss : List Source.Stmt)
    (h : lowerStmts receiver ss d = .ok ((), d')) (hd : d.Sound decls) : d.Grows decls d' [] := by
  match ss with
  | [] =>
    cases h
    exact .refl hd
  | s :: ss =>
    obtain ⟨⟨⟩, d₁, h₁, h⟩ := bind_eq_ok h
    have hg₁ := grows_lowerStmt s h₁ hd
    exact hg₁.trans (grows_lowerStmts ss h hg₁.sound)

end

end

end Backend.Lowering
