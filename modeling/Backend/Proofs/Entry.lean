/-
# Nothing is read before it is written

Liveness runs backwards, and so does the argument.  If all that is needed behind a piece of lowered
code is what its names stand for, what the piece computes and some other values, then all that is
needed in front of it is what the names stand for there and those other values (`Draft.Supplies`).
A loop needs what its own beginning needs; there the argument goes over paths of bounded length
(`Body.NeededWithin`).  In front of all declarations no name stands for anything, so nothing is
needed, and neither pins nor rounds of spilling change that (`clearOnEntry_of_lower`).
-/
import Mathlib
import Backend.Proofs.Behaviour
import Backend.Proofs.Compilation
import Backend.Proofs.Loops

namespace Backend

/-! ## Paths of bounded length -/

namespace Body

/-- The value of the class of an instruction is needed at a position because of a path of at most so
many instructions. -/
def NeededWithin (b : Body) (x : Nat) : Nat → Nat → Prop
  | 0, _ => False
  | k + 1, p => ∃ id i, b.toList[p]? = some (id, i) ∧
      ((∃ o ∈ readsOf id i.op, b.Linked o x) ∨
        ((i.op.definesValue = true → ¬ b.Linked id x) ∧
          ∃ q, b.Passes p q ∧ NeededWithin b x k q))

theorem NeededWithin.mono {b : Body} {x k p : Nat} (h : b.NeededWithin x k p) :
    b.NeededWithin x (k + 1) p := by
  induction k generalizing p with
  | zero => exact h.elim
  | succ k ih =>
    obtain ⟨id, i, hp, hread | ⟨hd, q, hq, hneed⟩⟩ := h
    · exact ⟨id, i, hp, Or.inl hread⟩
    · exact ⟨id, i, hp, Or.inr ⟨hd, q, hq, ih hneed⟩⟩

theorem LiveAt.exists_within {b : Body} {x p : Nat} (h : b.LiveAt x p) :
    ∃ k, b.NeededWithin x k p := by
  induction h with
  | use hp ho hlink => exact ⟨1, _, _, hp, Or.inl ⟨_, ho, hlink⟩⟩
  | pass hp hd hq _ ih =>
    obtain ⟨k, hk⟩ := ih
    exact ⟨k + 1, _, _, hp, Or.inr ⟨hd, _, hq, hk⟩⟩

/-- Paths of at most `k` instructions from a position need only classes of the given
instructions. -/
def NeedsOnly (b : Body) (k p : Nat) (S : Set Nat) : Prop :=
  ∀ x, b.NeededWithin x k p → ∃ i ∈ S, b.Linked i x

namespace NeedsOnly

variable {b : Body} {k p : Nat} {S S' : Set Nat}

theorem zero (b : Body) (p : Nat) (S : Set Nat) : b.NeedsOnly 0 p S := fun _ h => h.elim

theorem pred (h : b.NeedsOnly (k + 1) p S) : b.NeedsOnly k p S := fun x hx => h x hx.mono

theorem mono_le {j : Nat} (h : b.NeedsOnly k p S) (hjk : j ≤ k) : b.NeedsOnly j p S := by
  induction hjk with
  | refl => exact h
  | step _ ih => exact ih h.pred

/-- Other instructions of the same classes. -/
theorem of_linked (h : b.NeedsOnly k p S) (hS : ∀ i ∈ S, ∃ j ∈ S', b.Linked j i) :
    b.NeedsOnly k p S' := by
  intro x hx
  obtain ⟨i, hi, hix⟩ := h x hx
  obtain ⟨j, hj, hji⟩ := hS i hi
  exact ⟨j, hj, b.linked_equivalence.trans hji hix⟩

theorem mono (h : b.NeedsOnly k p S) (hS : S ⊆ S') : b.NeedsOnly k p S' :=
  h.of_linked fun i hi => ⟨i, hS hi, b.linked_equivalence.refl i⟩

/-- More values at hand. -/
theorem beside (h : b.NeedsOnly k p (S ∪ S')) (V : Set Nat) : b.NeedsOnly k p (S ∪ (V ∪ S')) :=
  h.mono (Set.union_subset_union_right _ Set.subset_union_right)

end NeedsOnly

end Body

namespace Lowering

/-! ## One instruction of finished code -/

/-- The instructions that the names of a scope stand for. -/
def Scope.ids (scope : Scope) : Set Nat := {i | ∃ x, scope.lookup x = some i}

theorem Scope.ids_define (scope : Scope) (x : Name) (id : Nat) {i : Nat}
    (hi : i ∈ (scope.define x id).ids) : i ∈ scope.ids ∨ i = id := by
  obtain ⟨y, hy⟩ := hi
  rw [Scope.lookup_define] at hy
  split at hy
  · exact Or.inr (Option.some.inj hy).symm
  · exact Or.inl ⟨y, hy⟩

section

variable {decls : List Name} {D d d' d'' : Draft} {op : Op} {span : Span} {k p : Nat}
  {S S' : Set Nat}

/-- **Step lemma.**  In front of an instruction are needed what it reads and what is needed behind
it, up to what it writes. -/
theorem needsOnly_step (hp : D.ops[p]? = some op)
    (hread : ∀ o ∈ Body.readsOf p op, ∃ i ∈ S, D.body.Linked i o)
    (hpass : ∀ q, D.body.Passes p q → D.body.NeedsOnly k q S')
    (hS : ∀ i ∈ S', i ∈ S ∨ i = p ∧ op.definesValue = true) : D.body.NeedsOnly (k + 1) p S := by
  intro x hx
  obtain ⟨id, i, hentry, hcases⟩ := hx
  obtain ⟨rfl, hop⟩ := Lowered.eq_of_getElem?_toList hentry
  obtain rfl : op = i.op := Option.some.inj (hp.symm.trans hop)
  rcases hcases with ⟨o, ho, hox⟩ | ⟨hwrite, q, hq, hneed⟩
  · obtain ⟨j, hj, hjo⟩ := hread o ho
    exact ⟨j, hj, D.body.linked_equivalence.trans hjo hox⟩
  · obtain ⟨j, hj, hjx⟩ := hpass q hq x hneed
    rcases hS j hj with hj | ⟨rfl, hdef⟩
    · exact ⟨j, hj, hjx⟩
    · exact absurd hjx (hwrite hdef)

/-- Control passes from an instruction to the next one, or to the label it may jump to. -/
theorem Draft.cases_passes {q : Nat} (hp : D.ops[p]? = some op) (h : D.body.Passes p q) :
    op.isGoto = false ∧ q = p + 1 ∨ ∃ l, op.target = some l ∧ D.ops[q]? = some (.label l) := by
  rw [Body.Passes, D.ops_body, hp] at h
  rcases h with ⟨op', hop, hgoto, hq, -⟩ | ⟨op', l, hop, hl, hq⟩
  · cases hop
    exact Or.inl ⟨hgoto, hq⟩
  · cases hop
    obtain ⟨⟨op', hop', hhere⟩, -⟩ := FlowGraph.labelPosition?_eq_some.1 hq
    refine Or.inr ⟨l, hl, ?_⟩
    rw [hop']
    cases op' <;> cases hhere
    rfl

/-- Writing an instruction that does not jump. -/
theorem needsOnly_write (hD : (d.write op span).ops <+: D.ops) (hunify : op.isUnify = false)
    (htarget : op.target = none) (hread : ∀ o ∈ op.operands, o ∈ S)
    (hnext : D.body.NeedsOnly k (d.write op span).code.size S')
    (hS : ∀ i ∈ S', i ∈ S ∨ i = d.code.size ∧ op.definesValue = true) :
    D.body.NeedsOnly k d.code.size S := by
  have hp := getElem?_of_isPrefix hD (d.getElem?_ops_write_self op span)
  refine (needsOnly_step hp (fun o ho => ?_) (fun q hq => ?_) hS).pred
  · rw [Body.readsOf, hunify] at ho
    exact ⟨o, hread o ho, D.body.linked_equivalence.refl o⟩
  · rcases Draft.cases_passes hp hq with ⟨-, rfl⟩ | ⟨l, hl, -⟩
    · rwa [Draft.size_write] at hnext
    · rw [htarget] at hl
      cases hl

/-- Writing a label. -/
theorem needsOnly_label {l : Label} (hD : (d.write (.label l) span).ops <+: D.ops)
    (hnext : D.body.NeedsOnly k (d.write (.label l) span).code.size S) :
    D.body.NeedsOnly k d.code.size S :=
  needsOnly_write hD rfl rfl (fun _ => nofun) hnext fun _ hi => Or.inl hi

/-- Writing a jump to a label.  A path through it is one instruction longer than its rest. -/
theorem needsOnly_jump (hfin : D.Finished decls) (hD : (d.write op span).ops <+: D.ops) {l : Label}
    {q : Nat} (htarget : op.target = some l) (hq : D.ops[q]? = some (.label l))
    (hread : ∀ o ∈ op.operands, o ∈ S) (hland : D.body.NeedsOnly k q S)
    (hnext : op.isGoto = false → D.body.NeedsOnly k (d.write op span).code.size S) :
    D.body.NeedsOnly (k + 1) d.code.size S := by
  have hp := getElem?_of_isPrefix hD (d.getElem?_ops_write_self op span)
  have hunify : op.isUnify = false := by cases op <;> first | rfl | cases htarget
  refine needsOnly_step hp (fun o ho => ?_) (fun r hr => ?_) fun _ hi => Or.inl hi
  · rw [Body.readsOf, hunify] at ho
    exact ⟨o, hread o ho, D.body.linked_equivalence.refl o⟩
  · rcases Draft.cases_passes hp hr with ⟨hgoto, rfl⟩ | ⟨l', hl', hr⟩
    · rw [← Draft.size_write]
      exact hnext hgoto
    · obtain rfl : l = l' := Option.some.inj (htarget.symm.trans hl')
      rw [hfin.code.unique r q l hr hq]
      exact hland

/-- Behind the last instruction nothing is needed. -/
theorem needsOnly_size (D : Draft) (k : Nat) (S : Set Nat) : D.body.NeedsOnly k D.code.size S := by
  intro x hx
  cases k with
  | zero => exact hx.elim
  | succ k =>
    obtain ⟨id, i, hentry, -⟩ := hx
    have hlt := (List.getElem?_eq_some_iff.1 (Lowered.eq_of_getElem?_toList hentry).2).1
    rw [D.length_ops] at hlt
    omega

/-! ## Pieces of code -/

/-- The code between two drafts supplies some values: if they, what the names stand for and other
values are all that is needed behind it, what the names stand for and the other values are all that
is needed in front of it. -/
def Draft.Supplies (D d d' : Draft) (V : Set Nat) : Prop :=
  ∀ (k : Nat) (T : Set Nat), D.body.NeedsOnly k d'.code.size (d'.scope.ids ∪ (V ∪ T)) →
    D.body.NeedsOnly k d.code.size (d.scope.ids ∪ T)

namespace Draft.Supplies

variable {V W : Set Nat}

theorem refl (D d : Draft) : D.Supplies d d ∅ := by
  intro k T h
  rwa [Set.empty_union] at h

/-- What the names stand for is supplied by no code. -/
theorem of_mem (D : Draft) {i : Nat} (hi : i ∈ d.scope.ids) : D.Supplies d d {i} := by
  intro k T h
  refine h.mono ?_
  rintro j (hj | hj | hj)
  · exact Or.inl hj
  · rw [Set.mem_singleton_iff.1 hj]
    exact Or.inl hi
  · exact Or.inr hj

theorem mono (h : D.Supplies d d' V) (hV : W ⊆ V) : D.Supplies d d' W :=
  fun k T hk => h k T (hk.mono (Set.union_subset_union_right _ (Set.union_subset_union_left _ hV)))

theorem trans (h : D.Supplies d d' V) (h' : D.Supplies d' d'' W) : D.Supplies d d'' (V ∪ W) := by
  intro k T hk
  refine h k T (h' k (V ∪ T) ?_)
  rwa [← Set.union_assoc W V T, Set.union_comm W V]

/-- Writing an instruction that reads what has been supplied. -/
theorem write_also (h : D.Supplies d d' V) (hD : (d'.write op span).ops <+: D.ops)
    (hunify : op.isUnify = false) (htarget : op.target = none) (hdef : op.definesValue = true)
    (hread : ∀ o ∈ op.operands, o ∈ V) : D.Supplies d (d'.write op span) (V ∪ {d'.code.size}) := by
  intro k T hk
  refine h k T (needsOnly_write hD hunify htarget (fun o ho => Or.inr (Or.inl (hread o ho))) hk ?_)
  rintro i (hi | (hi | hi) | hi)
  · exact Or.inl (Or.inl hi)
  · exact Or.inl (Or.inr (Or.inl hi))
  · exact Or.inr ⟨hi, hdef⟩
  · exact Or.inl (Or.inr (Or.inr hi))

/-- Writing an assignment of what has been supplied. -/
theorem assign_also {v : Nat} {x : Name} (h : D.Supplies d d' V)
    (hD : (d'.assign v x span).ops <+: D.ops) (hv : v ∈ V) :
    D.Supplies d (d'.assign v x span) (V ∪ {d'.code.size}) := by
  intro k T hk
  refine h k T (needsOnly_write hD rfl rfl
    (fun o ho => List.mem_singleton.1 ho ▸ Or.inr (Or.inl hv)) hk ?_)
  rintro i (hi | (hi | hi) | hi)
  · rcases d'.scope.ids_define x _ hi with hi | rfl
    · exact Or.inl (Or.inl hi)
    · exact Or.inr ⟨rfl, rfl⟩
  · exact Or.inl (Or.inr (Or.inl hi))
  · exact Or.inr ⟨hi, rfl⟩
  · exact Or.inl (Or.inr (Or.inr hi))

/-- Writing an instruction for its effect. -/
theorem write (h : D.Supplies d d' V) (hD : (d'.write op span).ops <+: D.ops)
    (hunify : op.isUnify = false) (htarget : op.target = none)
    (hread : ∀ o ∈ op.operands, o ∈ V) : D.Supplies d (d'.write op span) ∅ := by
  intro k T hk
  rw [Set.empty_union] at hk
  exact h k T (needsOnly_write hD hunify htarget (fun o ho => Or.inr (Or.inl (hread o ho)))
    (hk.beside V) fun i hi => Or.inl hi)

end Draft.Supplies

end

/-! ## Expressions -/

section

variable {decls : List Name} {receiver : Bool} {D : Draft}

/-- Arguments are supplied where their values are. -/
theorem supplies_emitArgs {args : List (Nat × Span)} {start : Nat} {d₀ d d' : Draft}
    {ids : List Nat} {V : Set Nat} (h : emitArgs start args d = .ok (ids, d'))
    (hargs : ∀ a ∈ args, a.1 ∈ V) (hD : d'.ops <+: D.ops) (hV : D.Supplies d₀ d V) :
    D.Supplies d₀ d' (V ∪ {i | i ∈ ids}) := by
  induction args generalizing start d ids V with
  | nil =>
    cases h
    exact hV.mono (by simp)
  | cons a args ih =>
    obtain ⟨id, d₁, h₁, h⟩ := bind_eq_ok h
    obtain ⟨ids', d₂, h₂, h⟩ := bind_eq_ok h
    cases h
    obtain ⟨rfl, rfl⟩ := emit_eq_ok.1 h₁
    have hid := hV.write_also ((prefix_emitArgs h₂).trans hD) rfl rfl rfl
      fun o ho => List.mem_singleton.1 ho ▸ hargs a List.mem_cons_self
    have hrest : ∀ b ∈ args, b.1 ∈ V ∪ {d.code.size} := fun b hb =>
      Or.inl (hargs b (List.mem_cons_of_mem a hb))
    refine (ih h₂ hrest hid).mono ?_
    rintro i (hi | hi)
    · exact Or.inl (Or.inl hi)
    · rcases List.mem_cons.1 hi with rfl | hi
      · exact Or.inl (Or.inr rfl)
      · exact Or.inr hi

/-- **Step lemma.**  The values at hand have been supplied. -/
theorem Evaluation.Step.supplies {A : Name → Prop} {d : Draft} {s s' : Evaluation}
    (h : s.Step A s')
    (hs : s.draft.ops <+: D.ops → D.Supplies d s.draft {v | v ∈ s.values})
    (hD : s'.draft.ops <+: D.ops) : D.Supplies d s'.draft {v | v ∈ s'.values} := by
  have hs := hs (h.ops.trans hD)
  have hcons : ∀ id (vs : List Nat), {v | v ∈ id :: vs} ⊆ {v | v ∈ vs} ∪ {id} :=
    fun id vs v hv => (List.mem_cons.1 hv).symm
  cases h with
  | read hx => exact (hs.trans (.of_mem D ⟨_, hx⟩)).mono (hcons _ _)
  | write span hop hread =>
    exact (hs.write_also hD (isUnify_of_evaluating hop) (target_of_evaluating hop)
      (definesValue_of_evaluating hop) hread).mono (hcons _ _)
  | assign span hv _ _ => exact (hs.assign_also hD hv).mono (hcons _ _)
  | @call _ d₁ vs o _ ids method span hobject hargs h =>
    have hall := supplies_emitArgs h hargs ((d₁.prefix_write _ span).trans hD) hs
    have hread : ∀ i ∈ (Op.call o method ids).operands, i ∈ {v | v ∈ vs} ∪ {i | i ∈ ids} :=
      List.forall_mem_cons.2 ⟨Or.inl hobject, fun _ hi => Or.inr hi⟩
    refine (hall.write_also hD rfl rfl rfl hread).mono fun v hv => ?_
    exact (hcons _ _ hv).imp_left Or.inl

/-- **The code of an expression supplies its value.** -/
theorem supplies_lowerExpr {d d' : Draft} {id : Nat} (e : Source.Expr)
    (h : lowerExpr receiver e d = .ok (id, d')) (hD : d'.ops <+: D.ops) : D.Supplies d d' {id} := by
  obtain ⟨vs, hs⟩ := exists_steps_lowerExpr (A := fun _ => True) e (fun _ _ _ => trivial) h
  have hall := hs.keeps
    (P := fun s => s.draft.ops <+: D.ops → D.Supplies d s.draft {v | v ∈ s.values})
    (fun _ => (Draft.Supplies.refl D d).mono (by simp)) (fun _ _ hs step => step.supplies hs) hD
  exact hall.mono (Set.singleton_subset_iff.2 List.mem_cons_self)

end

/-! ## Statements -/

section

variable {decls : List Name} {D d : Draft} {k : Nat} {S : Set Nat} {T : Set Nat}

/-- In front of joins are needed what they tie together and what is needed behind them. -/
theorem needsOnly_foldl_join (span : Span) {js : List Join}
    (hD : (js.foldl (Draft.join span) d).ops <+: D.ops)
    (hjs : ∀ j ∈ js, ∃ i ∈ S, D.body.Linked i j.left)
    (hk : D.body.NeedsOnly k (js.foldl (Draft.join span) d).code.size S) :
    D.body.NeedsOnly k d.code.size S := by
  induction js generalizing d with
  | nil => exact hk
  | cons j js ih =>
    have hrest : (d.join span j).ops <+: (js.foldl (Draft.join span) (d.join span j)).ops := by
      rw [Draft.ops_foldl_join]
      exact List.prefix_append _ _
    have hnext := ih (d := d.join span j) hD (fun i hi => hjs i (List.mem_cons_of_mem j hi)) hk
    have hp : D.ops[d.code.size]? = some (.unify j.left j.right) :=
      getElem?_of_isPrefix (hrest.trans hD) (d.getElem?_ops_write_self _ span)
    refine (needsOnly_step hp (fun o ho => ?_) (fun q hq => ?_) fun i hi => Or.inl hi).pred
    · obtain ⟨i, hi, hlink⟩ := hjs j List.mem_cons_self
      rw [List.mem_singleton.1 ho]
      exact ⟨i, hi, D.body.linked_equivalence.trans hlink
        (D.body.linked_equivalence.symm (Draft.Finished.linked_of_unify hp).1)⟩
    · rcases Draft.cases_passes hp hq with ⟨-, rfl⟩ | ⟨l, hl, -⟩
      · rwa [show (d.join span j).code.size = d.code.size + 1 from d.size_write] at hnext
      · cases hl

/-- **Where paths meet**, what the names stand for behind the joins is at hand on both paths. -/
theorem needsOnly_joined (hd : d.Sound decls) {other : Scope} (hnames : SameNames d.scope other)
    {span : Span} (hg : d.Grows decls (d.joined other span) [])
    (hD : (d.joined other span).ops <+: D.ops)
    (hk : D.body.NeedsOnly k (d.joined other span).code.size ((d.joined other span).scope.ids ∪ T))
    {scope : Scope} (hscope : scope = d.scope ∨ scope = other) :
    D.body.NeedsOnly k d.code.size (scope.ids ∪ T) := by
  have hmeet : ∀ x l, d.scope.lookup x = some l → ∃ u i, i ∈ scope.ids ∧
      (d.joined other span).scope.lookup x = some u ∧ D.body.Linked i u ∧ D.body.Linked i l := by
    intro x l hl
    obtain ⟨r, hr⟩ : ∃ r, other.lookup x = some r := by
      rw [← Option.isSome_iff_exists, hnames x, hl]
      rfl
    obtain ⟨u, hu, hul, hur⟩ := linked_joined hd.scope.nodup hD hl hr
    have hlu := D.body.linked_equivalence.symm hul
    have hru := D.body.linked_equivalence.symm hur
    rcases hscope with rfl | rfl
    · exact ⟨u, l, ⟨x, hl⟩, hu, hlu, D.body.linked_equivalence.refl l⟩
    · exact ⟨u, r, ⟨x, hr⟩, hu, hru, D.body.linked_equivalence.trans hru hul⟩
  refine needsOnly_foldl_join span hD (fun j hj => ?_) (hk.of_linked ?_)
  · obtain ⟨-, i, hi, -, -, hlink⟩ := hmeet j.name j.left ((mem_joins hd.scope.nodup).1 hj).1
    exact ⟨i, Or.inl hi, hlink⟩
  · rintro u (⟨x, hx⟩ | hu)
    · obtain ⟨l, hl⟩ : ∃ l, d.scope.lookup x = some l := by
        rw [← Option.isSome_iff_exists, ← hg.names x, hx]
        rfl
      obtain ⟨u', i, hi, hu', hlink, -⟩ := hmeet x l hl
      obtain rfl : u = u' := Option.some.inj (hx.symm.trans hu')
      exact ⟨i, Or.inl hi, hlink⟩
    · exact ⟨u, Or.inr hu, D.body.linked_equivalence.refl u⟩

variable {d₁ d₂ d₃ : Draft} {c : Nat} {span : Span}

/-- **A conditional** needs no more than its condition and its branches do. -/
theorem IteGrows.supplies (h : IteGrows decls d d₁ d₂ d₃ c span) (hfin : D.Finished decls)
    (hD : ((d₃.endIte d₁.labels.next d₂.scope span).joined d₃.scope span).ops <+: D.ops)
    (hcond : D.Supplies d d₁ {c}) (hthen : D.Supplies (d₁.beginThen c span) d₂ ∅)
    (helse : D.Supplies (d₂.beginElse d₁.labels.next d₁.scope span) d₃ ∅) :
    D.Supplies d ((d₃.endIte d₁.labels.next d₂.scope span).joined d₃.scope span) ∅ := by
  intro k T hk
  rw [Set.empty_union] at hk
  have hend := h.joined.ops.trans hD
  have helse' := ((h.elseBranch.trans h.endIte).ops).trans hend
  have hthen' := ((h.thenBranch.trans h.beginElse).ops).trans helse'
  have hdone : D.ops[d₃.code.size]? = some (.label (.ifDone d₁.labels.next)) :=
    getElem?_of_isPrefix hend (Draft.getElem?_ops_write_self { d₃ with scope := d₂.scope } _ span)
  have hbegin : D.ops[(d₂.write (.goto (.ifDone d₁.labels.next)) span).code.size]? =
      some (.label (.ifElse d₁.labels.next)) :=
    getElem?_of_isPrefix helse' (Draft.getElem?_ops_write_self _ _ span)
  -- what is needed where the branches meet is at hand at the end of each
  have hmeet : ∀ {scope : Scope}, scope = d₂.scope ∨ scope = d₃.scope →
      D.body.NeedsOnly k d₃.code.size (scope.ids ∪ T) := fun hscope =>
    needsOnly_label (d := { d₃ with scope := d₂.scope }) hend
      (needsOnly_joined h.endIte.sound (h.beginElse.trans h.elseBranch).names h.joined hD hk hscope)
  have hstart := needsOnly_label helse' (helse k T (by
    rw [Set.empty_union]
    exact hmeet (Or.inr rfl)))
  have hleave : D.body.NeedsOnly k d₂.code.size (d₂.scope.ids ∪ T) :=
    (needsOnly_jump hfin ((Draft.prefix_write _ _ span).trans helse') rfl hdone (fun _ => nofun)
      (hmeet (Or.inl rfl)) (fun hgoto => by cases hgoto)).pred
  have hrun := hthen k T (by rwa [Set.empty_union])
  refine hcond k T (needsOnly_jump hfin hthen' rfl hbegin (fun o ho => ?_) (hstart.beside {c})
    fun _ => hrun.beside {c}).pred
  exact Or.inr (Or.inl (List.mem_singleton.1 ho))

/-- **A loop** needs no more than its condition and its body do.  What its beginning needs is needed
again where it goes back, so the argument is by the length of paths. -/
theorem LoopGrows.supplies (h : LoopGrows decls d d₁ d₂ c span) (hfin : D.Finished decls)
    (hD : ((d₂.endLoop d.labels.next d₁.scope span).joined d₂.scope span).ops <+: D.ops)
    (hcond : D.Supplies (d.beginLoop span) d₁ {c})
    (hbody : D.Supplies (d₁.beginBody d.labels.next c span) d₂ ∅) :
    D.Supplies d ((d₂.endLoop d.labels.next d₁.scope span).joined d₂.scope span) ∅ := by
  intro k T hk
  rw [Set.empty_union] at hk
  have hend := h.joined.ops.trans hD
  have hbody' := (h.body.trans h.endLoop).ops.trans hend
  have hbegin' := (h.cond.trans h.beginBody).ops.trans hbody'
  have hcondAt : D.ops[d.code.size]? = some (.label (.whileCond d.labels.next)) :=
    getElem?_of_isPrefix hbegin' (d.draw.getElem?_ops_write_self _ span)
  have hendAt : D.ops[(d₂.write (.goto (.whileCond d.labels.next)) span).code.size]? =
      some (.label (.whileEnd d.labels.next)) :=
    getElem?_of_isPrefix hend (Draft.getElem?_ops_write_self
      (Draft.write { d₂ with scope := d₁.scope } (.goto (.whileCond d.labels.next)) span) _ span)
  have hleave : D.body.NeedsOnly k (d₂.write (.goto (.whileCond d.labels.next)) span).code.size
      (d₁.scope.ids ∪ T) :=
    needsOnly_label hend (needsOnly_joined h.endLoop.sound (h.beginBody.trans h.body).names h.joined
      hD hk (Or.inl rfl))
  suffices hstart : ∀ j ≤ k, D.body.NeedsOnly j d.code.size (d.scope.ids ∪ T) from
    hstart k (le_refl k)
  intro j hj
  induction j with
  | zero => exact .zero _ _ _
  | succ j ih =>
    -- on the way back, all that the beginning needs counts among the other values
    have hback : D.body.NeedsOnly (j + 1) d₂.code.size (d.scope.ids ∪ T) :=
      needsOnly_jump hfin ((Draft.prefix_write _ _ span).trans hend) rfl hcondAt (fun _ => nofun)
        (ih (Nat.le_of_succ_le hj)) (fun hgoto => by cases hgoto)
    have hrun := hbody (j + 1) (d.scope.ids ∪ T) (by
      rw [Set.empty_union]
      exact hback.mono Set.subset_union_right)
    refine (needsOnly_label (d := d.draw) hbegin' (hcond (j + 1) (d.scope.ids ∪ T) ?_)).mono ?_
    · have hout := ((hleave.mono_le hj).beside d.scope.ids).beside {c}
      refine (needsOnly_jump hfin hbody' rfl hendAt (fun o ho => ?_) hout
        fun _ => hrun.beside {c}).pred
      exact Or.inr (Or.inl (List.mem_singleton.1 ho))
    · show d.scope.ids ∪ (d.scope.ids ∪ T) ⊆ d.scope.ids ∪ T
      rw [← Set.union_assoc, Set.union_self]

end

section

variable {decls : List Name} {receiver : Bool} {D : Draft}

mutual

/-- **The code of a statement** needs only what the names stand for in front of it. -/
theorem supplies_lowerStmt {d d' : Draft} (s : Source.Stmt)
    (h : lowerStmt receiver s d = .ok ((), d')) (hd : d.Sound decls) (hfin : D.Finished decls)
    (hD : d'.ops <+: D.ops) : D.Supplies d d' ∅ := by
  match s with
  | .block body _ => exact supplies_lowerStmts body h hd hfin hD
  | .ite cond s t span =>
    obtain ⟨c, d₁, d₂, d₃, hcond, hs, ht, rfl⟩ := exists_of_lowerStmt_ite h
    have hg := IteGrows.of_branches (grows_lowerExpr cond hcond hd) span (grows_lowerStmt s hs)
      (grows_lowerStmt t ht)
    have h₃ := (hg.endIte.trans hg.joined).ops.trans hD
    have h₂ := (hg.beginElse.trans hg.elseBranch).ops.trans h₃
    have h₁ := (hg.beginThen.trans hg.thenBranch).ops.trans h₂
    exact hg.supplies hfin hD (supplies_lowerExpr cond hcond h₁)
      (supplies_lowerStmt s hs hg.beginThen.sound hfin h₂)
      (supplies_lowerStmt t ht hg.beginElse.sound hfin h₃)
  | .loop cond s span =>
    obtain ⟨c, d₁, d₂, hcond, hs, rfl⟩ := exists_of_lowerStmt_loop h
    have hg := LoopGrows.of_parts hd span (grows_lowerExpr cond hcond) (grows_lowerStmt s hs)
    have h₂ := (hg.endLoop.trans hg.joined).ops.trans hD
    have h₁ := (hg.beginBody.trans hg.body).ops.trans h₂
    exact hg.supplies hfin hD (supplies_lowerExpr cond hcond h₁)
      (supplies_lowerStmt s hs hg.beginBody.sound hfin h₂)
  | .print value span =>
    obtain ⟨v, d₁, h₁, h⟩ := bind_eq_ok h
    obtain ⟨i, d₂, h₂, h⟩ := bind_eq_ok h
    obtain ⟨rfl, rfl⟩ := emit_eq_ok.1 h₂
    cases h
    exact (supplies_lowerExpr value h₁ ((d₁.prefix_write _ _).trans hD)).write hD rfl rfl
      (by simp [Op.operands])
  | .expr value _ =>
    obtain ⟨v, d₁, h₁, h⟩ := bind_eq_ok h
    cases h
    exact (supplies_lowerExpr value h₁ hD).mono (Set.empty_subset _)

theorem supplies_lowerStmts {d d' : Draft} (ss : List Source.Stmt)
    (h : lowerStmts receiver ss d = .ok ((), d')) (hd : d.Sound decls) (hfin : D.Finished decls)
    (hD : d'.ops <+: D.ops) : D.Supplies d d' ∅ := by
  match ss with
  | [] =>
    cases h
    exact .refl D d
  | s :: ss =>
    obtain ⟨⟨⟩, d₁, h₁, h⟩ := bind_eq_ok h
    have hg₁ := grows_lowerStmt s h₁ hd
    have hpre := (grows_lowerStmts ss h hg₁.sound).ops.trans hD
    have hall := (supplies_lowerStmt s h₁ hd hfin hpre).trans
      (supplies_lowerStmts ss h hg₁.sound hfin hD)
    rwa [Set.empty_union] at hall

end

end

/-! ## Methods -/

/-- Declarations supply what their names stand for. -/
theorem supplies_foldl_declare {D : Draft} {es : List (Op × Source.Decl)}
    (hes : ∀ e ∈ es, Initial e.1) {d : Draft} (hD : (es.foldl Draft.declare d).ops <+: D.ops) :
    D.Supplies d (es.foldl Draft.declare d) ∅ := by
  induction es generalizing d with
  | nil => exact .refl D d
  | cons e es ih =>
    have he := hes e List.mem_cons_self
    have hpre : (d.declare e).ops <+: (es.foldl Draft.declare (d.declare e)).ops := by
      rw [Draft.ops_foldl_declare]
      exact List.prefix_append _ _
    have hrest := ih (fun f hf => hes f (List.mem_cons_of_mem e hf)) (d := d.declare e) hD
    intro k T hk
    refine needsOnly_write (hpre.trans hD) he.primitive.1 he.primitive.2.2.2 ?_ (hrest k T hk) ?_
    · rw [he.operands_eq]
      exact List.forall_mem_nil _
    · rintro i (hi | hi)
      · rcases d.scope.ids_define _ _ hi with hi | rfl
        · exact Or.inl (Or.inl hi)
        · exact Or.inr ⟨rfl, he.definesValue⟩
      · exact Or.inl (Or.inr hi)

/-- Code that supplies all it needs has nothing live on entry. -/
theorem Draft.Supplies.not_liveAt {D : Draft} (h : D.Supplies {} D ∅) (x : Nat) :
    ¬ D.body.LiveAt x 0 := by
  intro hx
  obtain ⟨k, hk⟩ := hx.exists_within
  obtain ⟨i, ⟨y, hy⟩ | hi, -⟩ := h k ∅ (needsOnly_size D k _) x hk
  · cases hy
  · exact hi

/-- In a lowered method nothing is live on entry. -/
theorem not_liveAt_method {m : Source.MethodDecl} {t : Traced Code.Method} (h : m.lower = .ok t)
    (x : Nat) : ¬ t.value.body.LiveAt x 0 := by
  obtain ⟨d₁, d₂, r, h₁, h₂, hrun⟩ := exists_lowerMethod m
  rw [lower_eq hrun] at h
  cases h
  have hfin := finished_of_lowerMethod h₁ h₂
  obtain ⟨hg₁, hg₂, hg₃⟩ := grows_of_lowerMethod h₁ h₂
  have hdecl := supplies_foldl_declare (fun _ he => initial_of_mem_header he)
    ((hg₁.trans hg₂).trans hg₃).ops
  have hbody := supplies_lowerStmts m.body h₁ (sound_declaredDraft m) hfin (hg₂.trans hg₃).ops
  have hresult := supplies_lowerExpr m.result h₂ hg₃.ops
  exact (((hdecl.trans hbody).trans hresult).write List.prefix_rfl rfl rfl
    (by simp [Op.operands])).not_liveAt x

/-- In the lowered method that a program starts with nothing is live on entry. -/
theorem not_liveAt_main {m : Source.MainClass} {t : Traced Code.Method} (h : m.lower = .ok t)
    (x : Nat) : ¬ t.value.body.LiveAt x 0 := by
  obtain ⟨body, hbody, h⟩ := bind_eq_ok_iff.1 h
  cases h
  obtain ⟨⟨⟨⟩, d⟩, hd, hbody⟩ := bind_eq_ok_iff.1 hbody
  cases hbody
  exact (supplies_lowerStmt m.body hd (sound_empty []) (finished_of_lowerStmt hd)
    List.prefix_rfl).not_liveAt x

end Lowering

/-! ## Allocated code -/

namespace Body

/-- The liveness of a body can be computed, and nothing is live on entry. -/
def ClearOnEntry (b : Body) : Prop :=
  ∃ s g, Storage.ofBody b = .ok s ∧ FlowGraph.ofBody b s = .ok g ∧ g.analyze.2.size = b.size ∧
    g.analyze.2.liveIn 0 = ∅

theorem Closed.clearOnEntry {b : Body} (hb : b.Closed) (h : ∀ x, ¬ b.LiveAt x 0) :
    b.ClearOnEntry := by
  obtain ⟨s, hs, hdesc⟩ := hb.exists_storage
  obtain ⟨g, hg, hflow, hsolved⟩ := hb.exists_liveness hdesc.toValid
  refine ⟨s, g, hs, hg, hflow.size_eq, IdSet.ext fun v => ?_⟩
  refine iff_of_false (fun hv => ?_) (IdSet.not_mem_empty v)
  rw [hsolved.liveIn_iff] at hv
  obtain ⟨x, hx⟩ := hflow.exists_var_of_live hb.toWellFormed hv
  exact h x ((hflow.live_iff hb hdesc hx).1 hv)

theorem RewritesTo.not_liveAt {k n next last : Nat} {b c : Body} (h : RewritesTo k n b next c last)
    (hb : b.Closed) (hlive : ∀ x, ¬ b.LiveAt x 0) (x : Nat) : ¬ c.LiveAt x 0 := by
  induction h with
  | done => exact hlive x
  | more step _ ih =>
    obtain ⟨hr, -, slots, start, fresh, hgives, hx⟩ := step.exists_expands hb
    exact ih (step.closed hb) (hx.not_liveAt_zero hb (hgives.uniform hb hr.storage) hlive)

/-- Allocation keeps the entry clear. -/
theorem Closed.clearOnEntry_allocate {b : Body} (hb : b.Closed) (hlive : ∀ x, ¬ b.LiveAt x 0)
    {k : Nat} (hk : 1 ≤ k) : ∃ a, b.allocate k = .ok a ∧ a.body.ClearOnEntry := by
  obtain ⟨a, c, n, r, ha, hrounds, -, -, hbody, -⟩ := hb.exists_rewritesTo hk
  have hsame := c.sameOps_assignRegisters r.storage r.coloring
  refine ⟨a, ha, ?_⟩
  rw [hbody]
  exact (hsame.closed (hrounds.closed hb)).clearOnEntry fun x hx =>
    hrounds.not_liveAt hb hlive x (hsame.symm.liveAt hx)

end Body

/-- **Nothing is read before it is written.**  Every method is lowered to code that has nothing live
on entry, and so is the method that a program starts with if it can be lowered.  With whatever
registers the calling convention pins, and with however many registers it is allocated, nothing is
live on entry to the allocated code either. -/
theorem clearOnEntry_of_lower :
    (∀ m : Source.MethodDecl, ∃ t, m.lower = .ok t ∧ t.value.body.ClearOnEntry ∧
      ∀ (f : RegisterFile) (k : Nat), 1 ≤ k →
        ∃ a, (t.value.body.pinConvention f).value.allocate k = .ok a ∧ a.body.ClearOnEntry) ∧
    (∀ (m : Source.MainClass) (t : Traced Code.Method), m.lower = .ok t →
      t.value.body.ClearOnEntry ∧ ∀ (f : RegisterFile) (k : Nat), 1 ≤ k →
        ∃ a, (t.value.body.pinConvention f).value.allocate k = .ok a ∧ a.body.ClearOnEntry) := by
  -- pins change no operation
  have hpinned : ∀ {b : Body}, b.Closed → (∀ x, ¬ b.LiveAt x 0) →
      b.ClearOnEntry ∧ ∀ (f : RegisterFile) (k : Nat), 1 ≤ k →
        ∃ a, (b.pinConvention f).value.allocate k = .ok a ∧ a.body.ClearOnEntry := by
    intro b hb hlive
    refine ⟨hb.clearOnEntry hlive, fun f k hk => ?_⟩
    have hsame := Body.sameOps_pinConvention hb.toWellFormed f
    exact (hsame.closed hb).clearOnEntry_allocate (fun x hx => hlive x (hsame.symm.liveAt hx)) hk
  constructor
  · intro m
    obtain ⟨d₁, d₂, r, -, -, hrun⟩ := Lowering.exists_lowerMethod m
    have hlower := Lowering.lower_eq hrun
    obtain ⟨first, d, hbody, hd⟩ := Lowering.exists_lowered_method hlower
    exact ⟨_, hlower, hpinned (hbody ▸ hd.closed) (Lowering.not_liveAt_method hlower)⟩
  · intro m t hlower
    obtain ⟨first, d, hbody, hd⟩ := Lowering.exists_lowered_main hlower
    exact hpinned (hbody ▸ hd.closed) (Lowering.not_liveAt_main hlower)

/-- The start of a program that prints numbers for ever. -/
def printingMain : Source.MainClass where
  name := "Main"
  body := .loop (.boolean true {}) (.ite (.boolean false {}) (.print (.int 1 {}) {})
    (.print (.int 2 {}) {}) {}) {}

/-- A loop that counts in one register, and a program that prints. -/
theorem clearOnEntry_counting :
    (∃ t a, (Lowering.loopMethod (.binary .lt (.var "x" {}) (.int 10 {}) {})
        (.expr Lowering.increment {})).lower = .ok t ∧ t.value.body.ClearOnEntry ∧
      (t.value.body.pinConvention .mips).value.allocate 1 = .ok a ∧ a.body.ClearOnEntry) ∧
    ∃ t a, printingMain.lower = .ok t ∧ t.value.body.size ≠ 0 ∧ t.value.body.ClearOnEntry ∧
      (t.value.body.pinConvention .mips).value.allocate 1 = .ok a ∧ a.body.ClearOnEntry := by
  constructor
  · obtain ⟨t, ht, hclear, halloc⟩ := clearOnEntry_of_lower.1 (Lowering.loopMethod
      (.binary .lt (.var "x" {}) (.int 10 {}) {}) (.expr Lowering.increment {}))
    obtain ⟨a, ha, hclear'⟩ := halloc .mips 1 (by decide)
    exact ⟨t, a, ht, hclear, ha, hclear'⟩
  · obtain ⟨t, ht, hsize⟩ : ∃ t, printingMain.lower = .ok t ∧
        decide (t.value.body.size ≠ 0) = true := exists_ok_of_any (by decide +kernel)
    obtain ⟨hclear, halloc⟩ := clearOnEntry_of_lower.2 printingMain t ht
    obtain ⟨a, ha, hclear'⟩ := halloc .mips 1 (by decide)
    exact ⟨t, a, ht, of_decide_eq_true hsize, hclear, ha, hclear'⟩

end Backend
