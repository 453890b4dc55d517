/-
# The shape of lowered code

Lowered code is executed in the order in which it was written.  Its instructions read values that
have been computed before them, every label stands at one place, jumps lead to labels of the code,
and the joins of two paths stand together behind the label where the paths meet (`Body.Shaped`).  A
method ends with its only return.  Every such body can be allocated, whatever the registers
(`shaped_of_lower`).
-/
import Mathlib
import Backend.Proofs.Entry
import Backend.Proofs.Scopes
import Backend.Proofs.Steps

namespace Backend

namespace Lowering

/-- Code that reads and joins what has been computed. -/
structure WellShaped (ops : List Op) : Prop where
  /-- What an instruction reads is a value that has been computed before. -/
  operands : ∀ (p : Nat) (op : Op), ops[p]? = some op → ∀ o ∈ op.operands,
    o < p ∧ ∃ op', ops[o]? = some op' ∧ op'.definesValue = true
  /-- What is joined are two different values, where paths have just met. -/
  joins : ∀ p l r : Nat, ops[p]? = some (.unify l r) →
    l ≠ r ∧ ∃ q op, p = q + 1 ∧ ops[q]? = some op ∧ op.isMeeting = true

/-- One more instruction keeps code well shaped if it reads values and joins where paths have
met. -/
theorem WellShaped.concat {ops : List Op} {op : Op} (h : WellShaped ops)
    (hread : ∀ o ∈ op.operands, ∃ op', ops[o]? = some op' ∧ op'.definesValue = true)
    (hjoin : ∀ l r, op = .unify l r →
      l ≠ r ∧ ∃ op', ops.getLast? = some op' ∧ op'.isMeeting = true) :
    WellShaped (ops ++ [op]) := by
  have hkeep : ∀ {p : Nat} {op' : Op}, ops[p]? = some op' → (ops ++ [op])[p]? = some op' :=
    fun hp => getElem?_of_isPrefix (List.prefix_append ops [op]) hp
  constructor
  · intro p op' hp o ho
    rcases getElem?_concat_cases hp with hp | ⟨rfl, rfl⟩
    · obtain ⟨hlt, op'', hop, hdef⟩ := h.operands p op' hp o ho
      exact ⟨hlt, op'', hkeep hop, hdef⟩
    · obtain ⟨op'', hop, hdef⟩ := hread o ho
      exact ⟨(List.getElem?_eq_some_iff.1 hop).1, op'', hkeep hop, hdef⟩
  · intro p l r hp
    rcases getElem?_concat_cases hp with hp | ⟨rfl, hop⟩
    · obtain ⟨hne, q, op', rfl, hq, hmeet⟩ := h.joins p l r hp
      exact ⟨hne, q, op', rfl, hkeep hq, hmeet⟩
    · obtain ⟨hne, op', hlast, hmeet⟩ := hjoin l r hop.symm
      -- the last operation of the code so far stands right in front of the join
      rw [List.getLast?_eq_getElem?] at hlast
      have hpos := (List.getElem?_eq_some_iff.1 hlast).1
      exact ⟨hne, ops.length - 1, op', by omega, hkeep hlast, hmeet⟩

section

variable {decls : List Name} {d d' : Draft}

/-- **Step lemma.**  Every step keeps code well shaped. -/
theorem Draft.Step.wellShaped (h : d.Step decls d') (hd : d.Based decls)
    (hops : WellShaped d.ops) : WellShaped d'.ops := by
  cases h with
  | write op span hop hread =>
    rw [Draft.ops_write]
    refine hops.concat hread fun l r hunify => ?_
    rw [hunify] at hop
    cases hop
  | assign v x span hv _ =>
    show WellShaped (d.write (.assignVar v x) span).ops
    rw [Draft.ops_write]
    exact hops.concat (fun o ho => List.mem_singleton.1 ho ▸ hv) fun _ _ => nofun
  | draw | rebind _ _ => exact hops
  | join j span hl hr hne hlast =>
    show WellShaped (d.write (.unify j.left j.right) span).ops
    rw [Draft.ops_write]
    apply hops.concat
    · intro o ho
      rcases List.mem_pair.1 ho with rfl | rfl
      · exact hd.headed.computes hl
      · exact hd.headed.computes hr
    · intro l r hunify
      cases hunify
      exact ⟨hne, hlast⟩

/-- **Run lemma.**  Steps keep code well shaped. -/
theorem Draft.Steps.wellShaped (h : d.Steps decls d') (hd : d.Based decls)
    (hops : WellShaped d.ops) : WellShaped d'.ops :=
  h.keeps_of_based (P := fun e => WellShaped e.ops) hd hops
    fun _ _ he hops step => step.wellShaped he hops

/-- No step returns. -/
theorem Draft.Step.ret_mem (h : d.Step decls d') {v : Nat} (hv : .ret v ∈ d'.ops) :
    .ret v ∈ d.ops := by
  have hwrite : ∀ {op : Op} {span : Span}, .ret v ∈ (d.write op span).ops → op ≠ .ret v →
      .ret v ∈ d.ops := by
    intro op span hmem hne
    rw [Draft.ops_write, List.mem_append, List.mem_singleton] at hmem
    exact hmem.resolve_right (Ne.symm hne)
  cases h with
  | write op span hop _ =>
    apply hwrite hv
    rintro rfl
    cases hop
  | assign _ _ _ _ _ | join _ _ _ _ _ _ => exact hwrite hv nofun
  | draw | rebind _ _ => exact hv

theorem Draft.Steps.ret_notMem (h : d.Steps decls d') (hd : ∀ v, .ret v ∉ d.ops) (v : Nat) :
    .ret v ∉ d'.ops :=
  h.keeps (P := fun e => ∀ v, .ret v ∉ e.ops) hd (fun _ _ he step v hv => he v (step.ret_mem hv)) v

end

/-- Declarations read nothing, join nothing and do not return. -/
theorem wellShaped_declaredDraft (m : Source.MethodDecl) :
    WellShaped (declaredDraft m).ops ∧ ∀ v, .ret v ∉ (declaredDraft m).ops := by
  refine ⟨⟨fun p op hp o ho => ?_, fun p l r hp => ?_⟩, fun v hv => ?_⟩
  · rw [(initial_of_mem_declaredDraft (List.mem_of_getElem? hp)).operands_eq] at ho
    cases ho
  · have := (initial_of_mem_declaredDraft (List.mem_of_getElem? hp)).primitive.1
    cases this
  · have := (initial_of_mem_declaredDraft hv).definesValue
    cases this

end Lowering

/-! ## Lowered bodies -/

/-- The shape of lowered code. -/
structure Body.Shaped (b : Body) : Prop extends Lowering.WellShaped b.ops where
  /-- The instructions are executed in the order of their numbers. -/
  order : b.order = List.range b.store.size
  /-- A label stands at one place. -/
  unique : ∀ (p q : Nat) (l : Label), b.ops[p]? = some (.label l) → b.ops[q]? = some (.label l) →
    p = q
  /-- A jump leads to one place. -/
  targets : ∀ op ∈ b.ops, ∀ l, op.target = some l → ∃! p : Nat, b.ops[p]? = some (.label l)

/-- A finished draft is shaped if its code is. -/
theorem Lowering.Draft.Finished.shaped {decls : List Name} {d : Draft} (h : d.Finished decls)
    (hops : WellShaped d.ops) : d.body.Shaped where
  toWellShaped := d.ops_body.symm ▸ hops
  order := rfl
  unique := by
    rw [d.ops_body]
    exact h.code.unique
  targets op hop l hl := by
    rw [d.ops_body] at hop ⊢
    obtain ⟨p, hp⟩ := List.mem_iff_getElem?.1 (h.landed op hop l hl)
    exact ⟨p, hp, fun q hq => h.code.unique q p l hq hp⟩

/-- **The shape of lowered code.**  Every method is lowered to code that is well shaped and ends
with its only return; the start of a program, if it can be lowered, to code that is well shaped and
has no return.  The same code comes out if branches and loop bodies are written on strands of their
own, however the bindings are listed at joins: spliced together, the strands are in the order of the
numbers.  With at least one register, allocation succeeds on either. -/
theorem shaped_of_lower :
    (∀ m : Source.MethodDecl, ∃ t, m.lower = .ok t ∧
      (∀ order, Lowering.Listing order → m.lowerOn order = .ok t) ∧ t.value.body.Shaped ∧
      (∃ ops v, t.value.body.ops = ops ++ [.ret v] ∧ ∀ w, .ret w ∉ ops) ∧
      ∀ k, 1 ≤ k → ∃ a, t.value.body.allocate k = .ok a) ∧
    (∀ (m : Source.MainClass) (t : Traced Code.Method), m.lower = .ok t →
      (∀ order, Lowering.Listing order → m.lowerOn order = .ok t) ∧ t.value.body.Shaped ∧
      (∀ w, .ret w ∉ t.value.body.ops) ∧ ∀ k, 1 ≤ k → ∃ a, t.value.body.allocate k = .ok a) := by
  constructor
  · intro m
    obtain ⟨d, r, hsteps, hr, hfin, hlower⟩ := Lowering.exists_steps_method m
    obtain ⟨hdecl, hret⟩ := Lowering.wellShaped_declaredDraft m
    have hops := hsteps.wellShaped (Lowering.based_declaredDraft m) hdecl
    refine ⟨_, hlower, fun order horder => (m.lowerOn_eq horder).trans hlower, hfin.shaped ?_,
      ⟨d.ops, r, ?_, hsteps.ret_notMem hret⟩, fun _ hk => hfin.closed.exists_allocated hk⟩
    · rw [Lowering.Draft.ops_write]
      exact hops.concat (fun o ho => List.mem_singleton.1 ho ▸ hr) fun _ _ => nofun
    · show (d.write (.ret r) m.result.span).body.ops = _
      rw [Lowering.Draft.ops_body, Lowering.Draft.ops_write]
  · intro m t hlower
    refine ⟨fun order horder => (m.lowerOn_eq horder).trans hlower, ?_⟩
    obtain ⟨d, hsteps, hfin, rfl⟩ := Lowering.exists_steps_main hlower
    have hnone : Lowering.WellShaped ({} : Lowering.Draft).ops :=
      ⟨fun _ _ => nofun, fun _ _ _ => nofun⟩
    refine ⟨hfin.shaped (hsteps.wellShaped Lowering.based_empty hnone), ?_,
      fun _ hk => hfin.closed.exists_allocated hk⟩
    rw [Lowering.Draft.ops_body]
    exact hsteps.ret_notMem fun _ => nofun

/-- The method `while (x < 10) if (x == 5) x = 7; else x = x + 1;` with a parameter `x`, which is
joined behind the conditional and behind the loop. -/
def joiningMethod : Source.MethodDecl :=
  Lowering.loopMethod (.binary .lt (.var "x" {}) (.int 10 {}) {})
    (.ite (.binary .eq (.var "x" {}) (.int 5 {}) {})
      (.expr (.assign (.var "x" {}) (.int 7 {}) {}) {}) (.expr Lowering.increment {}) {})

/-- A method with two joins and the start of a program with jumps, each in one register and each
also written strand by strand, with the bindings listed backwards. -/
theorem shaped_joining :
    (∃ t a, joiningMethod.lower = .ok t ∧
      joiningMethod.lowerOn (fun d => d.scope.reverse) = .ok t ∧ t.value.body.Shaped ∧
      (∃ ops v, t.value.body.ops = ops ++ [.ret v] ∧ ∀ w, .ret w ∉ ops) ∧
      t.value.body.allocate 1 = .ok a) ∧
    ∃ t a, printingMain.lower = .ok t ∧
      printingMain.lowerOn (fun d => d.scope.reverse) = .ok t ∧
      .goto (.whileCond 0) ∈ t.value.body.ops ∧ t.value.body.Shaped ∧
      (∀ w, .ret w ∉ t.value.body.ops) ∧ t.value.body.allocate 1 = .ok a := by
  have horder : Lowering.Listing (fun d => d.scope.reverse) := fun d => List.reverse_perm _
  constructor
  · obtain ⟨t, ht, hon, hshape, hret, halloc⟩ := shaped_of_lower.1 joiningMethod
    obtain ⟨a, ha⟩ := halloc 1 (by decide)
    exact ⟨t, a, ht, hon _ horder, hshape, hret, ha⟩
  · obtain ⟨t, ht, hjump⟩ : ∃ t, printingMain.lower = .ok t ∧
        decide (.goto (.whileCond 0) ∈ t.value.body.ops) = true :=
      exists_ok_of_any (by decide +kernel)
    obtain ⟨hon, hshape, hret, halloc⟩ := shaped_of_lower.2 printingMain t ht
    obtain ⟨a, ha⟩ := halloc 1 (by decide)
    exact ⟨t, a, ht, hon _ horder, of_decide_eq_true hjump, hshape, hret, ha⟩

end Backend
