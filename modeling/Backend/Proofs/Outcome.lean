/-
# What allocation answers

On a well-formed body, as all bodies are that can be built (`Body.Built.wellFormed`), allocation has
four outcomes, and which of them it is can be read off the body: there is no register, an operand
names nothing, a jump leads nowhere, or all is well.  Only the first round can fail
(`WellFormed.cases_round`), since a body on which it succeeds is closed and stays closed.  So a body
that is changed on the way, round by round (`allocateInPlace`), is either allocated or left as it
was (`WellFormed.outcome_allocate`).
-/
import Mathlib
import Backend.Proofs.Rounds

namespace Backend

/-! ## Where a computation fails -/

theorem bind_eq_error_iff {ε α β : Type} {x : Except ε α} {f : α → Except ε β} {e : ε} :
    (x >>= f) = .error e ↔ x = .error e ∨ ∃ a, x = .ok a ∧ f a = .error e := by
  cases x with
  | error e' => simp [bind, Except.bind]
  | ok a => simp [bind, Except.bind]

/-- A list goes through a computation that may fail, or its first entry that fails decides. -/
theorem mapM_cases {α β : Type} (f : α → Except Fault β) (xs : List α) :
    (∀ x ∈ xs, ∃ y, f x = .ok y) ∨ ∃ (p : Nat) (x : α) (e : Fault), xs[p]? = some x ∧
      f x = .error e ∧ xs.mapM f = .error e ∧
      ∀ (q : Nat) (x' : α), q < p → xs[q]? = some x' → ∃ y, f x' = .ok y := by
  induction xs with
  | nil => exact Or.inl fun _ => nofun
  | cons x xs ih =>
    cases hx : f x with
    | error e =>
      refine Or.inr ⟨0, x, e, rfl, hx, ?_, fun q _ hq => absurd hq (Nat.not_lt_zero q)⟩
      rw [List.mapM_cons]
      exact bind_eq_error_iff.2 (Or.inl hx)
    | ok y =>
      rcases ih with hall | ⟨p, z, e, hp, hz, hrun, hbefore⟩
      · left
        intro z hz
        rcases List.mem_cons.1 hz with rfl | hz
        · exact ⟨y, hx⟩
        · exact hall z hz
      · refine Or.inr ⟨p + 1, z, e, hp, hz, ?_, ?_⟩
        · rw [List.mapM_cons]
          exact bind_eq_error_iff.2 (Or.inr ⟨y, hx, bind_eq_error_iff.2 (Or.inl hrun)⟩)
        · intro q x' hq hx'
          cases q with
          | zero => exact ⟨y, Option.some.inj hx' ▸ hx⟩
          | succ q => exact hbefore q x' (Nat.lt_of_succ_lt_succ hq) hx'

/-! ## Operands that name nothing -/

namespace Storage

variable {b : Body} {s : Storage}

/-- Every instruction of the body has a variable, and nothing else has. -/
theorem Valid.cases_var (hs : s.Valid b) (o : Nat) :
    (o < b.store.size ∧ ∃ v, s.var? o = some v ∧ s.var o = .ok v) ∨
      b.store.size ≤ o ∧ s.var o = .error (.notInBody o) := by
  by_cases hlt : o < b.store.size
  · obtain ⟨v, hv⟩ := hs.total o hlt
    exact Or.inl ⟨hlt, v, hv, var_eq_ok.2 hv⟩
  · refine Or.inr ⟨not_lt.1 hlt, ?_⟩
    have hnone : s.var? o = none := by
      rw [var?, Array.getElem?_eq_none (by rw [hs.size_varOf]; exact not_lt.1 hlt)]
      rfl
    unfold var
    rw [hnone]

theorem Valid.cases_merge (hs : s.Valid b) {a : Nat} (ha : a < b.store.size) (o : Nat) :
    (o < b.store.size ∧ ∃ s', s.merge a o = .ok s' ∧ s'.Valid b) ∨
      b.store.size ≤ o ∧ s.merge a o = .error (.notInBody o) := by
  obtain ⟨v, hv⟩ := hs.total a ha
  rcases hs.cases_var o with ⟨hlt, w, hw, -⟩ | ⟨hle, hrun⟩
  · obtain ⟨s', hs', hvalid, -⟩ := hs.merge hv hw
    exact Or.inl ⟨hlt, s', hs', hvalid⟩
  · exact Or.inr ⟨hle, bind_eq_error_iff.2 (Or.inr ⟨v, var_eq_ok.2 hv,
      bind_eq_error_iff.2 (Or.inl hrun)⟩)⟩

/-- **Step lemma.**  Tying an instruction fails only at an operand that is not in the body. -/
theorem Valid.cases_tie (hs : s.Valid b) {e : Nat × Instr} (he : e.1 < b.store.size) :
    (∃ s', s.tie e = .ok s' ∧ s'.Valid b ∧
      (e.2.op.isUnify = true → ∀ o ∈ e.2.op.operands, o < b.store.size)) ∨
      ∃ o ∈ e.2.op.operands, b.store.size ≤ o ∧ s.tie e = .error (.notInBody o) := by
  unfold Storage.tie
  cases e.2.op with
  | unify l r =>
    rcases hs.cases_merge he l with ⟨hl, s₁, h₁, hs₁⟩ | ⟨hl, h₁⟩
    · rcases hs₁.cases_merge he r with ⟨hr, s₂, h₂, hs₂⟩ | ⟨hr, h₂⟩
      · refine Or.inl ⟨s₂, bind_eq_ok_iff.2 ⟨s₁, h₁, h₂⟩, hs₂, fun _ o ho => ?_⟩
        rcases List.mem_pair.1 ho with rfl | rfl
        · exact hl
        · exact hr
      · exact Or.inr ⟨r, List.mem_cons_of_mem _ List.mem_cons_self, hr,
          bind_eq_error_iff.2 (Or.inr ⟨s₁, h₁, h₂⟩)⟩
    · exact Or.inr ⟨l, List.mem_cons_self, hl, bind_eq_error_iff.2 (Or.inl h₁)⟩
  | _ => exact Or.inl ⟨s, rfl, hs, nofun⟩

/-- **Run lemma.**  Tying a list of instructions fails only at an operand that is not in the
body. -/
theorem Valid.cases_foldlM_tie (hs : s.Valid b) {es : List (Nat × Instr)}
    (hes : ∀ e ∈ es, e.1 < b.store.size) :
    (∃ s', es.foldlM Storage.tie s = .ok s' ∧ s'.Valid b ∧
      ∀ e ∈ es, e.2.op.isUnify = true → ∀ o ∈ e.2.op.operands, o < b.store.size) ∨
      ∃ e ∈ es, ∃ o ∈ e.2.op.operands, b.store.size ≤ o ∧
        es.foldlM Storage.tie s = .error (.notInBody o) := by
  induction es generalizing s with
  | nil => exact Or.inl ⟨s, rfl, hs, fun _ => nofun⟩
  | cons e es ih =>
    rw [List.foldlM_cons]
    rcases hs.cases_tie (hes e List.mem_cons_self) with ⟨s₁, h₁, hs₁, he⟩ | ⟨o, ho, hle, h₁⟩
    · rcases ih hs₁ fun e' he' => hes e' (List.mem_cons_of_mem e he') with
        ⟨s₂, h₂, hs₂, hrest⟩ | ⟨e', he', o, ho, hle, h₂⟩
      · refine Or.inl ⟨s₂, bind_eq_ok_iff.2 ⟨s₁, h₁, h₂⟩, hs₂, fun e' he' => ?_⟩
        rcases List.mem_cons.1 he' with rfl | he'
        · exact he
        · exact hrest e' he'
      · exact Or.inr ⟨e', List.mem_cons_of_mem e he', o, ho, hle,
          bind_eq_error_iff.2 (Or.inr ⟨s₁, h₁, h₂⟩)⟩
    · exact Or.inr ⟨e, List.mem_cons_self, o, ho, hle, bind_eq_error_iff.2 (Or.inl h₁)⟩

end Storage

/-- The node of an instruction cannot be made only if an operand is not in the body. -/
theorem FlowNode.cases_ofInstr {b : Body} {s : Storage} (hs : s.Valid b) {e : Nat × Instr}
    (he : e.1 < b.store.size) :
    ((∃ n, ofInstr s e = .ok n) ∧
      (e.2.op.isUnify = false → ∀ o ∈ e.2.op.operands, o < b.store.size)) ∨
      ∃ o ∈ e.2.op.operands, b.store.size ≤ o ∧ ofInstr s e = .error (.notInBody o) := by
  obtain ⟨v, hv⟩ := hs.total e.1 he
  obtain ⟨d, hd⟩ : ∃ d, definedBy s e.1 e.2.op = .ok d := by
    unfold definedBy
    rw [Storage.var_eq_ok.2 hv]
    cases e.2.op.definesValue
    · exact ⟨none, rfl⟩
    · exact ⟨some v, rfl⟩
  rcases mapM_cases s.var (Body.readsOf e.1 e.2.op) with hall | ⟨p, o, f, hp, ho, hrun, -⟩
  · left
    obtain ⟨vars, hvars, -⟩ := mapM_eq_ok s.var _ hall
    refine ⟨⟨_, bind_eq_ok_iff.2 ⟨d, hd, bind_eq_ok_iff.2 ⟨_, bind_eq_ok_iff.2 ⟨vars, hvars, rfl⟩,
      rfl⟩⟩⟩, fun hunify o ho => ?_⟩
    rw [Body.readsOf, hunify] at hall
    obtain ⟨w, hw⟩ := hall o ho
    exact hs.lt_size (Storage.var_eq_ok.1 hw)
  · right
    rcases hs.cases_var o with ⟨-, w, -, hw⟩ | ⟨hle, hvar⟩
    · rw [ho] at hw
      cases hw
    · obtain rfl : f = .notInBody o := Except.error.inj (ho.symm.trans hvar)
      refine ⟨o, ?_, hle, bind_eq_error_iff.2 (Or.inr ⟨d, hd, bind_eq_error_iff.2
        (Or.inl (bind_eq_error_iff.2 (Or.inl hrun)))⟩)⟩
      have hmem := List.mem_of_getElem? hp
      unfold Body.readsOf at hmem
      split at hmem
      · -- a join reads itself, and is in the body
        rw [List.mem_singleton.1 hmem] at hle
        omega
      · exact hmem

namespace Body

/-- An operand of an instruction that is not in the body. -/
def Missing (b : Body) (o : Nat) : Prop := o ∉ b.order ∧ ∃ e ∈ b.toList, o ∈ e.2.op.operands

theorem not_missing {b : Body} (h : ∀ e ∈ b.toList, ∀ o ∈ e.2.op.operands, o ∈ b.order) (o : Nat) :
    ¬ b.Missing o := by
  rintro ⟨hnot, e, he, ho⟩
  exact hnot (h e he o ho)

/-- A jump at a position of the body to a label that stands nowhere in it. -/
def Unresolved (b : Body) (p : Nat) (l : Label) : Prop :=
  (∃ op, b.ops[p]? = some op ∧ op.target = some l) ∧ .label l ∉ b.ops

section

variable {b : Body} (hb : b.WellFormed)

include hb

theorem WellFormed.missing_of_le {e : Nat × Instr} (he : e ∈ b.toList) {o : Nat}
    (ho : o ∈ e.2.op.operands) (hle : b.store.size ≤ o) : b.Missing o :=
  ⟨fun hmem => absurd ((hb.mem_order o).1 hmem) (not_lt.2 hle), e, he, ho⟩

/-- The variables of a body can be found unless an operand is missing. -/
theorem WellFormed.cases_storage :
    (∃ s, Storage.ofBody b = .ok s ∧ s.Valid b ∧
      ∀ e ∈ b.toList, e.2.op.isUnify = true → ∀ o ∈ e.2.op.operands, o < b.store.size) ∨
      ∃ o, b.Missing o ∧ Storage.ofBody b = .error (.notInBody o) := by
  rcases (Storage.valid_singletons hb).cases_foldlM_tie fun e he =>
      lt_size_of_getElem? (hb.mem_toList.1 he) with hok | ⟨e, he, o, ho, hle, hrun⟩
  · exact Or.inl hok
  · exact Or.inr ⟨o, hb.missing_of_le he ho hle, hrun⟩

/-- The nodes of a flow graph can be made unless an operand is missing. -/
theorem WellFormed.cases_nodes {s : Storage} (hs : s.Valid b) :
    (∃ nodes, b.toList.mapM (FlowNode.ofInstr s) = .ok nodes ∧ nodes.length = b.size ∧
      ∀ e ∈ b.toList, e.2.op.isUnify = false → ∀ o ∈ e.2.op.operands, o < b.store.size) ∨
      ∃ o, b.Missing o ∧ b.toList.mapM (FlowNode.ofInstr s) = .error (.notInBody o) := by
  have hcases := fun (e : Nat × Instr) (he : e ∈ b.toList) =>
    FlowNode.cases_ofInstr hs (lt_size_of_getElem? (hb.mem_toList.1 he))
  rcases mapM_cases (FlowNode.ofInstr s) b.toList with hall | ⟨p, e, f, hp, hf, hrun, -⟩
  · left
    obtain ⟨nodes, hnodes, hlen, -⟩ := mapM_eq_ok _ _ hall
    refine ⟨nodes, hnodes, hlen.trans hb.length_toList, fun e he => ?_⟩
    rcases hcases e he with ⟨-, hops⟩ | ⟨o, -, -, hbad⟩
    · exact hops
    · obtain ⟨n, hn⟩ := hall e he
      rw [hn] at hbad
      cases hbad
  · right
    have he := List.mem_of_getElem? hp
    rcases hcases e he with ⟨⟨n, hn⟩, -⟩ | ⟨o, ho, hle, hbad⟩
    · rw [hf] at hn
      cases hn
    · rw [hf] at hbad
      cases hbad
      exact ⟨o, hb.missing_of_le he ho hle, hrun⟩

end

end Body

namespace FlowGraph

/-! ## Jumps that lead nowhere -/

/-- Jumps are listed by position. -/
theorem pairwise_jumps (ops : List Op) : (jumps ops).Pairwise fun j k => j.1 < k.1 := by
  have hidx : ops.zipIdx.Pairwise fun x y => x.2 < y.2 := by
    rw [← List.pairwise_map (f := Prod.snd), List.zipIdx_map_snd]
    exact List.pairwise_lt_range'
  refine hidx.filterMap _ fun x y hxy j hj k hk => ?_
  obtain ⟨l, -, rfl⟩ := Option.map_eq_some_iff.1 hj
  obtain ⟨l', -, rfl⟩ := Option.map_eq_some_iff.1 hk
  exact hxy

theorem cases_resolve (ops : List Op) (l : Label) :
    (.label l ∈ ops ∧ ∃ n, resolve ops l = .ok n) ∨
      .label l ∉ ops ∧ resolve ops l = .error (.unresolvedLabel l) := by
  unfold resolve
  by_cases hmem : .label l ∈ ops
  · obtain ⟨n, hn⟩ := exists_labelPosition hmem rfl
    rw [hn]
    exact Or.inl ⟨hmem, n, rfl⟩
  · have hnone : labelPosition? ops l = none := by
      by_contra hsome
      obtain ⟨n, hn⟩ := Option.ne_none_iff_exists'.1 hsome
      obtain ⟨op, hop, hl⟩ := (labelPosition?_eq_some.1 hn).1
      rw [Op.eq_label hl] at hop
      exact hmem (List.mem_of_getElem? hop)
    rw [hnone]
    exact Or.inr ⟨hmem, rfl⟩

/-- All jumps lead somewhere, or the first one that does not decides. -/
theorem cases_jumpEdges (ops : List Op) :
    (∀ j ∈ jumps ops, .label j.2 ∈ ops) ∨ ∃ j ∈ jumps ops, .label j.2 ∉ ops ∧
      (∀ k ∈ jumps ops, .label k.2 ∉ ops → j.1 ≤ k.1) ∧
      jumpEdges ops = .error (.unresolvedLabel j.2) := by
  -- a jump gets its edge just if its label is found
  have hok : ∀ j : Nat × Label, (∃ y, (do return (j.1, ← resolve ops j.2) :
      Except Fault (Nat × Nat)) = .ok y) → .label j.2 ∈ ops := by
    rintro j ⟨y, hy⟩
    obtain ⟨n, hn, -⟩ := bind_eq_ok_iff.1 hy
    rcases cases_resolve ops j.2 with ⟨hmem, -⟩ | ⟨-, hbad⟩
    · exact hmem
    · rw [hn] at hbad
      cases hbad
  rcases mapM_cases (fun j => do return (j.1, ← resolve ops j.2)) (jumps ops) with
    hall | ⟨p, j, e, hp, hj, hrun, hbefore⟩
  · exact Or.inl fun j hj => hok j (hall j hj)
  · right
    rcases bind_eq_error_iff.1 hj with hfail | ⟨n, -, hn⟩
    · rcases cases_resolve ops j.2 with ⟨-, n, hn⟩ | ⟨hmem, hbad⟩
      · rw [hfail] at hn
        cases hn
      · obtain rfl : e = .unresolvedLabel j.2 := Except.error.inj (hfail.symm.trans hbad)
        refine ⟨j, List.mem_of_getElem? hp, hmem, fun k hk hkmem => ?_, hrun⟩
        obtain ⟨q, hq⟩ := List.mem_iff_getElem?.1 hk
        rcases Nat.lt_trichotomy q p with hlt | rfl | hlt
        · exact absurd (hok k (hbefore q k hlt hq)) hkmem
        · rw [Option.some.inj (hp.symm.trans hq)]
        · obtain ⟨hp', rfl⟩ := List.getElem?_eq_some_iff.1 hp
          obtain ⟨hq', rfl⟩ := List.getElem?_eq_some_iff.1 hq
          exact le_of_lt (List.pairwise_iff_getElem.1 (pairwise_jumps ops) p q hp' hq' hlt)
    · cases hn

end FlowGraph

namespace Body

/-! ## One round -/

section

variable {b : Body}

theorem Closed.not_missing (hb : b.Closed) : ∀ o, ¬ b.Missing o :=
  Body.not_missing fun e he o ho =>
    (hb.mem_order o).2 (hb.operands e.1 e.2 (hb.mem_toList.1 he) o ho)

theorem Closed.not_unresolved (hb : b.Closed) (p : Nat) (l : Label) : ¬ b.Unresolved p l := by
  rintro ⟨⟨op, hop, hl⟩, hmem⟩
  obtain ⟨n, hn⟩ := hb.exists_target (List.mem_of_getElem? hop) hl
  obtain ⟨op', hop', hl'⟩ := (FlowGraph.labelPosition?_eq_some.1 hn).1
  rw [Op.eq_label hl'] at hop'
  exact hmem (List.mem_of_getElem? hop')

/-- The first jump of the body that leads nowhere. -/
def FirstUnresolved (b : Body) (l : Label) : Prop :=
  ∃ p, b.Unresolved p l ∧ ∀ q l', b.Unresolved q l' → p ≤ q

theorem FirstUnresolved.eq {l l' : Label} (h : b.FirstUnresolved l) (h' : b.FirstUnresolved l') :
    l = l' := by
  obtain ⟨p, hp, hfirst⟩ := h
  obtain ⟨q, hq, hfirst'⟩ := h'
  obtain rfl : p = q := le_antisymm (hfirst q l' hq) (hfirst' p l hp)
  obtain ⟨⟨op, hop, hl⟩, -⟩ := hp
  obtain ⟨⟨op', hop', hl'⟩, -⟩ := hq
  obtain rfl : op = op' := Option.some.inj (hop.symm.trans hop')
  exact Option.some.inj (hl.symm.trans hl')

/-- A flow graph can be built on closed bodies; on others an operand is missing or else the first
jump that leads nowhere decides. -/
theorem WellFormed.cases_flow (hb : b.WellFormed) {s : Storage} (hs : s.Valid b)
    (hunify : ∀ e ∈ b.toList, e.2.op.isUnify = true → ∀ o ∈ e.2.op.operands, o < b.store.size) :
    b.Closed ∨ (∃ o, b.Missing o ∧ FlowGraph.ofBody b s = .error (.notInBody o)) ∨
      (∀ o, ¬ b.Missing o) ∧ ∃ l, b.FirstUnresolved l ∧
        FlowGraph.ofBody b s = .error (.unresolvedLabel l) := by
  rcases hb.cases_nodes hs with ⟨nodes, hnodes, hlen, hother⟩ | ⟨o, ho, hrun⟩
  · have hops : ∀ e ∈ b.toList, ∀ o ∈ e.2.op.operands, o < b.store.size := by
      intro e he
      cases hu : e.2.op.isUnify
      · exact hother e he hu
      · exact hunify e he hu
    rcases FlowGraph.cases_jumpEdges b.ops with hall | ⟨j, hj, hmem, hfirst, hrun⟩
    · refine Or.inl ⟨hb, fun id i hi => hops (id, i) (hb.mem_toList.2 hi), ?_⟩
      intro id i hi l hl
      obtain ⟨p, hp⟩ := List.mem_iff_getElem?.1 (hb.mem_toList.2 hi)
      have hop : b.ops[p]? = some i.op := by rw [getElem?_ops, hp]; rfl
      obtain ⟨e, he, hlabel⟩ :=
        List.mem_map.1 (hall (p, l) (FlowGraph.mem_jumps.2 ⟨i.op, hop, hl⟩))
      exact ⟨e.1, e.2, hb.mem_toList.1 he, by rw [hlabel]; rfl⟩
    · right; right
      refine ⟨?_, j.2, ⟨j.1, ⟨FlowGraph.mem_jumps.1 hj, hmem⟩, ?_⟩, ?_⟩
      · exact not_missing fun e he o ho => (hb.mem_order o).2 (hops e he o ho)
      · rintro q l ⟨hq, hl⟩
        exact hfirst (q, l) (FlowGraph.mem_jumps.2 hq) hl
      · obtain ⟨falls, hfalls, -⟩ := hb.exists_falls hlen
        exact bind_eq_error_iff.2 (Or.inr ⟨nodes, hnodes, bind_eq_error_iff.2 (Or.inr
          ⟨falls, hfalls, bind_eq_error_iff.2 (Or.inl hrun)⟩)⟩)
  · exact Or.inr (Or.inl ⟨o, ho, bind_eq_error_iff.2 (Or.inl hrun)⟩)

/-- **What a round answers.**  It succeeds on closed bodies; on others an operand is missing or else
the first jump that leads nowhere decides. -/
theorem WellFormed.cases_round (hb : b.WellFormed) (k : Nat) :
    b.Closed ∨ (∃ o, b.Missing o ∧ b.round k = .error (.notInBody o)) ∨
      (∀ o, ¬ b.Missing o) ∧
        ∃ l, b.FirstUnresolved l ∧ b.round k = .error (.unresolvedLabel l) := by
  rcases hb.cases_storage with ⟨s, hs, hvalid, hunify⟩ | ⟨o, ho, hrun⟩
  · have hround : ∀ {e : Fault}, FlowGraph.ofBody b s = .error e → b.round k = .error e :=
      fun h => bind_eq_error_iff.2 (Or.inr ⟨s, hs, bind_eq_error_iff.2 (Or.inl h)⟩)
    rcases hb.cases_flow hvalid hunify with hclosed | ⟨o, ho, hrun⟩ | ⟨hnone, l, hl, hrun⟩
    · exact Or.inl hclosed
    · exact Or.inr (Or.inl ⟨o, ho, hround hrun⟩)
    · exact Or.inr (Or.inr ⟨hnone, l, hl, hround hrun⟩)
  · exact Or.inr (Or.inl ⟨o, ho, bind_eq_error_iff.2 (Or.inl hrun)⟩)

/-- A body on which a round succeeds is closed. -/
theorem WellFormed.closed_of_round (hb : b.WellFormed) {k : Nat} {r : Round}
    (h : b.round k = .ok r) : b.Closed := by
  rcases hb.cases_round k with hclosed | ⟨o, -, hrun⟩ | ⟨-, l, -, hrun⟩
  · exact hclosed
  · rw [h] at hrun
    cases hrun
  · rw [h] at hrun
    cases hrun

end

/-! ## Rounds that change the body -/

/-- The rounds of an allocation on a body that they change as they go: what they answer, and the
body that they leave. -/
def roundsInPlace (k : Nat) : Nat → Nat → Nat → Body → Except Fault Allocation × Body
  | 0, _, _, b => (.error .unsettled, b)
  | limit + 1, round, next, b =>
    match b.round k with
    | .error e => (.error e, b)
    | .ok r =>
      if r.coloring.spills.isEmpty then
        (.ok { rounds := round, slots := next }, b.assignRegisters r.storage r.coloring)
      else
        match b.spill r.storage r.coloring.spills next with
        | .error e => (.error e, b)
        | .ok sp => roundsInPlace k limit (round + 1) sp.nextSlot sp.body

/-- Allocate the first `k` registers in a body that is changed as it goes. -/
def allocateInPlace (b : Body) (k : Nat) : Except Fault Allocation × Body :=
  if k = 0 then (.error .noFreeRegisters, b) else roundsInPlace k (b.size + 1) 1 0 b

/-- Rounds that change the body leave the allocated one. -/
theorem roundsInPlace_eq {k limit round next : Nat} {b : Body} {a : Allocated}
    (h : allocateRounds k limit round next b = .ok a) :
    roundsInPlace k limit round next b = (.ok a.allocation, a.body) := by
  induction limit generalizing round next b a with
  | zero => cases h
  | succ limit ih =>
    obtain ⟨r, hr, h⟩ := bind_eq_ok_iff.1 h
    unfold roundsInPlace
    simp only [hr]
    by_cases hspills : r.coloring.spills.isEmpty
    · rw [if_pos hspills] at h ⊢
      cases h
      rfl
    · rw [if_neg hspills] at h ⊢
      obtain ⟨sp, hsp, h⟩ := bind_eq_ok_iff.1 h
      obtain ⟨rest, hrest, h⟩ := bind_eq_ok_iff.1 h
      cases h
      simp only [hsp]
      exact ih hrest

theorem allocateInPlace_eq {b : Body} {k : Nat} {a : Allocated} (h : b.allocate k = .ok a) :
    b.allocateInPlace k = (.ok a.allocation, a.body) := by
  unfold allocate at h
  unfold allocateInPlace
  by_cases hk : k = 0
  · rw [if_pos hk] at h
    cases h
  · rw [if_neg hk] at h ⊢
    exact roundsInPlace_eq h

/-- If the first round fails, the body has not been changed. -/
theorem allocate_of_round_eq_error {b : Body} {k : Nat} (hk : k ≠ 0) {e : Fault}
    (h : b.round k = .error e) :
    b.allocate k = .error e ∧ b.allocateInPlace k = (.error e, b) := by
  unfold allocate allocateInPlace roundsInPlace
  rw [if_neg hk, if_neg hk, h]
  exact ⟨bind_eq_error_iff.2 (Or.inl h), rfl⟩

/-- With registers to hand out, allocation succeeds on closed bodies; on others it fails in the
first round. -/
theorem WellFormed.cases_allocate {b : Body} (hb : b.WellFormed) {k : Nat} (hk : k ≠ 0) :
    (b.Closed ∧ ∃ a, b.allocate k = .ok a) ∨
      ∃ e, b.allocate k = .error e ∧ b.allocateInPlace k = (.error e, b) ∧
        ((∃ o, b.Missing o ∧ e = .notInBody o) ∨
          (∀ o, ¬ b.Missing o) ∧ ∃ l, b.FirstUnresolved l ∧ e = .unresolvedLabel l) := by
  rcases hb.cases_round k with hclosed | ⟨o, ho, hrun⟩ | ⟨hnone, l, hl, hrun⟩
  · obtain ⟨a, -, -, -, ha, -⟩ := hclosed.exists_rewritesTo (Nat.one_le_iff_ne_zero.2 hk)
    exact Or.inl ⟨hclosed, a, ha⟩
  · obtain ⟨halloc, hplace⟩ := allocate_of_round_eq_error hk hrun
    exact Or.inr ⟨_, halloc, hplace, Or.inl ⟨o, ho, rfl⟩⟩
  · obtain ⟨halloc, hplace⟩ := allocate_of_round_eq_error hk hrun
    exact Or.inr ⟨_, halloc, hplace, Or.inr ⟨hnone, l, hl, rfl⟩⟩

/-- **The outcome of allocation.**  Without registers it is refused.  Otherwise, if an operand is
missing, this is a defect of the body; or else, if a jump leads nowhere, the label of the first such
jump is reported; or else allocation succeeds.  Changing the body on the way comes to the same: it
ends with the allocated body, or with the body as it was.  For no round after the first one can
fail, neither in the analysis nor in adding spill code. -/
theorem WellFormed.outcome_allocate {b : Body} (hb : b.WellFormed) (k : Nat) :
    (k = 0 → b.allocate k = .error .noFreeRegisters) ∧
    (k ≠ 0 → (∃ o, b.Missing o) → ∃ o, b.Missing o ∧ b.allocate k = .error (.notInBody o)) ∧
    (k ≠ 0 → (∀ o, ¬ b.Missing o) → (∃ p l, b.Unresolved p l) →
      ∃ l, b.FirstUnresolved l ∧ b.allocate k = .error (.unresolvedLabel l)) ∧
    (k ≠ 0 → (∀ o, ¬ b.Missing o) → (∀ p l, ¬ b.Unresolved p l) → ∃ a, b.allocate k = .ok a) ∧
    (∀ e, b.allocate k = .error e → b.allocateInPlace k = (.error e, b)) ∧
    (∀ a, b.allocate k = .ok a → b.allocateInPlace k = (.ok a.allocation, a.body)) ∧
    ∀ n c next, RewritesTo k (n + 1) b 0 c next →
      ∃ r sp, c.round k = .ok r ∧ c.spill r.storage r.coloring.spills next = .ok sp := by
  refine ⟨fun h => if_pos h, ?_, ?_, ?_, ?_, fun a ha => allocateInPlace_eq ha, ?_⟩
  · rintro hk ⟨o, ho⟩
    rcases hb.cases_allocate hk with ⟨hclosed, -⟩ | ⟨e, he, -, ⟨o', ho', rfl⟩ | ⟨hnone, -⟩⟩
    · exact absurd ho (hclosed.not_missing o)
    · exact ⟨o', ho', he⟩
    · exact absurd ho (hnone o)
  · rintro hk hnone ⟨p, l, hp⟩
    rcases hb.cases_allocate hk with
      ⟨hclosed, -⟩ | ⟨e, he, -, ⟨o', ho', -⟩ | ⟨-, l', hl', rfl⟩⟩
    · exact absurd hp (hclosed.not_unresolved p l)
    · exact absurd ho' (hnone o')
    · exact ⟨l', hl', he⟩
  · intro hk hnone hjumps
    rcases hb.cases_allocate hk with
      ⟨-, hok⟩ | ⟨e, -, -, ⟨o', ho', -⟩ | ⟨-, l', ⟨p, hp, -⟩, -⟩⟩
    · exact hok
    · exact absurd ho' (hnone o')
    · exact absurd hp (hjumps p l')
  · intro e he
    by_cases hk : k = 0
    · unfold allocate at he
      unfold allocateInPlace
      rw [if_pos hk] at he ⊢
      cases he
      rfl
    · rcases hb.cases_allocate hk with ⟨-, a, ha⟩ | ⟨e', he', hplace, -⟩
      · rw [ha] at he
        cases he
      · rw [hplace, Except.error.inj (he.symm.trans he')]
  · intro n c next h
    have hclosed : b.Closed := by
      cases h with
      | more step _ => exact hb.closed_of_round step.round_eq
    obtain ⟨r, hrun, hr⟩ := (h.closed hclosed).exists_round k
    obtain ⟨-, -, -, sp, hsp, -⟩ := (h.closed hclosed).exists_spill hr next
    exact ⟨r, sp, hrun, hsp⟩

/-- A loop, then two jumps that lead nowhere. -/
def lost : Body :=
  .ofOps [.label (.whileCond 0), .goto (.whileCond 0), .goto (.ifElse 1), .goto (.ifDone 2)]

/-- The first of the two jumps is reported, and nothing has changed. -/
theorem outcome_lost :
    lost.WellFormed ∧ (∀ o, ¬ lost.Missing o) ∧ lost.FirstUnresolved (.ifElse 1) ∧
      lost.allocate 2 = .error (.unresolvedLabel (.ifElse 1)) ∧
      lost.allocateInPlace 2 = (.error (.unresolvedLabel (.ifElse 1)), lost) := by
  have hb : lost.WellFormed := (built_ofOps _).wellFormed
  have hnone : ∀ o, ¬ lost.Missing o := by
    rintro o ⟨hnot, e, he, ho⟩
    have hall : ∀ e ∈ lost.toList, ∀ o ∈ e.2.op.operands, o ∈ lost.order := by decide
    exact hnot (hall e he o ho)
  have hfirst : lost.FirstUnresolved (.ifElse 1) := by
    refine ⟨2, ⟨⟨_, rfl, rfl⟩, by decide⟩, fun q l hq => ?_⟩
    by_contra hlt
    have hfound : ∀ q < 2, ∀ op ∈ lost.ops[q]?, ∀ l ∈ op.target, .label l ∈ lost.ops := by decide
    obtain ⟨⟨op, hop, hl⟩, hmem⟩ := hq
    exact hmem (hfound q (not_le.1 hlt) op hop l hl)
  obtain ⟨-, -, hjump, -, hplace, -, -⟩ := hb.outcome_allocate 2
  obtain ⟨l, hl, hrun⟩ :=
    hjump (by decide) hnone (Exists.imp (fun _ hp => ⟨.ifElse 1, hp.1⟩) hfirst)
  rw [← hfirst.eq hl] at hrun
  exact ⟨hb, hnone, hfirst, hrun, hplace _ hrun⟩

end Body

end Backend
