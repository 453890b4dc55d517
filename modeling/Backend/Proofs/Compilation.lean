/-
# Compiled programs keep the calling convention

Lowered code, once pinned, is a conventional body (`Lowering.Lowered.conventional`), so that every
method of a compiled program keeps the calling convention of the register file
(`Source.Program.keepsConvention_compile`).
-/
import Mathlib
import Backend.Compile
import Backend.Proofs.Arguments
import Backend.Proofs.Convention

namespace Backend

/-! ## Pinned bodies -/

/-- Pin the listed instructions. -/
def pinAll (store : Array Instr) (pins : List (Nat × Nat)) : Array Instr :=
  pins.foldl (fun s p => s.modify p.1 fun i => { i with pin := some p.2 }) store

/-- Instructions that are not pinned stay as they are. -/
theorem getElem?_pinAll_of_notMem {pins : List (Nat × Nat)} {x : Nat} (h : x ∉ pins.map (·.1))
    (store : Array Instr) : (pinAll store pins)[x]? = store[x]? := by
  induction pins generalizing store with
  | nil => rfl
  | cons p ps ih =>
    rw [List.map_cons, List.mem_cons, not_or] at h
    show (pinAll (store.modify p.1 fun i => { i with pin := some p.2 }) ps)[x]? = _
    rw [ih h.2, Array.getElem?_modify, if_neg (Ne.symm h.1)]

/-- Instructions that are pinned get the register that is listed for them. -/
theorem getElem?_pinAll_of_mem {pins : List (Nat × Nat)} (hd : (pins.map (·.1)).Nodup) {x r : Nat}
    (h : (x, r) ∈ pins) (store : Array Instr) :
    (pinAll store pins)[x]? = store[x]?.map fun i => { i with pin := some r } := by
  induction pins generalizing store with
  | nil => cases h
  | cons p ps ih =>
    rw [List.map_cons, List.nodup_cons] at hd
    show (pinAll (store.modify p.1 fun i => { i with pin := some p.2 }) ps)[x]? = _
    rcases List.mem_cons.1 h with rfl | h
    · rw [getElem?_pinAll_of_notMem hd.1, Array.getElem?_modify, if_pos rfl]
    · have hne : p.1 ≠ x := fun heq => hd.1 (List.mem_map.2 ⟨(x, r), h, heq.symm⟩)
      rw [ih hd.2 h, Array.getElem?_modify, if_neg hne]

namespace Body

variable {b : Body} (hb : b.WellFormed) (f : RegisterFile)

include hb

/-- What the convention pins: arguments and parameters that have a register. -/
theorem mem_conventionPins {x r : Nat} : (x, r) ∈ b.conventionPins f ↔
    ∃ i, b.store[x]? = some i ∧ i.op.argIndex.bind f.argRegister = some r := by
  rw [conventionPins, List.mem_filterMap]
  constructor
  · rintro ⟨⟨id, i⟩, hmem, he⟩
    obtain ⟨r', hr', he⟩ := Option.map_eq_some_iff.1 he
    cases he
    exact ⟨i, hb.mem_toList.1 hmem, hr'⟩
  · rintro ⟨i, hi, hr⟩
    refine ⟨(x, i), hb.mem_toList.2 hi, ?_⟩
    show (i.op.argIndex.bind f.argRegister).map (fun r => (x, r)) = some (x, r)
    rw [hr]
    rfl

/-- The convention pins an instruction at most once. -/
theorem nodup_conventionPins : ((b.conventionPins f).map (·.1)).Nodup := by
  have hsub : ((b.conventionPins f).map (·.1)).Sublist (b.toList.map (·.1)) := by
    rw [conventionPins]
    induction b.toList with
    | nil => exact List.Sublist.refl _
    | cons e es ih =>
      rw [List.filterMap_cons]
      split
      · exact ih.cons _
      · rename_i p hp
        obtain ⟨r, -, rfl⟩ := Option.map_eq_some_iff.1 hp
        exact ih.cons_cons _
  rw [hb.map_fst_toList] at hsub
  exact hb.nodup.sublist hsub

/-- The calling convention adds pins and changes nothing else. -/
theorem getElem?_pinConvention (x : Nat) : (b.pinConvention f).value.store[x]? =
    b.store[x]?.map fun i =>
      { i with pin := (i.op.argIndex.bind f.argRegister).or i.pin } := by
  show (pinAll b.store (b.conventionPins f))[x]? = _
  cases hi : b.store[x]? with
  | none =>
    rw [getElem?_pinAll_of_notMem, hi]
    · rfl
    · intro hx
      obtain ⟨p, hp, rfl⟩ := List.mem_map.1 hx
      obtain ⟨i, hi', -⟩ := (mem_conventionPins hb f).1 hp
      rw [hi] at hi'
      cases hi'
  | some i =>
    cases hr : i.op.argIndex.bind f.argRegister with
    | none =>
      rw [getElem?_pinAll_of_notMem, hi, Option.map_some, hr]
      · rfl
      · intro hx
        obtain ⟨p, hp, rfl⟩ := List.mem_map.1 hx
        obtain ⟨i', hi', hr'⟩ := (mem_conventionPins hb f).1 hp
        obtain rfl : i = i' := Option.some.inj (hi.symm.trans hi')
        rw [hr] at hr'
        cases hr'
    | some r =>
      have hmem : (x, r) ∈ b.conventionPins f := (mem_conventionPins hb f).2 ⟨i, hi, hr⟩
      rw [getElem?_pinAll_of_mem (nodup_conventionPins hb f) hmem, hi, Option.map_some,
        Option.map_some, hr]
      rfl

/-- Pinning keeps the operations. -/
theorem sameOps_pinConvention : b.SameOps (b.pinConvention f).value where
  order := rfl
  op x := by
    rw [getElem?_pinConvention hb f, Option.map_map]
    rfl

end Body

/-- **Lowered code, once pinned, is a conventional body.** -/
theorem Lowering.Lowered.conventional {decls : List Name} {first d : Draft}
    (h : Lowered decls first d) (f : RegisterFile) :
    (d.body.pinConvention f).value.Conventional f := by
  have hsame := Body.sameOps_pinConvention d.wellFormed_body f
  have hops : ∀ {x : Nat} {i : Instr}, (d.body.pinConvention f).value.store[x]? = some i →
      d.ops[x]? = some i.op := by
    intro x i hi
    obtain ⟨j, hj, hop⟩ := hsame.symm.getElem?_eq_some hi
    rw [getElem?_ops_of_store hj, hop]
  have hstore : ∀ {x : Nat} {i : Instr}, (d.body.pinConvention f).value.store[x]? = some i →
      i.isSpillCode = false ∧ i.pin = i.op.argIndex.bind f.argRegister := by
    intro x i hi
    rw [Body.getElem?_pinConvention d.wellFormed_body f] at hi
    obtain ⟨j, hj, rfl⟩ := Option.map_eq_some_iff.1 hi
    obtain ⟨hpin, hcode⟩ := h.bare j (Array.mem_toList_iff.2 (Array.mem_of_getElem? hj))
    refine ⟨hcode, ?_⟩
    show Option.or _ j.pin = _
    rw [hpin, Option.or_none]
  refine
    { toClosed := hsame.closed h.closed
      plain := fun x i hi => (hstore hi).1
      pins := fun x i hi => (hstore hi).2
      alone := fun x y i j hi hj hx hy hxy => ?_
      parameters := fun x y i j n hi hj hx hy => ?_
      args := fun x y i j u v n hi hj hx hy hne hxy => ?_
      older := fun s x y i j n u m v w hs hi hj hx hy hxv hyw => ?_ }
  · have hxy' := hsame.linked_iff.1 hxy
    obtain ⟨n, hn⟩ := Option.isSome_iff_exists.1 hx
    obtain ⟨m, hm⟩ := Option.isSome_iff_exists.1 hy
    have hi' := hops hi
    have hj' := hops hj
    rcases Op.argIndex_eq_some hn with hop | ⟨u, hop⟩
    · rw [hop] at hi'
      rcases Op.argIndex_eq_some hm with hop' | ⟨v, hop'⟩
      · rw [hop'] at hj'
        exact h.eq_of_linked_parameter hi' hj' hxy'
      · rw [hop'] at hj'
        exact (h.eq_of_linked_arg hj' ((Body.linked_equivalence _).symm hxy')).symm
    · rw [hop] at hi'
      exact h.eq_of_linked_arg hi' hxy'
  · exact (h.parameter_eq (hx ▸ hops hi)).trans (h.parameter_eq (hy ▸ hops hj)).symm
  · exact h.not_together_args (hx ▸ hops hi) (hy ▸ hops hj) hne (hsame.symm.together hxy)
  · rw [← Storage.ofBody_congr hsame] at hs
    exact h.var_parameter_lt hs (hx ▸ hops hi) (hy ▸ hops hj) hxv hyw

/-! ## Allocated bodies -/

/-- The allocated body `c` of the code `b` keeps the calling convention: arguments are in the
registers that carry them, and so are parameters, except for those that are live together with an
argument with their index, which are stored to the stack at once. -/
structure Body.KeepsConvention (b : Body) (f : RegisterFile) (c : Body) : Prop where
  arg : ∀ (x v n r : Nat) (j : Instr), c.store[x]? = some j → j.op = .arg v n →
    f.argRegister n = some r → j.register = some r ∧ j.slot = none
  parameter : ∀ (x n r : Nat) (j : Instr), c.store[x]? = some j → j.op = .parameter n →
    f.argRegister n = some r → ¬ b.MeetsArg x n → j.register = some r ∧ j.slot = none
  contended : ∀ (x n r : Nat) (j : Instr), c.store[x]? = some j → j.op = .parameter n →
    f.argRegister n = some r → b.MeetsArg x n → j.register = none ∧
      ∃ q, j.slot = some q ∧ c.StoredBehind x q

theorem Op.argIndex_mapOperands (g : Nat → Nat) (op : Op) :
    (op.mapOperands g).argIndex = op.argIndex := by cases op <;> rfl

/-- Whether an argument is met depends on the operations only. -/
theorem Body.MeetsArg.congr {b c : Body} (h : b.SameOps c) {x n : Nat} (hx : b.MeetsArg x n) :
    c.MeetsArg x n := by
  obtain ⟨y, i, v, hi, hop, hlive⟩ := hx
  obtain ⟨j, hj, hop'⟩ := h.getElem?_eq_some hi
  exact ⟨y, j, v, hj, hop'.trans hop, h.liveTogether hlive⟩

/-- **The code of a method keeps the calling convention.** -/
theorem Lowering.Lowered.keepsConvention {decls : List Name} {first d : Draft}
    (h : Lowered decls first d) {f : RegisterFile} (hf : f.args.Nodup) {a : Allocated}
    (ha : (d.body.pinConvention f).value.allocate f.free = .ok a) :
    d.body.KeepsConvention f a.body := by
  have hconv := h.conventional f
  have hsame := Body.sameOps_pinConvention d.wellFormed_body f
  have hmeets : ∀ {x n : Nat}, (d.body.pinConvention f).value.MeetsArg x n ↔ d.body.MeetsArg x n :=
    ⟨.congr hsame.symm, .congr hsame⟩
  -- an instruction that the convention concerns is one of the pinned body
  have hold : ∀ {x n r : Nat} {j : Instr}, a.body.store[x]? = some j → j.op.argIndex = some n →
      f.argRegister n = some r → ∃ i g, (d.body.pinConvention f).value.store[x]? = some i ∧
        j.op = i.op.mapOperands g ∧ i.pin = some r := by
    intro x n r j hj hn hr
    have hk : 1 ≤ f.free := Nat.one_le_of_lt (RegisterFile.argRegister_lt hr)
    obtain ⟨a', ha', hret⟩ := hconv.toClosed.retained_allocate hk
    obtain rfl : a = a' := Except.ok.inj (ha.symm.trans ha')
    have hlt : x < (d.body.pinConvention f).value.store.size := by
      by_contra hge
      have hacc := (hret.new x j hj (not_lt.1 hge)).1
      rcases Op.argIndex_eq_some hn with hop | ⟨v, hop⟩ <;> rw [hop] at hacc <;> cases hacc
    obtain ⟨i, hi⟩ := Body.exists_instr hlt
    obtain ⟨j', g, hj', hop, -⟩ := hret.old x i hi
    obtain rfl : j = j' := Option.some.inj (hj.symm.trans hj')
    refine ⟨i, g, hi, hop, ?_⟩
    rw [hconv.pins x i hi, ← Op.argIndex_mapOperands g, ← hop, hn]
    exact hr
  constructor
  · intro x v n r j hj hop hr
    obtain ⟨i, g, hi, hop', hpin⟩ := hold hj (by rw [hop]; rfl) hr
    refine (hconv.cases_allocate hf ha hi hpin hj).2 ?_
    rintro ⟨m, hparam, -⟩
    rw [hparam, hop] at hop'
    cases hop'
  · intro x n r j hj hop hr hnot
    obtain ⟨i, g, hi, hop', hpin⟩ := hold hj (by rw [hop]; rfl) hr
    refine (hconv.cases_allocate hf ha hi hpin hj).2 ?_
    rintro ⟨m, hparam, hmeet⟩
    rw [hparam, hop] at hop'
    cases hop'
    exact hnot (hmeets.1 hmeet)
  · intro x n r j hj hop hr hmeet
    obtain ⟨i, g, hi, hop', hpin⟩ := hold hj (by rw [hop]; rfl) hr
    refine (hconv.cases_allocate hf ha hi hpin hj).1 ⟨n, ?_, hmeets.2 hmeet⟩
    have hn : i.op.argIndex = some n := by rw [← Op.argIndex_mapOperands g, ← hop', hop]; rfl
    rcases Op.argIndex_eq_some hn with hparam | ⟨v, harg⟩
    · exact hparam
    · rw [harg, hop] at hop'
      cases hop'

/-! ## Programs -/

/-- What goes through a traversal is related entry by entry. -/
theorem Traced.forall₂_of_traverse {α β : Type} {g : α → Except Fault (Traced β)} {as : List α}
    {t : Traced (List β)} (h : traverse g as = .ok t) :
    List.Forall₂ (fun a b => ∃ s, g a = .ok s ∧ s.value = b) as t.value := by
  induction as generalizing t with
  | nil =>
    cases h
    exact .nil
  | cons a as ih =>
    obtain ⟨s, hs, h⟩ := bind_eq_ok_iff.1 h
    obtain ⟨ss, hss, h⟩ := bind_eq_ok_iff.1 h
    cases h
    exact .cons ⟨s, hs, rfl⟩ (ih hss)

/-- Every result of a traversal is the result for some element. -/
theorem Traced.exists_of_mem_traverse {α β : Type} {g : α → Except Fault (Traced β)} {as : List α}
    {t : Traced (List β)} (h : traverse g as = .ok t) {b : β} (hb : b ∈ t.value) :
    ∃ a s, g a = .ok s ∧ s.value = b := by
  have hall := forall₂_of_traverse h
  clear h
  generalize t.value = bs at hall hb
  induction hall with
  | nil => cases hb
  | cons hab _ ih =>
    rcases List.mem_cons.1 hb with rfl | hb
    · exact ⟨_, hab⟩
    · exact ih hb

/-- Every method of a lowered program has lowered code. -/
theorem Source.Program.exists_lowered {p : Program} {t : Traced Code.Program}
    (h : p.lower = .ok t) {m : Code.Method} (hm : m ∈ t.value.methods) :
    ∃ decls first d, m.body = Lowering.Draft.body d ∧ Lowering.Lowered decls first d := by
  obtain ⟨main, hmain, h⟩ := bind_eq_ok_iff.1 h
  obtain ⟨classes, hclasses, h⟩ := bind_eq_ok_iff.1 h
  cases h
  rcases List.mem_cons.1 hm with rfl | hm
  · obtain ⟨first, d, hbody, hd⟩ := Lowering.exists_lowered_main hmain
    exact ⟨[], first, d, hbody, hd⟩
  · obtain ⟨c, hc, hm⟩ := List.mem_flatMap.1 hm
    obtain ⟨c₀, s, hs, rfl⟩ := Traced.exists_of_mem_traverse hclasses hc
    obtain ⟨ms, hms, hs⟩ := bind_eq_ok_iff.1 hs
    cases hs
    obtain ⟨m₀, s, hs, rfl⟩ := Traced.exists_of_mem_traverse hms hm
    obtain ⟨first, d, hbody, hd⟩ := Lowering.exists_lowered_method hs
    exact ⟨m₀.declared, first, d, hbody, hd⟩

/-- Methods whose code is the allocation of other methods' code. -/
def Code.Method.AllocatedAs (k : Nat) (m m' : Method) : Prop :=
  ∃ a, m.body.allocate k = .ok a ∧ m'.body = a.body

theorem Code.Method.allocatedAs_of_allocate {k : Nat} {m : Method}
    {t : Traced (Allocation × Method)} (h : m.allocate k = .ok t) : m.AllocatedAs k t.value.2 := by
  obtain ⟨a, ha, h⟩ := bind_eq_ok_iff.1 h
  cases h
  exact ⟨a, ha, rfl⟩

/-- Allocating a program allocates its methods one by one. -/
theorem Code.Program.forall₂_of_allocate {k : Nat} {p : Program}
    {t : Traced (List Allocation × Program)} (h : p.allocate k = .ok t) :
    List.Forall₂ (Method.AllocatedAs k) p.methods t.value.2.methods := by
  obtain ⟨main, hmain, h⟩ := bind_eq_ok_iff.1 h
  obtain ⟨classes, hclasses, h⟩ := bind_eq_ok_iff.1 h
  cases h
  refine .cons (Method.allocatedAs_of_allocate hmain) ?_
  show List.Forall₂ _ (p.classes.flatMap (·.methods))
    ((classes.value.map (·.2)).flatMap (·.methods))
  rw [List.flatMap_map]
  refine List.rel_flatMap (Traced.forall₂_of_traverse hclasses) ?_
  rintro c _ ⟨s, hs, rfl⟩
  obtain ⟨ms, hms, hs⟩ := bind_eq_ok_iff.1 hs
  cases hs
  refine List.forall₂_map_right_iff.2 ((Traced.forall₂_of_traverse hms).imp ?_)
  rintro m _ ⟨s, hs, rfl⟩
  exact Method.allocatedAs_of_allocate hs

/-- The methods of a program after pinning. -/
theorem Code.Program.methods_pinConvention (f : RegisterFile) (p : Program) :
    (p.pinConvention f).value.methods = p.methods.map fun m => (m.pinConvention f).value := by
  simp only [Program.pinConvention, Program.methods, Class.pinConvention, List.map_cons,
    List.flatMap_map, List.map_flatMap, List.map_map, Function.comp_def]

/-- **Calling convention of compiled programs.**  If the registers that carry arguments are
different ones, every method of a compiled program keeps the calling convention with respect to its
code before allocation. -/
theorem Source.Program.keepsConvention_compile {p : Program} {f : RegisterFile}
    (hf : f.args.Nodup) {c : Traced Code.Program} (h : p.compile f = .ok c) :
    ∃ low, p.lower = .ok low ∧
      List.Forall₂ (fun m m' => m.body.KeepsConvention f m'.body) low.value.methods
        c.value.methods := by
  obtain ⟨low, hlow, h⟩ := bind_eq_ok_iff.1 h
  obtain ⟨done, hdone, h⟩ := bind_eq_ok_iff.1 h
  cases h
  refine ⟨low, hlow, ?_⟩
  have hmethods := Code.Program.forall₂_of_allocate hdone
  rw [Code.Program.methods_pinConvention, List.forall₂_map_left_iff] at hmethods
  have hboth := (List.forall₂_and_left _ _).2 ⟨fun _ hm => exists_lowered hlow hm, hmethods⟩
  refine hboth.imp ?_
  rintro m m' ⟨⟨decls, first, d, hd, hlowered⟩, a, ha, hbody⟩
  rw [hbody, hd]
  refine hlowered.keepsConvention hf ?_
  rw [← hd]
  exact ha

/-- A program whose method `again(p)` calls itself before it uses its parameter. -/
def recursive : Source.Program where
  main := { name := "Main", body := .skip }
  classes := [{ name := "C", methods := [{
    name := "again"
    params := [{ name := "p" }]
    result := .binary .plus (.call (.this {}) "again" [.int 1 {}] {}) (.var "p" {}) {} }] }]

/-- The parameter is live while the argument is handed over, so that it is stored at once. -/
theorem keepsConvention_recursive :
    ({ free := 2, args := [0] } : RegisterFile).args.Nodup ∧
      ∃ (low c : Traced Code.Program) (m m' : Code.Method) (j : Instr) (q : Nat),
      recursive.lower = .ok low ∧ recursive.compile { free := 2, args := [0] } = .ok c ∧
      low.value.methods[1]? = some m ∧ c.value.methods[1]? = some m' ∧ m.body.MeetsArg 0 0 ∧
      m'.body.store[0]? = some j ∧ j.op = .parameter 0 ∧ j.register = none ∧ j.slot = some q ∧
      m'.body.StoredBehind 0 q := by
  have hf : ({ free := 2, args := [0] } : RegisterFile).args.Nodup := by decide
  have hrun : (recursive.compile { free := 2, args := [0] }).toOption.any
      (fun t : Traced Code.Program => t.value.methods[1]?.any fun m : Code.Method =>
        m.body.store[0]?.any fun j : Instr => decide (j.op = .parameter 0)) = true := by
    decide +kernel
  have hlive : recursive.lower.toOption.any (fun t : Traced Code.Program =>
      t.value.methods[1]?.any fun m : Code.Method =>
        m.body.store[3]?.any (fun i : Instr => decide (i.op = .arg 2 0)) &&
        (Storage.ofBody m.body).toOption.any fun s : Storage =>
          (FlowGraph.ofBody m.body s).toOption.any fun g : FlowGraph =>
            decide (s.var? 0 = some 0 ∧ s.var? 3 = some 3 ∧
              ∃ live ∈ Interference.liveSets g.analyze.2, 0 ∈ live ∧ 3 ∈ live)) = true := by
    decide +kernel
  obtain ⟨c, hc, hm'⟩ := exists_ok_of_any hrun
  obtain ⟨m', hm', hj⟩ := (Option.any_eq_true _ _).1 hm'
  obtain ⟨j, hj, hop⟩ := (Option.any_eq_true _ _).1 hj
  obtain ⟨low, hlow, hm⟩ := exists_ok_of_any hlive
  obtain ⟨m, hm, htest⟩ := (Option.any_eq_true _ _).1 hm
  obtain ⟨harg, hs⟩ := Bool.and_eq_true_iff.1 htest
  obtain ⟨i, hi, hopi⟩ := (Option.any_eq_true _ _).1 harg
  obtain ⟨s, hs, hg⟩ := exists_ok_of_any hs
  obtain ⟨g, hg, htest⟩ := exists_ok_of_any hg
  obtain ⟨h0, h3, hsets⟩ := of_decide_eq_true htest
  have hmeets : m.body.MeetsArg 0 0 :=
    ⟨3, i, 2, hi, of_decide_eq_true hopi, s, g, 0, 3, hs, hg, h0, h3, hsets⟩
  obtain ⟨low', hlow', hall⟩ := Source.Program.keepsConvention_compile hf hc
  obtain rfl : low = low' := Except.ok.inj (hlow.symm.trans hlow')
  obtain ⟨hlt, rfl⟩ := List.getElem?_eq_some_iff.1 hm
  obtain ⟨hlt', rfl⟩ := List.getElem?_eq_some_iff.1 hm'
  have hkeeps := hall.get hlt hlt'
  obtain ⟨hreg, q, hslot, hstored⟩ :=
    hkeeps.contended 0 0 0 j hj (of_decide_eq_true hop) (by decide) hmeets
  exact ⟨hf, low, c, _, _, j, q, hlow, hc, hm, hm', hmeets, hj, of_decide_eq_true hop, hreg, hslot,
    hstored⟩

end Backend
