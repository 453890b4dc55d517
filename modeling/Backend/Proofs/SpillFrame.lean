/-
# Allocation adds spill code and nothing else

After any number of rounds the body still is the old one with loads and stores in between
(`Body.DiffersBySpills`): without them its order is the old order; an old instruction reads what it
read, or the load of it that stands right in front; and every store stands right behind the old
instruction whose value it saves.  One round keeps this (`Body.Expands.differsBySpills`), so an
allocation does (`Body.WellFormed.differsBySpills_allocate`).
-/
import Mathlib
import Backend.Proofs.Convention
import Backend.Proofs.Outcome

namespace Backend

/-! ## Lists of instructions without loads and stores -/

/-- The numbers of the instructions that are no loads or stores. -/
def plainIds (es : List (Nat × Instr)) : List Nat :=
  (es.filter fun e => !e.2.op.accessesSlot).map (·.1)

theorem plainIds_append (es fs : List (Nat × Instr)) :
    plainIds (es ++ fs) = plainIds es ++ plainIds fs := by
  unfold plainIds
  rw [List.filter_append, List.map_append]

/-- Around an instruction there are only loads and stores. -/
theorem SlotMap.plainIds_around (slots : SlotMap) (first id : Nat) (i : Instr) :
    plainIds (slots.around first id i) = plainIds [(id, i)] := by
  have hop : (slots.moved first id i).op.accessesSlot = i.op.accessesSlot := by
    rw [moved, Op.accessesSlot_mapOperands]
  have hloads : ((slots.toLoad id i.op).mapIdx fun n s =>
      (first + n, ({ op := .load s, span := i.span } : Instr))).filter
        (fun e => !e.2.op.accessesSlot) = [] := by
    rw [List.filter_eq_nil_iff]
    intro e he
    obtain ⟨n, -, rfl⟩ := List.mem_mapIdx.1 he
    simp [Op.accessesSlot]
  have hstore : ((slots.toStore id i.op).toList.map fun s =>
      (first + (slots.toLoad id i.op).length,
        ({ op := .store id s, span := i.span } : Instr))).filter
          (fun e => !e.2.op.accessesSlot) = [] := by
    rw [List.filter_eq_nil_iff]
    intro e he
    obtain ⟨s, -, rfl⟩ := List.mem_map.1 he
    simp [Op.accessesSlot]
  unfold plainIds around
  rw [List.filter_append, hloads, List.nil_append, List.filter_cons, List.filter_cons, hstore, hop]
  split <;> rfl

namespace Body

/-! ## Operations by number -/

/-- The operation of an instruction. -/
def op? (b : Body) (x : Nat) : Option Op := b.store[x]?.map (·.op)

theorem op?_eq {b : Body} {x : Nat} {i : Instr} (h : b.store[x]? = some i) :
    b.op? x = some i.op := by
  rw [op?, h]
  rfl

theorem op?_eq_some {b : Body} {x : Nat} {op : Op} :
    b.op? x = some op ↔ ∃ i, b.store[x]? = some i ∧ i.op = op := Option.map_eq_some_iff

/-- The order without loads and stores. -/
def plainOrder (b : Body) : List Nat := b.order.filter fun x => !(b.op? x).any Op.accessesSlot

theorem WellFormed.plainOrder_eq {b : Body} (hb : b.WellFormed) :
    b.plainOrder = plainIds b.toList := by
  unfold plainOrder plainIds
  rw [← hb.map_fst_toList, List.filter_map]
  congr 1
  apply List.filter_congr
  rintro ⟨x, i⟩ he
  show (!(b.op? x).any Op.accessesSlot) = !i.op.accessesSlot
  rw [op?_eq (hb.mem_toList.1 he)]
  rfl

/-- A body without spill code has no loads and stores to leave out. -/
theorem Plain.plainOrder_eq {b : Body} (hb : b.Plain) : b.plainOrder = b.order := by
  apply List.filter_eq_self.2
  intro x _
  cases hx : b.store[x]? with
  | none => rw [op?, hx]; rfl
  | some i =>
    rw [op?_eq hx]
    show (!i.op.accessesSlot) = true
    rw [(Instr.isSpillCode_eq_false.1 (hb x i hx)).2]
    rfl

/-! ## Reading from the stack -/

/-- `y` loads the slot `q` for `x`: it stands in front of `x`, with nothing but loads up to `x`. -/
def LoadsFor (b : Body) (y q x : Nat) : Prop :=
  b.op? y = some (.load q) ∧ ∃ r p : Nat, b.order[r]? = some y ∧ b.order[p]? = some x ∧ r < p ∧
    ∀ t, r ≤ t → t < p → ∃ z s, b.order[t]? = some z ∧ b.op? z = some (.load s)

/-- As part of `b`, the instruction `x` with the operation `op'` does what `op` says, reading from
the stack what has moved there.  Joins stay as they are. -/
def Rereads (b : Body) (x : Nat) (op op' : Op) : Prop :=
  ∃ f : Nat → Nat, op' = op.mapOperands f ∧ (op.isUnify = true → op' = op) ∧
    (op.isUnify = false → ∀ o ∈ op.operands,
      (b.slot? o = none ∧ f o = o) ∨ ∃ q, b.slot? o = some q ∧ b.LoadsFor (f o) q x)

/-- The body `c` is the body `b` with spill code for the slots below `slots`. -/
structure DiffersBySpills (b c : Body) (slots : Nat) : Prop where
  /-- Without loads and stores, the order is the old one. -/
  order : c.plainOrder = b.order
  /-- Old instructions keep their place in the source, their pin and, up to operands that have moved
  to the stack, their operation. -/
  kept : ∀ (x : Nat) (i : Instr), b.store[x]? = some i → ∃ j, c.store[x]? = some j ∧
    j.span = i.span ∧ j.pin = i.pin ∧ c.Rereads x i.op j.op
  /-- A store saves the value of the old instruction in front of it. -/
  stores : ∀ y m q, c.op? y = some (.store m q) → c.slot? m = some q ∧
    (∃ i, b.store[m]? = some i ∧ i.op.definesValue = true ∧ i.op.isUnify = false) ∧
    ∃ p : Nat, c.order[p]? = some m ∧ c.order[p + 1]? = some y
  /-- What has moved to the stack is saved once wherever it gets a value. -/
  stored : ∀ (m : Nat) (i : Instr) (q : Nat), b.store[m]? = some i → i.op.definesValue = true →
    i.op.isUnify = false → c.slot? m = some q → ∃! y, ∃ s, c.op? y = some (.store m s)
  /-- All slots are used. -/
  used : ∀ q < slots, ∃ x, c.slot? x = some q

/-- A body without spill code, before the first round. -/
theorem Plain.differsBySpills {b : Body} (hb : b.Plain) : b.DiffersBySpills b 0 where
  order := hb.plainOrder_eq
  kept x i hi := by
    refine ⟨i, hi, rfl, rfl, id, (Op.mapOperands_eq_self fun _ _ => rfl).symm, fun _ => rfl, ?_⟩
    intro _ o _
    exact Or.inl ⟨hb.slot?_eq_none o, rfl⟩
  stores y m q h := by
    obtain ⟨i, hi, hop⟩ := op?_eq_some.1 h
    have hacc := (Instr.isSpillCode_eq_false.1 (hb y i hi)).2
    rw [hop] at hacc
    exact absurd hacc (by simp [Op.accessesSlot])
  stored m i q _ _ _ h := by
    rw [hb.slot?_eq_none] at h
    cases h
  used q hq := absurd hq (Nat.not_lt_zero q)

/-! ## One expansion -/

namespace Expands

variable {b c d : Body} {slots : SlotMap} {start fresh : Nat → Nat}

theorem span_written (first id : Nat) (i : Instr) : (written slots first id i).span = i.span := by
  show (slots.mark id i).span = i.span
  rw [SlotMap.mark_eq]

section

variable (hx : c.Expands d slots start fresh) (hc : c.WellFormed)

include hx hc

/-- **Step lemma.**  Spill code adds loads and stores to the part of a body up to a position. -/
theorem plainIds_take {p : Nat} (hp : p ≤ c.size) :
    plainIds (d.toList.take (start p)) = plainIds (c.toList.take p) := by
  induction p with
  | zero =>
    rw [hx.start_zero]
    rfl
  | succ p ih =>
    have hlt : p < c.toList.length := by
      rw [hc.length_toList]
      exact hp
    have hentry : c.toList[p]? = some (c.toList[p].1, c.toList[p].2) := List.getElem?_eq_getElem hlt
    have hmark : plainIds [(c.toList[p].1, slots.mark c.toList[p].1 c.toList[p].2)] =
        plainIds [(c.toList[p].1, c.toList[p].2)] := by
      unfold plainIds
      simp only [List.filter_cons, SlotMap.op_mark, List.filter_nil]
      split <;> rfl
    rw [hx.take_start_succ hc hentry, plainIds_append, ih (Nat.le_of_succ_le hp),
      SlotMap.plainIds_around, hmark, List.take_add_one, hentry, plainIds_append]
    rfl

/-- **Run lemma.**  Spill code adds loads and stores. -/
theorem plainOrder_eq : d.plainOrder = c.plainOrder := by
  have h := hx.plainIds_take hc (le_refl c.size)
  rw [← hx.size_eq, ← hx.wellFormed.length_toList, List.take_length, ← hc.length_toList,
    List.take_length] at h
  rw [hx.wellFormed.plainOrder_eq, hc.plainOrder_eq, h]

/-- An operation stays if none of its operands moves to the stack. -/
theorem op?_kept {y : Nat} {op : Op} (hy : c.op? y = some op)
    (hnone : ∀ o ∈ op.operands, slots.slotOf o = none) : d.op? y = some op := by
  obtain ⟨i, hi, rfl⟩ := op?_eq_some.1 hy
  obtain ⟨p, hp⟩ := hc.exists_position hi
  rw [op?_eq (hx.store_main hp), op_written, Op.mapOperands_eq_self]
  intro o ho
  rw [SlotMap.redirect, hnone o ho]
  rfl

omit hc in
/-- A new load stands right in front of what it loads for. -/
theorem loadsFor_given {p x n q : Nat} {i : Instr} (hp : c.toList[p]? = some (x, i))
    (hq : (slots.toLoad x i.op)[n]? = some q) : d.LoadsFor (fresh p + n) q x := by
  have hload : ∀ {m s : Nat}, (slots.toLoad x i.op)[m]? = some s →
      d.order[start p + m]? = some (fresh p + m) ∧ d.op? (fresh p + m) = some (.load s) := by
    intro m s hs
    obtain ⟨hord, hstore⟩ := hx.wellFormed.getElem?_toList_eq_some.1 (hx.getElem?_load hp hs)
    exact ⟨hord, op?_eq hstore⟩
  refine ⟨(hload hq).2, start p + n, start p + (slots.toLoad x i.op).length, (hload hq).1,
    (hx.wellFormed.getElem?_toList_eq_some.1 (hx.getElem?_main hp)).1, ?_, fun t hle hlt => ?_⟩
  · have := (List.getElem?_eq_some_iff.1 hq).1
    omega
  · have hm : t - start p < (slots.toLoad x i.op).length := by omega
    obtain ⟨hord, hop⟩ := hload (List.getElem?_eq_getElem hm)
    rw [show start p + (t - start p) = t by omega] at hord
    exact ⟨_, _, hord, hop⟩

omit hc in
/-- An operand of an instruction that moves to the stack is exchanged for its load, any other one
stays. -/
theorem redirect_operand {p x o : Nat} {i : Instr} (hp : c.toList[p]? = some (x, i))
    (hunify : i.op.isUnify = false) (ho : o ∈ i.op.operands) :
    (slots.slotOf o = none ∧ slots.redirect (slots.toLoad x i.op) (fresh p) o = o) ∨
      ∃ q, slots.slotOf o = some q ∧
        d.LoadsFor (slots.redirect (slots.toLoad x i.op) (fresh p) o) q x := by
  have hload : ∀ {q : Nat}, slots.slotOf o = some q → q ∈ slots.toLoad x i.op := by
    intro q hq
    rw [SlotMap.toLoad, hunify, Bool.false_and, if_neg (by simp), List.mem_eraseDups,
      List.mem_filterMap]
    exact ⟨o, ho, hq⟩
  rcases slots.redirect_cases (slots.toLoad x i.op) (fresh p) o with
    ⟨hkeep, hnone⟩ | ⟨q, n, hq, hn, h⟩
  · refine Or.inl ⟨?_, hkeep⟩
    rw [Option.eq_none_iff_forall_ne_some]
    intro q hq
    exact hnone q (hload hq) hq
  · rw [h]
    exact Or.inr ⟨q, hq, hx.loadsFor_given hp hn⟩

variable (hnew : c.GivesAnew slots)

include hnew

omit hx hc in
theorem slotOf_eq_none_of_slot {x q : Nat} (h : c.slot? x = some q) : slots.slotOf x = none := by
  rw [Option.eq_none_iff_forall_ne_some]
  intro s hs
  obtain ⟨i, hi, hslot, -⟩ := hnew x s hs
  rw [slot?_eq hi, hslot] at h
  cases h

omit hx hc in
theorem slotOf_eq_none_of_load {x q : Nat} (h : c.op? x = some (.load q)) :
    slots.slotOf x = none := by
  rw [Option.eq_none_iff_forall_ne_some]
  intro s hs
  obtain ⟨i, hi, -, hacc⟩ := hnew x s hs
  rw [op?_eq hi] at h
  rw [Option.some.inj h] at hacc
  cases hacc

/-- Nothing is added around loads, so a run of loads stays together. -/
theorem start_run {r p : Nat}
    (hrun : ∀ t, r ≤ t → t < p → ∃ z s, c.order[t]? = some z ∧ c.op? z = some (.load s)) (n : Nat)
    (hn : r + n ≤ p) : start (r + n) = start r + n := by
  induction n with
  | zero => rfl
  | succ n ih =>
    obtain ⟨z, s, hz, hop⟩ := hrun (r + n) (by omega) (by omega)
    obtain ⟨i, hi, hop'⟩ := op?_eq_some.1 hop
    have hextra : slots.extra z i.op = 0 := by
      have hnone := slotOf_eq_none_of_load hnew hop
      rw [SlotMap.extra, hop', SlotMap.toLoad, SlotMap.toStore]
      simp [Op.operands, Op.isUnify, hnone]
    rw [← Nat.add_assoc, hx.start_succ _ z i (hc.getElem?_toList_eq_some.2 ⟨hz, hi⟩), hextra,
      ih (by omega)]
    omega

/-- **Loads keep their place** in front of what they load for, before the new ones. -/
theorem loadsFor_kept {y q x : Nat} (h : c.LoadsFor y q x) : d.LoadsFor y q x := by
  obtain ⟨hop, r, p, hr, hp, hlt, hrun⟩ := h
  obtain ⟨i, hi⟩ := exists_instr ((hc.mem_order x).1 (List.mem_of_getElem? hp))
  have hentry := hc.getElem?_toList_eq_some.2 ⟨hp, hi⟩
  have hstart := hx.start_run hc hnew hrun
  -- where the old loads stand now
  have hold : ∀ {t z s : Nat}, r ≤ t → t < p → c.order[t]? = some z → c.op? z = some (.load s) →
      d.order[start r + (t - r)]? = some z ∧ d.op? z = some (.load s) := by
    intro t z s hle hlt hz hop
    obtain ⟨j, hj, hop'⟩ := op?_eq_some.1 hop
    have hmain := hx.getElem?_main (hc.getElem?_toList_eq_some.2 ⟨hz, hj⟩)
    have hload : slots.toLoad z j.op = [] := by
      rw [hop', SlotMap.toLoad]
      simp [Op.operands, Op.isUnify]
    have hpos := hstart (t - r) (by omega)
    rw [show r + (t - r) = t by omega] at hpos
    rw [hload, List.length_nil, Nat.add_zero, hpos] at hmain
    exact ⟨(hx.wellFormed.getElem?_toList_eq_some.1 hmain).1,
      hx.op?_kept hc hop (by simp [Op.operands])⟩
  have hend := hstart (p - r) (by omega)
  rw [show r + (p - r) = p by omega] at hend
  obtain ⟨hy, hop'⟩ := hold (le_refl r) hlt hr hop
  rw [Nat.sub_self, Nat.add_zero] at hy
  refine ⟨hop', start r, start p + (slots.toLoad x i.op).length, hy,
    (hx.wellFormed.getElem?_toList_eq_some.1 (hx.getElem?_main hentry)).1, by omega, ?_⟩
  intro t hle hlt'
  rcases Nat.lt_or_ge t (start p) with ht | ht
  · obtain ⟨z, s, hz, hzop⟩ := hrun (r + (t - start r)) (by omega) (by omega)
    obtain ⟨hz', hzop'⟩ := hold (by omega) (by omega) hz hzop
    rw [show start r + (r + (t - start r) - r) = t by omega] at hz'
    exact ⟨z, s, hz', hzop'⟩
  · have hn : t - start p < (slots.toLoad x i.op).length := by omega
    obtain ⟨hord, hstore⟩ := hx.wellFormed.getElem?_toList_eq_some.1
      (hx.getElem?_load hentry (List.getElem?_eq_getElem hn))
    rw [show start p + (t - start p) = t by omega] at hord
    exact ⟨_, _, hord, op?_eq hstore⟩

/-- **Step lemma.**  An instruction that has moved operands to the stack goes on to do so. -/
theorem rereads (hu : slots.Uniform c) {p x : Nat} {j : Instr} {op : Op}
    (hp : c.toList[p]? = some (x, j)) (h : c.Rereads x op j.op) :
    d.Rereads x op (written slots (fresh p) x j).op := by
  obtain ⟨f, hop, hjoin, hread⟩ := h
  have hunify : j.op.isUnify = op.isUnify := by rw [hop, Op.isUnify_mapOperands]
  refine ⟨slots.redirect (slots.toLoad x j.op) (fresh p) ∘ f, ?_, fun hop' => ?_,
    fun hop' o ho => ?_⟩
  · rw [op_written, ← Op.mapOperands_mapOperands, ← hop]
  · rw [hu.op_written_unify (hc.getElem?_toList_eq_some.1 hp).2 (hunify.trans hop'), hjoin hop']
  · have hslot := hx.slot?_eq_or hc hnew o
    have hfo : f o ∈ j.op.operands := by
      rw [hop, Op.operands_mapOperands]
      exact List.mem_map_of_mem ho
    have hnext := hx.redirect_operand hp (hunify.trans hop') hfo
    rcases hread hop' o ho with ⟨hnone, hkeep⟩ | ⟨q, hq, hload⟩
    · rw [hkeep] at hnext
      rw [hnone, Option.or_none] at hslot
      show _ ∨ ∃ q, _ ∧ d.LoadsFor (slots.redirect _ _ (f o)) q x
      rw [hslot, Function.comp_apply, hkeep]
      exact hnext
    · -- what is on the stack already keeps its load, which does not move there
      rw [slotOf_eq_none_of_slot hnew hq, Option.none_or, hq] at hslot
      rcases hnext with ⟨-, hsame⟩ | ⟨s, hs, -⟩
      · refine Or.inr ⟨q, hslot, ?_⟩
        rw [Function.comp_apply, hsame]
        exact hx.loadsFor_kept hc hnew hload
      · rw [slotOf_eq_none_of_load hnew hload.1] at hs
        cases hs

end

end Expands

section Step

variable {b c d : Body} {slots : SlotMap} {start fresh : Nat → Nat} {lo next : Nat}
  (hx : c.Expands d slots start fresh) (hret : b.Retained c lo next) (hnew : c.GivesAnew slots)
  (h : b.DiffersBySpills c next)

include hx hret hnew h

/-- Every store saves the value of the old instruction in front of it, be it old or new. -/
theorem Expands.stores_step {y m q : Nat} (hy : d.op? y = some (.store m q)) :
    d.slot? m = some q ∧
      (∃ i, b.store[m]? = some i ∧ i.op.definesValue = true ∧ i.op.isUnify = false) ∧
      ∃ p : Nat, d.order[p]? = some m ∧ d.order[p + 1]? = some y := by
  have hc := hret.closed.toWellFormed
  have hslot := hx.slot?_eq_or hc hnew m
  have horder : ∀ {p x : Nat} {i : Instr}, d.toList[p]? = some (x, i) → d.order[p]? = some x :=
    fun hp => (hx.wellFormed.getElem?_toList_eq_some.1 hp).1
  obtain ⟨j, hj, hop⟩ := op?_eq_some.1 hy
  obtain ⟨p, x, i, hp, ⟨rfl, rfl⟩ | ⟨n, s, -, -, rfl⟩ | ⟨s, hs, rfl, rfl⟩⟩ := hx.cases_store hj
  · -- an old store, whose operand has moved to the stack before
    rw [Expands.op_written] at hop
    obtain ⟨u, hu⟩ := Op.eq_store_of_mapOperands hop
    have hi := (hc.getElem?_toList_eq_some.1 hp).2
    have hold : c.op? y = some (.store u q) := by rw [op?_eq hi, hu]
    obtain ⟨hq, hdef, p', hm, hy'⟩ := h.stores y u q hold
    have hnone := Expands.slotOf_eq_none_of_slot hnew hq
    obtain rfl : u = m := by
      have hkept := hx.op?_kept hc hold (by simpa [Op.operands] using hnone)
      rw [hy] at hkept
      exact (Op.store.inj (Option.some.inj hkept)).1.symm
    obtain ⟨k, hk⟩ := exists_instr ((hc.mem_order u).1 (List.mem_of_getElem? hm))
    obtain ⟨p'', j', hmain, hstore, -⟩ := hx.getElem?_store_kept
      (hc.getElem?_toList_eq_some.2 ⟨hm, hk⟩)
      (hc.getElem?_toList_eq_some.2 ⟨hy', hi⟩) hu hnone
    exact ⟨by rw [hslot, hnone, Option.none_or, hq], hdef, p'', horder hmain, horder hstore⟩
  · cases hop
  · obtain ⟨rfl, rfl⟩ := Op.store.inj hop
    obtain ⟨hdef, hunify, hof⟩ := SlotMap.toStore_eq_some.1 hs
    refine ⟨by rw [hslot, hof]; rfl, ?_, _, horder (hx.getElem?_main hp),
      horder (hx.getElem?_store hp hs)⟩
    -- spill code does not move to the stack, so the instruction is an old one
    have hi := (hc.getElem?_toList_eq_some.1 hp).2
    obtain ⟨i', hi', -, hacc⟩ := hnew x s hof
    obtain rfl : i = i' := Option.some.inj (hi.symm.trans hi')
    have hlt : x < b.store.size := by
      by_contra hge
      rw [(hret.new x i hi (not_lt.1 hge)).1] at hacc
      cases hacc
    obtain ⟨k, hk⟩ := exists_instr hlt
    obtain ⟨i'', f, hi'', hop', -⟩ := hret.old x k hk
    obtain rfl : i = i'' := Option.some.inj (hi.symm.trans hi'')
    rw [hop', Op.definesValue_mapOperands] at hdef
    rw [hop', Op.isUnify_mapOperands] at hunify
    exact ⟨k, hk, hdef, hunify⟩

/-- What is on the stack is saved where it gets a value, whether it has moved before or now. -/
theorem Expands.exists_store_step {m q : Nat} {i : Instr} (hi : b.store[m]? = some i)
    (hdef : i.op.definesValue = true) (hunify : i.op.isUnify = false) (hq : d.slot? m = some q) :
    ∃ y s, d.op? y = some (.store m s) := by
  have hc := hret.closed.toWellFormed
  rw [hx.slot?_eq_or hc hnew] at hq
  rcases Option.or_eq_some_iff.1 hq with hof | ⟨hnone, hq⟩
  · obtain ⟨j, f, hj, hop, -⟩ := hret.old m i hi
    obtain ⟨p, hp⟩ := hc.exists_position hj
    have hs : slots.toStore m j.op = some q := SlotMap.toStore_eq_some.2
      ⟨by rw [hop, Op.definesValue_mapOperands, hdef],
        by rw [hop, Op.isUnify_mapOperands, hunify], hof⟩
    exact ⟨_, q, op?_eq (hx.wellFormed.getElem?_toList_eq_some.1 (hx.getElem?_store hp hs)).2⟩
  · obtain ⟨y, ⟨s, hy⟩, -⟩ := h.stored m i q hi hdef hunify hq
    exact ⟨y, s, hx.op?_kept hc hy (by simpa [Op.operands] using hnone)⟩

/-- **Step lemma.**  Moving classes to the stack that are not there yet keeps a body that differs by
spills one. -/
theorem Expands.differsBySpills (hu : slots.Uniform c) {last : Nat}
    (hgives : ∀ q, next ≤ q → q < last → ∃ x, slots.slotOf x = some q) :
    b.DiffersBySpills d last where
  order := (hx.plainOrder_eq hret.closed.toWellFormed).trans h.order
  kept x i hi := by
    have hc := hret.closed.toWellFormed
    obtain ⟨j, hj, hspan, hpin, hread⟩ := h.kept x i hi
    obtain ⟨p, hp⟩ := hc.exists_position hj
    exact ⟨_, hx.store_main hp, (Expands.span_written _ x j).trans hspan,
      (Expands.pin_written _ x j).trans hpin, hx.rereads hc hnew hu hp hread⟩
  stores _ _ _ hy := hx.stores_step hret hnew h hy
  stored m i q hi hdef hunify hq := by
    obtain ⟨y, s, hy⟩ := hx.exists_store_step hret hnew h hi hdef hunify hq
    refine ⟨y, ⟨s, hy⟩, ?_⟩
    rintro y' ⟨s', hy'⟩
    -- both stand right behind the instruction
    obtain ⟨-, -, p, hp, hnext⟩ := hx.stores_step hret hnew h hy
    obtain ⟨-, -, p', hp', hnext'⟩ := hx.stores_step hret hnew h hy'
    obtain rfl : p = p' := (List.getElem?_inj (List.getElem?_eq_some_iff.1 hp).1
      hx.wellFormed.nodup).1 (hp.trans hp'.symm)
    exact Option.some.inj (hnext'.symm.trans hnext)
  used q hq := by
    have hslot := fun x => hx.slot?_eq_or hret.closed.toWellFormed hnew x
    rcases Nat.lt_or_ge q next with hlt | hge
    · obtain ⟨x, hxq⟩ := h.used q hlt
      exact ⟨x, by rw [hslot, Expands.slotOf_eq_none_of_slot hnew hxq, Option.none_or, hxq]⟩
    · obtain ⟨x, hxq⟩ := hgives q hge hq
      exact ⟨x, by rw [hslot, hxq]; rfl⟩

end Step

/-! ## Rounds and registers -/

theorem Rewrites.differsBySpills {b c : Body} {k lo next : Nat} {r : Round} {sp : Spilled}
    (step : c.Rewrites k next r sp) (hret : b.Retained c lo next) (h : b.DiffersBySpills c next) :
    b.DiffersBySpills sp.body sp.nextSlot := by
  obtain ⟨hr, hnext, slots, start, fresh, hgives, hx⟩ := step.exists_expands hret.closed
  have hvars : ∀ v ∈ r.coloring.spills, c.Competes r.storage v :=
    fun v hv => hr.competes_of_mem_spills hv
  refine hx.differsBySpills hret (givesAnew hr.storage.toValid hgives hvars) h
    (hgives.uniform hret.closed hr.storage) fun q hle hlt => ?_
  -- every spilled variable has a member, which has its slot
  have hn : q - next < r.coloring.spills.length := by omega
  obtain ⟨⟨x, -, hxv, -⟩, -⟩ := hvars _ (List.getElem_mem hn)
  exact ⟨x, (hgives x q).2 ⟨q - next, _, List.getElem?_eq_getElem hn, by omega, hxv⟩⟩

/-- **Run lemma.**  Rounds only add spill code. -/
theorem RewritesTo.differsBySpills {b c d : Body} {k n lo next last : Nat}
    (hrounds : RewritesTo k n c next d last) (hret : b.Retained c lo next)
    (h : b.DiffersBySpills c next) : b.DiffersBySpills d last := by
  induction hrounds with
  | done => exact h
  | more step _ ih =>
    exact ih (hret.trans (step.retained hret.closed)) (step.differsBySpills hret h)

theorem DiffersBySpills.assignRegisters {b c : Body} {slots : Nat} (h : b.DiffersBySpills c slots)
    (s : Storage) (col : Coloring) : b.DiffersBySpills (c.assignRegisters s col) slots := by
  have hop : (c.assignRegisters s col).op? = c.op? := by
    funext x
    exact ((c.sameOps_assignRegisters s col).op x).symm
  have hslot : (c.assignRegisters s col).slot? = c.slot? := by
    funext x
    exact slot?_assignRegisters c s col x
  have hload : (c.assignRegisters s col).LoadsFor = c.LoadsFor := by
    unfold LoadsFor
    rw [hop]
    rfl
  have hread : (c.assignRegisters s col).Rereads = c.Rereads := by
    unfold Rereads
    rw [hslot, hload]
  refine ⟨?_, fun x i hi => ?_, ?_, ?_, ?_⟩
  · unfold plainOrder
    rw [hop]
    exact h.order
  · obtain ⟨j, hj, hspan, hpin, hreads⟩ := h.kept x i hi
    have hj' := c.getElem?_assignRegisters s col x
    rw [hj, Option.map_some] at hj'
    rw [hread]
    exact ⟨_, hj', hspan, hpin, hreads⟩
  · rw [hop, hslot]
    exact h.stores
  · rw [hop, hslot]
    exact h.stored
  · rw [hslot]
    exact h.used

/-! ## Allocation -/

/-- **Allocation only adds spill code.**  The slots in use are those below the number reported, and
one slot belongs to one storage class. -/
theorem WellFormed.differsBySpills_allocate {b : Body} (hb : b.WellFormed) (hplain : b.Plain)
    {k : Nat} {a : Allocated} (ha : b.allocate k = .ok a) :
    b.DiffersBySpills a.body a.allocation.slots ∧
      (∀ q, (∃ x, a.body.slot? x = some q) ↔ q < a.allocation.slots) ∧
      ∃ s, Storage.ofBody a.body = .ok s ∧ ∀ x q, a.body.slot? x = some q →
        ∀ y, a.body.slot? y = some q ↔ s.var? y = s.var? x := by
  have hk : k ≠ 0 := by
    rintro rfl
    cases ha
  obtain ⟨hclosed, -⟩ | ⟨e, he, -⟩ := hb.cases_allocate hk
  · obtain ⟨a', c, n, r, ha', hrounds, -, -, hbody, -⟩ :=
      hclosed.exists_rewritesTo (Nat.one_le_iff_ne_zero.2 hk)
    obtain rfl : a = a' := Except.ok.inj (ha.symm.trans ha')
    have hret := (hrounds.retained hclosed).assignRegisters r.storage r.coloring
    have hadds := (hrounds.differsBySpills (.refl hclosed 0) hplain.differsBySpills).assignRegisters
      r.storage r.coloring
    have htidy := (hrounds.spillRounds (hclosed.tidy hplain 0)).2
    have hops := c.sameOps_assignRegisters r.storage r.coloring
    rw [← hbody] at hret hadds hops
    obtain ⟨s, hs, hdesc⟩ := hret.closed.exists_storage
    refine ⟨hadds, fun q => ⟨?_, hadds.used q⟩, s, hs, fun x q hxq y => ?_⟩
    · rintro ⟨x, hxq⟩
      exact (hret.slot_given x q (hplain.slot?_eq_none x) hxq).2.1
    · have hlt : ∀ {z : Nat}, a.body.slot? z = some q → z < a.body.store.size := by
        intro z hz
        obtain ⟨i, hi, -⟩ := Option.bind_eq_some_iff.1 hz
        exact lt_size_of_getElem? hi
      constructor
      · intro hyq
        refine (hdesc.var?_eq_iff (hlt hyq) (hlt hxq)).2 ((hret.linked_iff y x).2 ?_)
        exact hret.slot_linked y x q (hplain.slot?_eq_none y) (hplain.slot?_eq_none x) hyq hxq
      · intro hvar
        obtain ⟨v, hv⟩ := hdesc.total x (hlt hxq)
        have hy := hdesc.lt_size (hvar.trans hv)
        have hlink := hops.linked_iff.1 ((hdesc.var?_eq_iff hy (hlt hxq)).1 hvar)
        have hsame := htidy.slot_linked y x hlink
        rw [hbody, slot?_assignRegisters] at hxq ⊢
        rw [hsame, hxq]
  · rw [ha] at he
    cases he

/-- Two values that meet, and a third one in between. -/
def meeting : Body :=
  ofOps [.int 1, .int 2, .unify 0 1, .int 3, .binary .plus 2 3, .binary .plus 4 2]

/-- With one register the values that meet move to the stack. -/
theorem differsBySpills_meeting :
    meeting.WellFormed ∧ meeting.Plain ∧ ∃ a, meeting.allocate 1 = .ok a ∧
      meeting.DiffersBySpills a.body 1 ∧ a.body.slot? 2 = some 0 ∧
      ∃! y, ∃ s, a.body.op? y = some (.store 1 s) := by
  have hb : meeting.WellFormed := (built_ofOps _).wellFormed
  have hplain : meeting.Plain := by decide
  obtain ⟨a, ha, htest⟩ : ∃ a, meeting.allocate 1 = .ok a ∧ decide (a.allocation.slots = 1 ∧
      a.body.slot? 1 = some 0 ∧ a.body.slot? 2 = some 0) = true :=
    exists_ok_of_any (by decide +kernel)
  obtain ⟨hslots, h1, h2⟩ := of_decide_eq_true htest
  obtain ⟨h, -⟩ := hb.differsBySpills_allocate hplain ha
  rw [hslots] at h
  exact ⟨hb, hplain, a, ha, h, h2, h.stored 1 { op := .int 2 } 0 (by decide) rfl rfl h1⟩

end Body

end Backend
