/-
# Rounds of allocation

A round on a closed body always succeeds (`Body.Closed.exists_round`).  A round that spills leaves a
body with spill code whose candidates are the old ones without the spilled ones
(`Body.Expands.toList_candidates`), so the rounds that spill, a `Body.RewritesTo`, come to an end
(`Body.Closed.exists_allocation`).  What a body whose spill code is all its own keeps through rounds
is `Body.Tidy`; its rounds are a `Body.SpillRounds`.
-/
import Mathlib
import Backend.Allocation
import Backend.Proofs.Coloring
import Backend.Proofs.Renaming

namespace Backend

/-! ## Candidates -/

/-- Lists sorted by variable with the same candidates are equal. -/
theorem eq_of_mem_iff_of_sorted {cs ds : List Candidate}
    (hcs : cs.Pairwise fun c d => c.var < d.var) (hds : ds.Pairwise fun c d => c.var < d.var)
    (h : ∀ e, e ∈ cs ↔ e ∈ ds) : cs = ds := by
  have hnodup : ∀ {es : List Candidate}, (es.Pairwise fun c d => c.var < d.var) → es.Nodup := by
    intro es hes
    exact hes.imp fun hlt heq => absurd (congrArg Candidate.var heq) (ne_of_lt hlt)
  have hperm := (List.perm_ext_iff_of_nodup (hnodup hcs) (hnodup hds)).2 h
  exact hperm.eq_of_pairwise (fun c d _ _ hcd hdc => absurd hcd (lt_asymm hdc)) hcs hds

/-- An operation that reads a slot did so before its operands were exchanged. -/
theorem Op.eq_load_of_mapOperands {f : Nat → Nat} {op : Op} {q : Nat}
    (h : op.mapOperands f = .load q) : op = .load q := by
  cases op <;> simp_all [Op.mapOperands, Op.withOperands]

theorem Op.eq_store_of_mapOperands {f : Nat → Nat} {op : Op} {v q : Nat}
    (h : op.mapOperands f = .store v q) : ∃ u, op = .store u q := by
  cases op <;> simp_all [Op.mapOperands, Op.withOperands]

/-- An instruction is no spill code if it has no slot and touches none. -/
theorem Instr.isSpillCode_eq_false {i : Instr} :
    i.isSpillCode = false ↔ i.slot = none ∧ i.op.accessesSlot = false := by
  rw [Instr.isSpillCode, Bool.or_eq_false_iff]
  simp

/-- The classes of a storage that are not empty. -/
theorem Storage.mem_classes {s : Storage} {v : Nat} {ids : List Nat} :
    (v, ids) ∈ s.classes ↔ s.members[v]? = some ids ∧ ids ≠ [] := by
  rw [classes, List.mem_map]
  constructor
  · rintro ⟨⟨ids', v'⟩, hmem, he⟩
    obtain ⟨rfl, rfl⟩ := Prod.mk.inj he
    obtain ⟨hmem, hne⟩ := List.mem_filter.1 hmem
    rw [List.mem_zipIdx_iff_getElem?, Array.getElem?_toList] at hmem
    exact ⟨hmem, by simpa using hne⟩
  · rintro ⟨hget, hne⟩
    refine ⟨(ids, v), List.mem_filter.2 ⟨?_, by simpa using hne⟩, rfl⟩
    rw [List.mem_zipIdx_iff_getElem?, Array.getElem?_toList]
    exact hget

namespace Body

/-- A variable competes for a register: it holds a value and does not live on the stack. -/
def Competes (b : Body) (s : Storage) (v : Nat) : Prop :=
  (∃ x i, s.var? x = some v ∧ b.store[x]? = some i ∧ i.op.definesValue = true) ∧
    ∀ x i, s.var? x = some v → b.store[x]? = some i → i.isSpillCode = false

/-- The register a variable is pinned to: that of its first pinned member. -/
def pin? (b : Body) (s : Storage) (v : Nat) : Option Nat :=
  (s.members.getD v []).findSome? fun id => b.store[id]?.bind (·.pin)

/-- The instructions with the listed numbers. -/
theorem mem_select {b : Body} {ids : List Nat} {i : Instr} :
    i ∈ b.select ids ↔ ∃ id ∈ ids, b.store[id]? = some i := List.mem_filterMap

theorem findSome?_select (b : Body) (ids : List Nat) :
    (b.select ids).findSome? (·.pin) = ids.findSome? fun id => b.store[id]?.bind (·.pin) := by
  induction ids with
  | nil => rfl
  | cons id ids ih =>
    rw [select, List.filterMap_cons, List.findSome?_cons]
    cases hid : b.store[id]? with
    | none => exact ih
    | some i =>
      rw [List.findSome?_cons, Option.bind_some]
      cases i.pin with
      | none => exact ih
      | some r => rfl

/-- The candidates are the variables that compete, with their pins. -/
theorem mem_candidates {b : Body} {s : Storage} (hs : s.Valid b) {d : Candidate} :
    d ∈ (b.candidates s).toList ↔ b.Competes s d.var ∧ d.pin = b.pin? s d.var := by
  have hmembers : ∀ {v : Nat} {ids : List Nat}, s.members[v]? = some ids →
      s.members.getD v [] = ids := by
    intro v ids h
    rw [Array.getD_eq_getD_getElem?, h]
    rfl
  show d ∈ s.classes.filterMap b.candidate? ↔ _
  rw [List.mem_filterMap]
  constructor
  · rintro ⟨⟨v, ids⟩, hc, hd⟩
    obtain ⟨hget, -⟩ := Storage.mem_classes.1 hc
    have hids : ∀ x, x ∈ ids ↔ s.var? x = some v := by
      intro x
      rw [← hs.mem_members v x, hmembers hget]
    simp only [candidate?] at hd
    split at hd
    · rename_i hcond
      obtain rfl := Option.some.inj hd
      simp only [Bool.and_eq_true, List.any_eq_true, mem_select, Bool.not_eq_true',
        List.any_eq_false, Bool.not_eq_true] at hcond
      obtain ⟨⟨i, ⟨x, hx, hi⟩, hdef⟩, hcode⟩ := hcond
      refine ⟨⟨⟨x, i, (hids x).1 hx, hi, hdef⟩, fun y j hy hj => ?_⟩, ?_⟩
      · exact hcode j ⟨y, (hids y).2 hy, hj⟩
      · show List.findSome? _ _ = _
        rw [findSome?_select, pin?, hmembers hget]
    · exact absurd hd (by simp)
  · rintro ⟨⟨⟨x, i, hx, hi, hdef⟩, hcode⟩, hpin⟩
    have hmem := (hs.mem_members d.var x).2 hx
    obtain ⟨ids, hget⟩ : ∃ ids, s.members[d.var]? = some ids := by
      cases hget : s.members[d.var]? with
      | none =>
        rw [Array.getD_eq_getD_getElem?, hget] at hmem
        exact absurd hmem List.not_mem_nil
      | some ids => exact ⟨ids, rfl⟩
    rw [hmembers hget] at hmem
    have hids : ∀ y, y ∈ ids → s.var? y = some d.var := by
      intro y hy
      rw [← hs.mem_members d.var y, hmembers hget]
      exact hy
    refine ⟨(d.var, ids), Storage.mem_classes.2 ⟨hget, List.ne_nil_of_mem hmem⟩, ?_⟩
    have hcond : ((b.select ids).any (·.op.definesValue) && !(b.select ids).any (·.isSpillCode)) =
        true := by
      simp only [Bool.and_eq_true, List.any_eq_true, mem_select, Bool.not_eq_true',
        List.any_eq_false, Bool.not_eq_true]
      refine ⟨⟨i, ⟨x, hmem, hi⟩, hdef⟩, ?_⟩
      rintro j ⟨y, hy, hj⟩
      exact hcode y j (hids y hy) hj
    rw [pin?, hmembers hget] at hpin
    simp only [candidate?]
    rw [if_pos hcond, findSome?_select, ← hpin]

end Body

/-- Under a new number a variable keeps its pin. -/
theorem Storage.Renames.pin?_eq {f : Nat → Nat} {b c : Body} {s t : Storage}
    (h : Renames f b c s t)
    (hpin : ∀ x < b.store.size,
      (c.store[x]?.bind fun i => i.pin) = b.store[x]?.bind fun i => i.pin)
    {v : Nat} (hv : v < b.size) : c.pin? t (f v) = b.pin? s v := by
  rw [Body.pin?, Body.pin?, h.members_eq v hv, ← List.head?_filterMap, ← List.head?_filterMap]
  congr 1
  apply List.filterMap_congr
  intro x hx
  exact hpin x (h.source.lt_size ((h.source.mem_members v x).1 hx))

/-! ## One round -/

/-- What a round on a body has found out. -/
structure Round.Describes (r : Round) (b : Body) (k : Nat) : Prop where
  storage_eq : Storage.ofBody b = .ok r.storage
  storage : r.storage.Describes b
  flow_eq : ∃ g, FlowGraph.ofBody b r.storage = .ok g ∧ r.flow = g.analyze.2
  flow : r.flow.Describes b r.storage
  solved : r.flow.Solved
  candidates : r.candidates = b.candidates r.storage
  fits : r.coloring.Fits k r.candidates (Interference.liveSets r.flow)

/-- **A round on a closed body succeeds.** -/
theorem Body.Closed.exists_round {b : Body} (hb : b.Closed) (k : Nat) :
    ∃ r, b.round k = .ok r ∧ r.Describes b k := by
  obtain ⟨s, hrun, hs⟩ := hb.exists_storage
  obtain ⟨g, hflow, hg, hsolved⟩ := hb.exists_liveness hs.toValid
  refine ⟨_, bind_eq_ok_iff.2 ⟨s, hrun, bind_eq_ok_iff.2 ⟨g, hflow, rfl⟩⟩, ?_⟩
  exact ⟨hrun, hs, ⟨g, hflow, rfl⟩, hg, hsolved, rfl, Interference.fits_color _ _ k⟩

/-- **A round describes the body it has been made for.** -/
theorem Body.Closed.describes_of_round {b : Body} {k : Nat} {r : Round} (hb : b.Closed)
    (h : b.round k = .ok r) : r.Describes b k := by
  obtain ⟨r', h', hr'⟩ := hb.exists_round k
  obtain rfl : r = r' := Except.ok.inj (h.symm.trans h')
  exact hr'

namespace Round.Describes

variable {r : Round} {b : Body} {k : Nat} (h : r.Describes b k)

include h

/-- What is spilled competes for a register. -/
theorem competes_of_mem_spills {v : Nat} (hv : v ∈ r.coloring.spills) : b.Competes r.storage v := by
  obtain ⟨d, hd, rfl⟩ := h.fits.spilled v hv
  rw [h.candidates] at hd
  exact ((Body.mem_candidates h.storage.toValid).1 hd).1

/-- A variable with a register competes for one. -/
theorem competes_of_register? {v q : Nat} (hq : r.coloring.register? v = some q) :
    b.Competes r.storage v := by
  obtain ⟨d, hd, rfl⟩ := h.fits.candidate v q hq
  rw [h.candidates] at hd
  exact ((Body.mem_candidates h.storage.toValid).1 hd).1

/-- What is spilled is a variable of the body. -/
theorem lt_size_of_mem_spills {v : Nat} (hv : v ∈ r.coloring.spills) : v < b.size := by
  obtain ⟨⟨x, i, hx, -⟩, -⟩ := h.competes_of_mem_spills hv
  exact h.storage.var_lt_size hx

/-- The entry liveness of the graph is that of the body. -/
theorem liveIn_iff (hb : b.Closed) {x v p : Nat} (hx : r.storage.var? x = some v) :
    v ∈ r.flow.liveIn p ↔ b.LiveAt x p := by
  rw [h.solved.liveIn_iff, h.flow.live_iff hb h.storage hx]

end Round.Describes

/-! ## What bodies keep through rounds -/

namespace Body

/-- The slot of an instruction. -/
def slot? (b : Body) (x : Nat) : Option Nat := b.store[x]?.bind (·.slot)

/-- A closed body whose spill code, if it has any, is as spilling leaves it: a class moves to the
stack as a whole, loads and stores are tied to nothing and have no slot of their own, and the slots
in use are below `next`. -/
structure Tidy (b : Body) (next : Nat) : Prop extends b.Closed where
  slot_linked : ∀ x y, b.Linked x y → b.slot? x = b.slot? y
  alone : ∀ (x : Nat) (i : Instr), b.store[x]? = some i → i.op.accessesSlot = true →
    i.slot = none ∧ ∀ y, b.Linked x y → x = y
  slot_lt : ∀ (x : Nat) (i : Instr), b.store[x]? = some i → ∀ q, i.slot = some q ∨ i.op = .load q ∨
    (∃ v, i.op = .store v q) → q < next

/-- No instruction deals with the stack. -/
def Plain (b : Body) : Prop := ∀ (x : Nat) (i : Instr), b.store[x]? = some i → i.isSpillCode = false

instance (b : Body) : Decidable b.Plain :=
  decidable_of_iff (∀ i ∈ b.store.toList, i.isSpillCode = false) forall_mem_store

theorem slot?_eq {b : Body} {x : Nat} {i : Instr} (h : b.store[x]? = some i) :
    b.slot? x = i.slot := by
  rw [slot?, h]
  rfl

/-- In plain code nothing has a slot. -/
theorem Plain.slot?_eq_none {b : Body} (hb : b.Plain) (x : Nat) : b.slot? x = none := by
  cases hx : b.store[x]? with
  | none => rw [slot?, hx]; rfl
  | some i => rw [slot?_eq hx, (Instr.isSpillCode_eq_false.1 (hb x i hx)).1]

/-- A closed body without spill code is tidy. -/
theorem Closed.tidy {b : Body} (hb : b.Closed) (hplain : b.Plain) (next : Nat) : b.Tidy next where
  toClosed := hb
  slot_linked x y _ := by rw [hplain.slot?_eq_none, hplain.slot?_eq_none]
  alone x i hi ha := by
    rw [(Instr.isSpillCode_eq_false.1 (hplain x i hi)).2] at ha
    exact absurd ha (by simp)
  slot_lt x i hi q hq := by
    obtain ⟨hslot, ha⟩ := Instr.isSpillCode_eq_false.1 (hplain x i hi)
    rcases hq with h | h | ⟨v, h⟩
    · rw [hslot] at h
      exact absurd h (by simp)
    · rw [h] at ha
      exact absurd ha (by simp [Op.accessesSlot])
    · rw [h] at ha
      exact absurd ha (by simp [Op.accessesSlot])

namespace Expands

variable {b c : Body} {slots : SlotMap} {start fresh : Nat → Nat} {s t : Storage} {next : Nat}
  {vars : List Nat}

section

variable (hx : b.Expands c slots start fresh) (hb : b.Closed) (hs : s.Describes b)
  (hslots : slots.Gives s next vars) (hvars : ∀ v ∈ vars, b.Competes s v)

include hx hb

/-- Old instructions are linked to old instructions only. -/
theorem lt_size_of_linked (hu : slots.Uniform b) {x y : Nat} (hlt : x < b.store.size)
    (h : c.Linked x y) : y < b.store.size := by
  by_contra hge
  have hyx := (linked_equivalence b).symm ((hx.linked_iff hb.toWellFormed hu).1 h)
  have := hyx.eq_of_le hb (not_lt.1 hge)
  omega

omit hb in
/-- Old instructions keep their slots or get one. -/
theorem slot?_old (hb : b.WellFormed) {x : Nat} (hlt : x < b.store.size) :
    c.slot? x = (slots.slotOf x).or (b.slot? x) := by
  obtain ⟨i, hi⟩ := exists_instr hlt
  obtain ⟨p, hp⟩ := hb.exists_position hi
  rw [slot?_eq (hx.store_main hp), slot?_eq hi, slot_written]

include hs hslots

omit hb in
include hvars in
/-- **Spilling keeps bodies tidy.** -/
theorem tidy (hb : b.Tidy next) : c.Tidy (next + vars.length) where
  toClosed := hx.closed hb.toClosed
  slot_linked x y hxy := by
    have hu := hslots.uniform hb.toClosed hs
    have hxy' := (hx.linked_iff hb.toWellFormed hu).1 hxy
    by_cases hlt : x < b.store.size
    · have hlt' := hx.lt_size_of_linked hb.toClosed hu hlt hxy
      rw [hx.slot?_old hb.toWellFormed hlt, hx.slot?_old hb.toWellFormed hlt', hu x y hxy',
        hb.slot_linked x y hxy']
    · -- a fresh instruction is alone in its class
      rw [hxy'.eq_of_le hb.toClosed (not_lt.1 hlt)]
  alone x j hj ha := by
    have hu := hslots.uniform hb.toClosed hs
    by_cases hlt : x < b.store.size
    · obtain ⟨p, i, -, hi, rfl⟩ := hx.cases_store_old hb.toWellFormed hj hlt
      rw [op_written, Op.accessesSlot_mapOperands] at ha
      obtain ⟨hslot, halone⟩ := hb.alone x i hi ha
      refine ⟨?_, fun y hxy => halone y ((hx.linked_iff hb.toWellFormed hu).1 hxy)⟩
      rw [slot_written, hslot, Option.or_none, Option.eq_none_iff_forall_ne_some]
      intro q hq
      -- what is spilled competed for a register, and was no load or store
      obtain ⟨n, v, hv, -, hxv⟩ := (hslots x q).1 hq
      have hcode := (hvars v (List.mem_of_getElem? hv)).2 x i hxv hi
      rw [(Instr.isSpillCode_eq_false.1 hcode).2] at ha
      exact absurd ha (by simp)
    · refine ⟨(hx.accessesSlot_of_le hb.toWellFormed hj (not_lt.1 hlt)).2, fun y hxy => ?_⟩
      exact ((hx.linked_iff hb.toWellFormed hu).1 hxy).eq_of_le hb.toClosed (not_lt.1 hlt)
  slot_lt x j hj q hq := by
    obtain ⟨p, id, i, hp, ⟨rfl, rfl⟩ | ⟨n, q', -, hn, rfl⟩ | ⟨q', hq', -, rfl⟩⟩ := hx.cases_store hj
    · have hi := (hb.getElem?_toList_eq_some.1 hp).2
      rw [op_written, slot_written] at hq
      rcases hq with h | h | ⟨v, h⟩
      · rcases Option.or_eq_some_iff.1 h with h | ⟨-, h⟩
        · exact (hslots.bounds h).2
        · exact Nat.lt_add_right _ (hb.slot_lt x i hi q (Or.inl h))
      · refine Nat.lt_add_right _ (hb.slot_lt x i hi q (Or.inr (Or.inl ?_)))
        exact Op.eq_load_of_mapOperands h
      · refine Nat.lt_add_right _ (hb.slot_lt x i hi q (Or.inr (Or.inr ?_)))
        exact Op.eq_store_of_mapOperands h
    · obtain ⟨o, -, ho⟩ := SlotMap.exists_operand_of_mem_toLoad (List.mem_of_getElem? hn)
      have hq' : q' = q := by simpa using hq
      exact hq' ▸ (hslots.bounds ho).2
    · have hq'' : q' = q := by simpa using hq
      exact hq'' ▸ (hslots.bounds (SlotMap.toStore_eq_some.1 hq').2.2).2

/-- An old class has the same members in the expansion. -/
theorem var?_iff (ht : t.Describes c) {x v w : Nat} (hxv : s.var? x = some v)
    (hxw : t.var? x = some w) (y : Nat) : t.var? y = some w ↔ s.var? y = some v := by
  have hu := hslots.uniform hb hs
  have hx' := hs.lt_size hxv
  constructor
  · intro hy
    have hxy : c.Linked x y := (ht.var?_eq_iff (ht.lt_size hxw) (ht.lt_size hy)).1 (by rw [hxw, hy])
    rw [← hs.var?_eq_of_linked hb ((hx.linked_iff hb.toWellFormed hu).1 hxy), hxv]
  · intro hy
    have hxy : b.Linked x y := (hs.var?_eq_iff hx' (hs.lt_size hy)).1 (by rw [hxv, hy])
    rw [← ht.var?_eq_of_linked (hx.closed hb)
      ((hx.linked_iff hb.toWellFormed hu).2 hxy), hxw]

/-- **Spilling takes away the spilled candidates and nothing else.** -/
theorem competes_iff (ht : t.Describes c) {x v w : Nat} (hxv : s.var? x = some v)
    (hxw : t.var? x = some w) : c.Competes t w ↔ b.Competes s v ∧ v ∉ vars := by
  have hvar := hx.var?_iff hb hs hslots ht hxv hxw
  have hstored : ∀ y, s.var? y = some v → ∃ i j, b.store[y]? = some i ∧ c.store[y]? = some j ∧
      j.op.definesValue = i.op.definesValue ∧
      (j.isSpillCode = false ↔ i.isSpillCode = false ∧ v ∉ vars) := by
    intro y hy
    obtain ⟨i, hi⟩ := exists_instr (hs.lt_size hy)
    obtain ⟨p, hp⟩ := hb.exists_position hi
    refine ⟨i, _, hi, hx.store_main hp, by rw [op_written, Op.definesValue_mapOperands], ?_⟩
    rw [Instr.isSpillCode_eq_false, Instr.isSpillCode_eq_false, slot_written, op_written,
      Op.accessesSlot_mapOperands, Option.or_eq_none_iff, ← hslots.isSome_iff hy, not_exists,
      Option.eq_none_iff_forall_ne_some]
    tauto
  constructor
  · rintro ⟨⟨y, j, hy, hj, hdef⟩, hcode⟩
    have hy' := (hvar y).1 hy
    obtain ⟨i, j', hi, hj', hdef', hcode'⟩ := hstored y hy'
    obtain rfl : j = j' := Option.some.inj (hj.symm.trans hj')
    refine ⟨⟨⟨y, i, hy', hi, hdef' ▸ hdef⟩, fun z k hz hk => ?_⟩, (hcode'.1 (hcode y j hy hj)).2⟩
    obtain ⟨k', l, hk', hl, -, hcodez⟩ := hstored z hz
    obtain rfl : k = k' := Option.some.inj (hk.symm.trans hk')
    exact (hcodez.1 (hcode z l ((hvar z).2 hz) hl)).1
  · rintro ⟨⟨⟨y, i, hy, hi, hdef⟩, hcode⟩, hv⟩
    obtain ⟨i', j, hi', hj, hdef', -⟩ := hstored y hy
    obtain rfl : i = i' := Option.some.inj (hi.symm.trans hi')
    refine ⟨⟨y, j, (hvar y).2 hy, hj, hdef'.trans hdef⟩, fun z l hz hl => ?_⟩
    have hz' := (hvar z).1 hz
    obtain ⟨k, l', hk, hl', -, hcodez⟩ := hstored z hz'
    obtain rfl : l = l' := Option.some.inj (hl.symm.trans hl')
    exact hcodez.2 ⟨hcode z k hz' hk, hv⟩

omit hs hslots in
/-- A fresh instruction's variable does not compete. -/
theorem lt_size_of_competes {x w : Nat} (hxw : t.var? x = some w) (ht : t.Describes c)
    (hw : c.Competes t w) : x < b.store.size := by
  by_contra hge
  obtain ⟨j, hj⟩ := exists_instr (ht.lt_size hxw)
  have hcode := hw.2 x j hxw hj
  have hacc := (hx.accessesSlot_of_le hb.toWellFormed hj (not_lt.1 hge)).1
  rw [(Instr.isSpillCode_eq_false.1 hcode).2] at hacc
  exact absurd hacc (by simp)

omit hs hslots in
/-- Old instructions keep their pins. -/
theorem pin_old {x : Nat} (hlt : x < b.store.size) :
    (c.store[x]?.bind fun i => i.pin) = b.store[x]?.bind fun i => i.pin := by
  obtain ⟨i, hi⟩ := exists_instr hlt
  obtain ⟨p, hp⟩ := hb.exists_position hi
  rw [hx.store_main hp, hi, Option.bind_some, Option.bind_some, pin_written]

end

/-- **A round that spills takes the spilled candidates away.**  The others stay, with their pins and
in their order, under the numbers of their new positions. -/
theorem toList_candidates (hx : b.Expands c slots start fresh) (hb : b.Closed)
    (hs : Storage.ofBody b = .ok s) (ht : Storage.ofBody c = .ok t)
    (hslots : slots.Gives s next vars) : (c.candidates t).toList =
      ((b.candidates s).toList.filter fun d => d.var ∉ vars).map
        fun d => { d with var := moved b slots start d.var } := by
  have hs' := Storage.describes_of_ofBody hb hs
  have ht' := Storage.describes_of_ofBody (hx.closed hb) ht
  have hf := hx.renumbers hb.toWellFormed
  have h := hx.renames hb (hslots.uniform hb hs') hs ht
  have hmoved : ∀ {x v : Nat}, s.var? x = some v → t.var? x = some (moved b slots start v) := by
    intro x v hxv
    rw [h.var?_eq x (hs'.lt_size hxv), hxv]
    rfl
  have hlt : ∀ {v : Nat}, b.Competes s v → v < b.size := by
    rintro v ⟨⟨x, -, hxv, -⟩, -⟩
    exact hs'.var_lt_size hxv
  have hmem : ∀ e, e ∈ (c.candidates t).toList ↔
      e ∈ ((b.candidates s).toList.filter fun d => d.var ∉ vars).map
        fun d => { d with var := moved b slots start d.var } := by
    intro e
    simp only [List.mem_map, List.mem_filter, decide_eq_true_eq]
    constructor
    · intro he
      obtain ⟨hcomp, hpin⟩ := (mem_candidates ht'.toValid).1 he
      obtain ⟨x, -, hxw, -⟩ := hcomp.1
      obtain ⟨v, hxv⟩ := hs'.total x (hx.lt_size_of_competes hb hxw ht' hcomp)
      obtain ⟨hv, hnot⟩ := (hx.competes_iff hb hs' hslots ht' hxv hxw).1 hcomp
      have hvar : moved b slots start v = e.var := Option.some.inj ((hmoved hxv).symm.trans hxw)
      refine ⟨⟨v, b.pin? s v⟩, ⟨(mem_candidates hs'.toValid).2 ⟨hv, rfl⟩, hnot⟩, ?_⟩
      rw [← h.pin?_eq (fun _ => hx.pin_old hb) (hlt hv), hvar, ← hpin]
    · rintro ⟨d, ⟨hd, hnot⟩, rfl⟩
      obtain ⟨hcomp, hpin⟩ := (mem_candidates hs'.toValid).1 hd
      obtain ⟨x, -, hxv, -⟩ := hcomp.1
      refine (mem_candidates ht'.toValid).2
        ⟨(hx.competes_iff hb hs' hslots ht' hxv (hmoved hxv)).2 ⟨hcomp, hnot⟩, ?_⟩
      rw [h.pin?_eq (fun _ => hx.pin_old hb) (hlt hcomp)]
      exact hpin
  -- both lists are sorted by variable, so it is enough that they have the same members
  have hsorted : (((b.candidates s).toList.filter fun d => d.var ∉ vars).map
      fun d => { d with var := moved b slots start d.var }).Pairwise fun d e => d.var < e.var := by
    rw [List.pairwise_map]
    refine ((b.candidates s).sorted.filter _).imp_of_mem fun {d e} _ he hde => ?_
    have he' := (mem_candidates hs'.toValid).1 (List.mem_filter.1 he).1
    exact hf.lt hde (hlt he'.1)
  exact eq_of_mem_iff_of_sorted (c.candidates t).sorted hsorted hmem

/-- **A round that spills leaves fewer candidates.** -/
theorem size_candidates (hx : b.Expands c slots start fresh) (hb : b.Closed)
    (hs : Storage.ofBody b = .ok s) (ht : Storage.ofBody c = .ok t)
    (hslots : slots.Gives s next vars) (hvars : ∀ v ∈ vars, b.Competes s v)
    (hnodup : vars.Nodup) : (c.candidates t).size + vars.length = (b.candidates s).size := by
  have hs' := Storage.describes_of_ofBody hb hs
  have hperm : (((b.candidates s).toList.filter fun d => d.var ∈ vars).map (·.var)).Perm vars := by
    refine (List.perm_ext_iff_of_nodup ?_ hnodup).2 fun v => ?_
    · refine (List.pairwise_map.2 ?_).imp ne_of_lt
      exact (b.candidates s).sorted.filter _
    · simp only [List.mem_map, List.mem_filter, decide_eq_true_eq]
      constructor
      · rintro ⟨d, ⟨-, hd⟩, rfl⟩
        exact hd
      · intro hv
        exact ⟨⟨v, b.pin? s v⟩, ⟨(mem_candidates hs'.toValid).2 ⟨hvars v hv, rfl⟩, hv⟩, rfl⟩
  have hlen := hperm.length_eq
  have hsplit := (b.candidates s).toList.length_eq_length_filter_add fun d => decide (d.var ∈ vars)
  rw [List.length_map] at hlen
  rw [Candidates.size, hx.toList_candidates hb hs ht hslots, List.length_map, Candidates.size,
    hsplit, hlen, Nat.add_comm]
  simp only [decide_not]

end Expands

/-! ## Runs of rounds -/

/-- A round on `b` that spills, and the body with spill code it leaves, when the slots from `next`
on are free. -/
structure Rewrites (b : Body) (k next : Nat) (r : Round) (sp : Spilled) : Prop where
  round_eq : b.round k = .ok r
  spills_ne_nil : r.coloring.spills ≠ []
  spill_eq : b.spill r.storage r.coloring.spills next = .ok sp

/-- So many rounds with `k` registers that spill lead from one body and first free slot to
another. -/
inductive RewritesTo (k : Nat) : Nat → Body → Nat → Body → Nat → Prop
  | done (b : Body) (next : Nat) : RewritesTo k 0 b next b next
  | more {n next last : Nat} {b d : Body} {r : Round} {sp : Spilled} (step : b.Rewrites k next r sp)
      (rest : RewritesTo k n sp.body sp.nextSlot d last) : RewritesTo k (n + 1) b next d last

/-- **Step lemma.**  A round's spills can be carried out. -/
theorem Closed.exists_spill {b : Body} {k : Nat} {r : Round} (hb : b.Closed)
    (hr : r.Describes b k) (next : Nat) :
    ∃ slots start fresh, ∃ sp : Spilled, b.spill r.storage r.coloring.spills next = .ok sp ∧
      sp.nextSlot = next + r.coloring.spills.length ∧
      slots.Gives r.storage next r.coloring.spills ∧ b.Expands sp.body slots start fresh := by
  obtain ⟨slots, hrun, hgives⟩ := exists_slotMap hr.storage.toValid next
    (fun v hv => hr.lt_size_of_mem_spills hv) hr.fits.nodup
  obtain ⟨start, fresh, hx⟩ := hb.exists_expands slots
  exact ⟨slots, start, fresh, _, bind_eq_ok_iff.2 ⟨slots, hrun, rfl⟩, rfl, hgives, hx⟩

/-- What a round that spills does to a closed body. -/
theorem Rewrites.exists_expands {b : Body} {k next : Nat} {r : Round} {sp : Spilled}
    (h : b.Rewrites k next r sp) (hb : b.Closed) :
    r.Describes b k ∧ sp.nextSlot = next + r.coloring.spills.length ∧ ∃ slots start fresh,
      slots.Gives r.storage next r.coloring.spills ∧ b.Expands sp.body slots start fresh := by
  have hr := hb.describes_of_round h.round_eq
  obtain ⟨slots, start, fresh, sp', hsp, hnext, hgives, hx⟩ := hb.exists_spill hr next
  obtain rfl : sp = sp' := Except.ok.inj (h.spill_eq.symm.trans hsp)
  exact ⟨hr, hnext, slots, start, fresh, hgives, hx⟩

/-- A round of spilling keeps code closed. -/
theorem Rewrites.closed {b : Body} {k next : Nat} {r : Round} {sp : Spilled}
    (h : b.Rewrites k next r sp) (hb : b.Closed) : sp.body.Closed := by
  obtain ⟨-, -, slots, start, fresh, -, hx⟩ := h.exists_expands hb
  exact hx.closed hb

/-- Rounds of spilling keep code closed. -/
theorem RewritesTo.closed {k n next last : Nat} {b d : Body} (h : RewritesTo k n b next d last)
    (hb : b.Closed) : d.Closed := by
  induction h with
  | done => exact hb
  | more step _ ih => exact ih (step.closed hb)

/-- Every spilled variable is one candidate less. -/
theorem Rewrites.size_candidates {b : Body} {k next : Nat} {r : Round} {sp : Spilled} {t : Storage}
    (h : b.Rewrites k next r sp) (hb : b.Closed) (ht : Storage.ofBody sp.body = .ok t) :
    (sp.body.candidates t).size + r.coloring.spills.length = (b.candidates r.storage).size := by
  obtain ⟨hr, -, slots, start, fresh, hgives, hx⟩ := h.exists_expands hb
  exact hx.size_candidates hb hr.storage_eq ht hgives (fun v hv => hr.competes_of_mem_spills hv)
    hr.fits.nodup

theorem allocateRounds_done {b : Body} {k : Nat} {r : Round} (limit round next : Nat)
    (hr : b.round k = .ok r) (hspills : r.coloring.spills = []) :
    ∃ a, allocateRounds k (limit + 1) round next b = .ok a ∧
      a.body = b.assignRegisters r.storage r.coloring ∧
      a.allocation = { rounds := round, slots := next } := by
  refine ⟨_, bind_eq_ok_iff.2 ⟨r, hr, if_pos ?_⟩, rfl, rfl⟩
  rw [hspills]
  rfl

theorem allocateRounds_more {b : Body} {k limit round next : Nat} {r : Round} {sp : Spilled}
    {a : Allocated} (step : b.Rewrites k next r sp)
    (ha : allocateRounds k limit (round + 1) sp.nextSlot sp.body = .ok a) :
    ∃ a', allocateRounds k (limit + 1) round next b = .ok a' ∧ a'.body = a.body ∧
      a'.allocation = a.allocation := by
  refine ⟨_, bind_eq_ok_iff.2 ⟨r, step.round_eq, (if_neg ?_).trans
    (bind_eq_ok_iff.2 ⟨sp, step.spill_eq, bind_eq_ok_iff.2 ⟨a, ha, rfl⟩⟩)⟩, rfl, rfl⟩
  rw [List.isEmpty_iff]
  exact step.spills_ne_nil

/-- **Allocation comes to an end**, and the registers it writes are those of a last round that
spills nothing. -/
theorem Closed.exists_allocation {b : Body} {k : Nat} (hb : b.Closed) {limit : Nat}
    (hlimit : ∀ s, Storage.ofBody b = .ok s → (b.candidates s).size < limit) (round next : Nat) :
    ∃ a c n, ∃ r : Round, allocateRounds k limit round next b = .ok a ∧
      RewritesTo k n b next c a.allocation.slots ∧ c.round k = .ok r ∧ r.coloring.spills = [] ∧
      a.body = c.assignRegisters r.storage r.coloring ∧ a.allocation.rounds = round + n := by
  induction limit generalizing b round next with
  | zero =>
    obtain ⟨s, hs, -⟩ := hb.exists_storage
    exact absurd (hlimit s hs) (Nat.not_lt_zero _)
  | succ limit ih =>
    obtain ⟨r, hrun, hr⟩ := hb.exists_round k
    by_cases hspills : r.coloring.spills = []
    · obtain ⟨a, ha, hbody, halloc⟩ := allocateRounds_done limit round next hrun hspills
      refine ⟨a, b, 0, r, ha, ?_, hrun, hspills, hbody, by rw [halloc]; rfl⟩
      rw [halloc]
      exact .done b next
    · obtain ⟨-, -, -, sp, hsp, -⟩ := hb.exists_spill hr next
      have step : b.Rewrites k next r sp := ⟨hrun, hspills, hsp⟩
      have hsize : ∀ t, Storage.ofBody sp.body = .ok t → (sp.body.candidates t).size < limit := by
        intro t ht
        have hlt := hlimit r.storage hr.storage_eq
        have hpos := List.length_pos_of_ne_nil hspills
        have heq := step.size_candidates hb ht
        omega
      obtain ⟨a, c, n, r', ha, hrounds, hrun', hnil, hbody, hcount⟩ :=
        ih (step.closed hb) hsize (round + 1) sp.nextSlot
      obtain ⟨a', ha', hbody', halloc⟩ := allocateRounds_more step ha
      refine ⟨a', c, n + 1, r', ha', ?_, hrun', hnil, hbody'.trans hbody, ?_⟩
      · rw [halloc]
        exact .more step hrounds
      · rw [halloc, hcount]
        omega

/-- There are no more candidates than positions. -/
theorem size_candidates_le {b : Body} {s : Storage} (hs : s.Valid b) :
    (b.candidates s).size ≤ b.size := by
  have hlen : (b.candidates s).size ≤ s.classes.length := List.length_filterMap_le _ _
  have hclasses : s.classes.length ≤ s.members.size := by
    rw [Storage.classes, List.length_map]
    refine le_trans (List.length_filter_le _ _) ?_
    rw [List.length_zipIdx, Array.length_toList]
  rw [hs.size_members] at hclasses
  exact le_trans hlen hclasses

/-- **Allocation succeeds on closed bodies**, after rounds that spill and a last one that does
not. -/
theorem Closed.exists_rewritesTo {b : Body} (hb : b.Closed) {k : Nat} (hk : 1 ≤ k) :
    ∃ a c n, ∃ r : Round, b.allocate k = .ok a ∧ RewritesTo k n b 0 c a.allocation.slots ∧
      c.round k = .ok r ∧ r.coloring.spills = [] ∧ a.body = c.assignRegisters r.storage r.coloring ∧
      a.allocation.rounds = 1 + n := by
  have hlimit : ∀ s, Storage.ofBody b = .ok s → (b.candidates s).size < b.size + 1 := by
    intro s hs
    exact Nat.lt_succ_of_le (size_candidates_le (Storage.describes_of_ofBody hb hs).toValid)
  rw [allocate, if_neg (by omega)]
  exact hb.exists_allocation hlimit 1 0

/-- **With a register, closed code can be allocated.** -/
theorem Closed.exists_allocated {b : Body} (hb : b.Closed) {k : Nat} (hk : 1 ≤ k) :
    ∃ a, b.allocate k = .ok a := by
  obtain ⟨a, -, -, -, ha, -⟩ := hb.exists_rewritesTo hk
  exact ⟨a, ha⟩

/-! ## Runs on tidy bodies -/

/-- The spilling rounds of an allocation with `k` registers, from one body and first free slot to
another. -/
inductive SpillRounds (k : Nat) : Body → Nat → Body → Nat → Prop
  | done (b : Body) (next : Nat) : SpillRounds k b next b next
  | more {b c d : Body} {next last : Nat} {r : Round} {slots : SlotMap} {start fresh : Nat → Nat}
      (hb : b.Tidy next) (hr : r.Describes b k)
      (hslots : slots.Gives r.storage next r.coloring.spills)
      (hx : b.Expands c slots start fresh)
      (rest : SpillRounds k c (next + r.coloring.spills.length) d last) :
      SpillRounds k b next d last

/-- Rounds of spilling one after the other. -/
theorem RewritesTo.spillRounds {k n next last : Nat} {b d : Body}
    (h : RewritesTo k n b next d last) (hb : b.Tidy next) :
    SpillRounds k b next d last ∧ d.Tidy last := by
  induction h with
  | done b next => exact ⟨.done b next, hb⟩
  | more step _ ih =>
    obtain ⟨hr, hnext, slots, start, fresh, hgives, hx⟩ := step.exists_expands hb.toClosed
    rw [hnext] at ih
    obtain ⟨hrounds, hd⟩ :=
      ih (hx.tidy hr.storage hgives (fun v hv => hr.competes_of_mem_spills hv) hb)
    exact ⟨.more hb hr hgives hx hrounds, hd⟩

/-- **Allocation succeeds on closed bodies without spill code.** -/
theorem Closed.exists_allocate {b : Body} (hb : b.Closed) (hplain : b.Plain) {k : Nat}
    (hk : 1 ≤ k) :
    ∃ a c last, ∃ r : Round, b.allocate k = .ok a ∧ SpillRounds k b 0 c last ∧ c.Tidy last ∧
      r.Describes c k ∧ r.coloring.spills = [] ∧
        a.body = c.assignRegisters r.storage r.coloring := by
  obtain ⟨a, c, n, r, ha, hrounds, hrun, hspills, hbody, -⟩ := hb.exists_rewritesTo hk
  obtain ⟨hrounds', hc⟩ := hrounds.spillRounds (hb.tidy hplain 0)
  exact ⟨a, c, _, r, ha, hrounds', hc, hc.toClosed.describes_of_round hrun, hspills, hbody⟩

end Body

end Backend
