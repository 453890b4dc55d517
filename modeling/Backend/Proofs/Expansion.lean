/-
# What spill code leaves as it is

A body with spill code has the storage classes of the body it was made from, one more class for
each load and store, and the same flow of control from one instruction of the old body to the next.
The slot map has to give one slot to a whole class (`SlotMap.Uniform`), as the slot maps of
`Body.slotMap` do.
-/
import Mathlib
import Backend.Proofs.Liveness
import Backend.Proofs.SpillCode

namespace Backend

theorem Op.eq_label {op : Op} {l : Label} (h : op.labelHere = some l) : op = .label l := by
  cases op <;> simp_all [Op.labelHere]

/-- An operation that leaves a value does not jump. -/
theorem Op.target_of_definesValue {op : Op} (h : op.definesValue = true) :
    op.target = none ∧ op.isGoto = false := by
  cases op <;> simp_all [Op.definesValue, Op.target, Op.isGoto]

/-! ## Slot maps give slots to classes -/

namespace SlotMap

/-- Linked instructions have the same slot. -/
def Uniform (slots : SlotMap) (b : Body) : Prop :=
  ∀ x y, b.Linked x y → slots.slotOf x = slots.slotOf y

/-- The listed variables have the slots from `next` on. -/
def Gives (slots : SlotMap) (s : Storage) (next : Nat) (vars : List Nat) : Prop :=
  ∀ id q, slots.slotOf id = some q ↔
    ∃ n v, vars[n]? = some v ∧ next + n = q ∧ s.var? id = some v

end SlotMap

theorem lookup_map_const {ids : List Nat} {a x : Nat} :
    (ids.map fun id => (id, a)).lookup x = if x ∈ ids then some a else none := by
  induction ids with
  | nil => rfl
  | cons id ids ih =>
    rw [List.map_cons, List.lookup_cons, ih]
    by_cases h : x = id
    · subst h
      simp
    · rw [beq_eq_false_iff_ne.2 h]
      simp [h]

/-- The members of a variable of the body are found in the body. -/
theorem Body.exists_membersIn {b : Body} {s : Storage} (hs : s.Valid b) {v : Nat}
    (hv : v < b.size) :
    ∃ ids, b.membersIn s v = .ok ids ∧ ∀ id, id ∈ ids ↔ s.var? id = some v := by
  have hlt : v < s.members.size := by
    rw [hs.size_members]
    exact hv
  have hmem : ∀ id, id ∈ s.members[v] ↔ s.var? id = some v := by
    intro id
    rw [← hs.mem_members, Array.getD_eq_getD_getElem?, Array.getElem?_eq_getElem hlt]
    rfl
  refine ⟨s.members[v], ?_, hmem⟩
  rw [Body.membersIn, Storage.membersOf, Array.getElem?_eq_getElem hlt]
  refine bind_eq_ok_iff.2 ⟨_, rfl, if_pos (List.all_eq_true.2 fun id hid => ?_)⟩
  exact decide_eq_true (hs.lt_size ((hmem id).1 hid))

/-- Slots can be given to any variables of the body. -/
theorem Body.exists_slotMap {b : Body} {s : Storage} (hs : s.Valid b) (next : Nat)
    {vars : List Nat} (hvars : ∀ v ∈ vars, v < b.size) (hnodup : vars.Nodup) :
    ∃ slots, b.slotMap s next vars = .ok slots ∧ slots.Gives s next vars := by
  induction vars generalizing next with
  | nil =>
    refine ⟨[], rfl, fun id q => ⟨fun h => absurd h (by simp [SlotMap.slotOf]), ?_⟩⟩
    rintro ⟨n, v, hv, -⟩
    exact absurd hv (by simp)
  | cons v vars ih =>
    obtain ⟨hv, hnodup'⟩ := List.nodup_cons.1 hnodup
    obtain ⟨later, hlater, hgives⟩ := ih (next + 1)
      (fun w hw => hvars w (List.mem_cons_of_mem v hw)) hnodup'
    obtain ⟨ids, hin, hmem⟩ := exists_membersIn hs (hvars v List.mem_cons_self)
    refine ⟨later ++ ids.map fun id => (id, next), ?_, fun id q => ?_⟩
    · exact bind_eq_ok_iff.2 ⟨_, hin, bind_eq_ok_iff.2 ⟨_, hlater, rfl⟩⟩
    · rw [SlotMap.slotOf, List.lookup_append, lookup_map_const]
      have hlook : List.lookup id later = later.slotOf id := rfl
      rw [hlook]
      constructor
      · intro h
        cases hslot : later.slotOf id with
        | some q' =>
          rw [hslot] at h
          obtain rfl : q' = q := Option.some.inj h
          obtain ⟨n, w, hw, hq, hid⟩ := (hgives id q').1 hslot
          exact ⟨n + 1, w, hw, by omega, hid⟩
        | none =>
          rw [hslot, Option.none_or] at h
          split at h
          · rename_i hid
            exact ⟨0, v, rfl, Option.some.inj h, (hmem id).1 hid⟩
          · exact absurd h (by simp)
      · rintro ⟨n, w, hw, hq, hid⟩
        cases n with
        | zero =>
          obtain rfl : v = w := Option.some.inj hw
          -- the variable is listed once, so the later entries say nothing about it
          have hnone : later.slotOf id = none := by
            rw [Option.eq_none_iff_forall_ne_some]
            intro q' hq'
            obtain ⟨n, w, hw, -, hid'⟩ := (hgives id q').1 hq'
            obtain rfl : v = w := Option.some.inj (hid.symm.trans hid')
            exact hv (List.mem_of_getElem? hw)
          rw [hnone, Option.none_or, if_pos ((hmem id).2 hid)]
          exact congrArg some hq
        | succ n =>
          rw [(hgives id q).2 ⟨n, w, hw, by omega, hid⟩]
          rfl

namespace SlotMap

variable {slots : SlotMap} {s : Storage} {next : Nat} {vars : List Nat}

theorem Gives.uniform {b : Body} (h : slots.Gives s next vars) (hb : b.Closed)
    (hs : s.Describes b) : slots.Uniform b := by
  intro x y hxy
  apply Option.ext
  intro q
  rw [h x q, h y q, hs.var?_eq_of_linked hb hxy]

/-- Different variables have different slots. -/
theorem Gives.var?_eq (h : slots.Gives s next vars) {x y q : Nat} (hx : slots.slotOf x = some q)
    (hy : slots.slotOf y = some q) : s.var? x = s.var? y := by
  obtain ⟨n, v, hv, hq, hxv⟩ := (h x q).1 hx
  obtain ⟨n', v', hv', hq', hyv⟩ := (h y q).1 hy
  obtain rfl : n = n' := by omega
  obtain rfl : v = v' := Option.some.inj (hv.symm.trans hv')
  rw [hxv, hyv]

/-- Slots are taken from the next free one on. -/
theorem Gives.bounds (h : slots.Gives s next vars) {x q : Nat} (hx : slots.slotOf x = some q) :
    next ≤ q ∧ q < next + vars.length := by
  obtain ⟨n, v, hv, hq, -⟩ := (h x q).1 hx
  have hn := (List.getElem?_eq_some_iff.1 hv).1
  omega

theorem Gives.isSome_iff (h : slots.Gives s next vars) {x v : Nat} (hx : s.var? x = some v) :
    (∃ q, slots.slotOf x = some q) ↔ v ∈ vars := by
  constructor
  · rintro ⟨q, hq⟩
    obtain ⟨n, w, hw, -, hxw⟩ := (h x q).1 hq
    obtain rfl : v = w := Option.some.inj (hx.symm.trans hxw)
    exact List.mem_of_getElem? hw
  · intro hv
    obtain ⟨n, hn⟩ := List.getElem?_of_mem hv
    exact ⟨next + n, (h x _).2 ⟨n, v, hn, rfl, hx⟩⟩

/-! ## Which operands are exchanged -/

/-- An operand with a slot that is loaded is exchanged for the load, any other one stays. -/
theorem redirect_cases (slots : SlotMap) (loads : List Nat) (first o : Nat) :
    (slots.redirect loads first o = o ∧ ∀ q ∈ loads, slots.slotOf o ≠ some q) ∨
      ∃ q n, slots.slotOf o = some q ∧ loads[n]? = some q ∧
        slots.redirect loads first o = first + n := by
  rw [redirect]
  cases hslot : slots.slotOf o with
  | none => exact Or.inl ⟨rfl, fun q _ h => absurd h (by simp)⟩
  | some q =>
    rw [Option.bind_some]
    cases hidx : loads.idxOf? q with
    | none =>
      refine Or.inl ⟨rfl, fun q' hq' h => List.idxOf?_eq_none_iff.1 hidx ?_⟩
      rwa [Option.some.inj h]
    | some n =>
      obtain ⟨hn, hq, -⟩ := List.idxOf?_eq_some_iff.1 hidx
      exact Or.inr ⟨q, n, rfl, List.getElem?_eq_some_iff.2 ⟨hn, hq⟩, rfl⟩

/-- What is loaded is the slot of an operand. -/
theorem exists_operand_of_mem_toLoad {id q : Nat} {op : Op} (h : q ∈ slots.toLoad id op) :
    ∃ o ∈ op.operands, slots.slotOf o = some q := by
  rw [toLoad] at h
  split at h
  · exact absurd h List.not_mem_nil
  · rwa [List.mem_eraseDups, List.mem_filterMap] at h

/-- A value is stored if it has a slot and is not a join. -/
theorem toStore_eq_some {id q : Nat} {op : Op} : slots.toStore id op = some q ↔
    op.definesValue = true ∧ op.isUnify = false ∧ slots.slotOf id = some q := by
  rw [toStore]
  cases op.definesValue <;> cases op.isUnify <;> simp

/-- **The operands of a join stay**: if its class moves to the stack it loads nothing, and otherwise
none of its operands does. -/
theorem Uniform.toLoad_unify {b : Body} (h : slots.Uniform b) {id l r : Nat} {i : Instr}
    (hi : b.store[id]? = some i) (hop : i.op = .unify l r) : slots.toLoad id i.op = [] := by
  obtain ⟨hl, hr⟩ := Body.linked_of_unify hi hop
  have hl' := h _ _ hl
  have hr' := h _ _ hr
  rw [toLoad, hop]
  cases hslot : slots.slotOf id with
  | some q => rfl
  | none =>
    rw [hslot] at hl' hr'
    simp [Op.isUnify, Op.operands, ← hl', ← hr']

theorem Uniform.op_written_unify {b : Body} (h : slots.Uniform b) {id : Nat} {i : Instr}
    (hi : b.store[id]? = some i) (hop : i.op.isUnify = true) (first : Nat) :
    (Body.Expands.written slots first id i).op = i.op := by
  rw [Body.Expands.op_written]
  cases hop' : i.op with
  | unify l r =>
    have hload := h.toLoad_unify hi hop'
    rw [← hop', hload]
    refine Op.mapOperands_eq_self fun o _ => ?_
    rcases slots.redirect_cases [] first o with ⟨ho, -⟩ | ⟨q, n, -, hn, -⟩
    · exact ho
    · exact absurd hn (by simp)
  | _ => rw [hop'] at hop; exact absurd hop (by simp [Op.isUnify])

end SlotMap

/-! ## The instructions of an expansion -/

namespace Body.Expands

variable {b c : Body} {slots : SlotMap} {start fresh : Nat → Nat}

section Store

variable (hx : b.Expands c slots start fresh)

include hx

theorem store_main {p id : Nat} {i : Instr} (hp : b.toList[p]? = some (id, i)) :
    c.store[id]? = some (written slots (fresh p) id i) :=
  hx.wellFormed.mem_toList.1 (List.mem_of_getElem? (hx.getElem?_main hp))

/-- What the store of the expansion holds. -/
theorem cases_store {x : Nat} {j : Instr} (hj : c.store[x]? = some j) :
    ∃ p id i, b.toList[p]? = some (id, i) ∧
      ((x = id ∧ j = written slots (fresh p) id i) ∨
        (∃ n s, x = fresh p + n ∧ (slots.toLoad id i.op)[n]? = some s ∧
          j = { op := .load s, span := (slots.mark id i).span }) ∨
        ∃ s, slots.toStore id i.op = some s ∧ x = fresh p + (slots.toLoad id i.op).length ∧
          j = { op := .store id s, span := (slots.mark id i).span }) := by
  obtain ⟨q, hq⟩ := hx.wellFormed.exists_position hj
  obtain ⟨p, id, i, hp, ⟨n, s, -, hs, he⟩ | ⟨-, he⟩ | ⟨s, hs, -, he⟩⟩ := hx.cases_getElem? hq
  · obtain ⟨rfl, rfl⟩ := Prod.mk.inj he
    exact ⟨p, id, i, hp, Or.inr (Or.inl ⟨n, s, rfl, hs, rfl⟩)⟩
  · obtain ⟨rfl, rfl⟩ := Prod.mk.inj he
    exact ⟨p, _, i, hp, Or.inl ⟨rfl, rfl⟩⟩
  · obtain ⟨rfl, rfl⟩ := Prod.mk.inj he
    exact ⟨p, id, i, hp, Or.inr (Or.inr ⟨s, hs, rfl, rfl⟩)⟩

/-- An instruction of the old body stays, with its operands exchanged. -/
theorem cases_store_old (hb : b.WellFormed) {x : Nat} {j : Instr} (hj : c.store[x]? = some j)
    (hlt : x < b.store.size) : ∃ p i, b.toList[p]? = some (x, i) ∧ b.store[x]? = some i ∧
      j = written slots (fresh p) x i := by
  obtain ⟨p, id, i, hp, ⟨rfl, rfl⟩ | ⟨n, s, rfl, -⟩ | ⟨s, -, rfl, -⟩⟩ := hx.cases_store hj
  · exact ⟨p, i, hp, (hb.getElem?_toList_eq_some.1 hp).2, rfl⟩
  · exact absurd hlt (by have := hx.le_fresh p; omega)
  · exact absurd hlt (by have := hx.le_fresh p; omega)

/-- A fresh instruction is a load or a store. -/
theorem accessesSlot_of_le (hb : b.WellFormed) {x : Nat} {j : Instr} (hj : c.store[x]? = some j)
    (hle : b.store.size ≤ x) : j.op.accessesSlot = true ∧ j.slot = none := by
  obtain ⟨p, id, i, hp, ⟨rfl, -⟩ | ⟨n, s, -, -, rfl⟩ | ⟨s, -, -, rfl⟩⟩ := hx.cases_store hj
  · have := lt_size_of_getElem? (hb.getElem?_toList_eq_some.1 hp).2
    omega
  · exact ⟨rfl, rfl⟩
  · exact ⟨rfl, rfl⟩

/-- **The expansion of a closed body is closed.** -/
theorem closed (hb : b.Closed) : c.Closed where
  toWellFormed := hx.wellFormed
  operands x j hj o ho := by
    obtain ⟨p, id, i, hp, ⟨rfl, rfl⟩ | ⟨n, s, -, -, rfl⟩ | ⟨s, -, -, rfl⟩⟩ := hx.cases_store hj
    · rw [op_written, Op.operands_mapOperands, List.mem_map] at ho
      obtain ⟨o', ho', rfl⟩ := ho
      have hlt := hb.operands x i (hb.getElem?_toList_eq_some.1 hp).2 o' ho'
      rcases slots.redirect_cases (slots.toLoad x i.op) (fresh p) o' with ⟨h, -⟩ | ⟨q, n, -, hn, h⟩
      · rw [h]
        exact lt_of_lt_of_le hlt hx.size_le
      · rw [h]
        exact lt_size_of_getElem?
          (hx.wellFormed.mem_toList.1 (List.mem_of_getElem? (hx.getElem?_load hp hn)))
    · exact absurd ho List.not_mem_nil
    · obtain rfl : o = id := by simpa [Op.operands] using ho
      exact lt_size_of_getElem? (hx.store_main hp)
  targets x j hj l hl := by
    obtain ⟨p, id, i, hp, ⟨rfl, rfl⟩ | ⟨n, s, -, -, rfl⟩ | ⟨s, -, -, rfl⟩⟩ := hx.cases_store hj
    · rw [op_written, Op.target_mapOperands] at hl
      obtain ⟨y, k, hk, hkl⟩ := hb.targets x i (hb.getElem?_toList_eq_some.1 hp).2 l hl
      obtain ⟨p', hp'⟩ := hb.exists_position hk
      exact ⟨y, _, hx.store_main hp', by rw [op_written, Op.labelHere_mapOperands, hkl]⟩
    · exact absurd hl (by simp [Op.target])
    · exact absurd hl (by simp [Op.target])

/-- The joins of the expansion are those of the body. -/
theorem ties_iff (hb : b.WellFormed) (hslots : slots.Uniform b) {x y : Nat} :
    c.Ties x y ↔ b.Ties x y := by
  constructor
  · rintro ⟨j, l, r, hj, hop, hy⟩
    obtain ⟨p, id, i, hp, ⟨rfl, rfl⟩ | ⟨n, s, -, -, rfl⟩ | ⟨s, -, -, rfl⟩⟩ := hx.cases_store hj
    · have hi := (hb.getElem?_toList_eq_some.1 hp).2
      have hunify : i.op.isUnify = true := by
        rw [← Op.isUnify_mapOperands, ← op_written, hop]
        rfl
      rw [hslots.op_written_unify hi hunify] at hop
      exact ⟨i, l, r, hi, hop, hy⟩
    · exact absurd hop (by simp)
    · exact absurd hop (by simp)
  · rintro ⟨i, l, r, hi, hop, hy⟩
    obtain ⟨p, hp⟩ := hb.exists_position hi
    refine ⟨_, l, r, hx.store_main hp, ?_, hy⟩
    rw [hslots.op_written_unify hi (by rw [hop]; rfl), hop]

/-- **Spill code leaves the classes as they are.** -/
theorem linked_iff (hb : b.WellFormed) (hslots : slots.Uniform b) {x y : Nat} :
    c.Linked x y ↔ b.Linked x y := by
  have hties : c.Ties = b.Ties := by
    funext x y
    exact propext (hx.ties_iff hb hslots)
  rw [Linked, Linked, hties]

end Store

/-! ## Control flow -/

section Flow

variable (hx : b.Expands c slots start fresh) (hb : b.WellFormed)

include hx hb

theorem start_lt {p p' : Nat} (h : p < p') (hp' : p' ≤ b.size) : start p < start p' := by
  induction p' with
  | zero => exact absurd h (Nat.not_lt_zero p)
  | succ p' ih =>
    have hlt : p' < b.toList.length := by
      rw [hb.length_toList]
      exact hp'
    have hsucc := hx.start_succ p' _ _ (List.getElem?_eq_getElem hlt)
    rcases Nat.lt_or_eq_of_le (Nat.le_of_lt_succ h) with h | rfl
    · have := ih h (by omega)
      omega
    · omega

theorem start_le_iff {p p' : Nat} (hp : p ≤ b.size) (hp' : p' ≤ b.size) :
    start p ≤ start p' ↔ p ≤ p' := by
  constructor
  · intro h
    by_contra hlt
    have := hx.start_lt hb (not_le.1 hlt) hp
    omega
  · intro h
    rcases Nat.lt_or_eq_of_le h with h | rfl
    · exact le_of_lt (hx.start_lt hb h hp')
    · exact le_refl _

omit hb in
/-- A label stands at the beginning of what an old label has become. -/
theorem label_iff {q : Nat} {l : Label} :
    (∃ op, c.ops[q]? = some op ∧ op.labelHere = some l) ↔
      ∃ p op, q = start p ∧ b.ops[p]? = some op ∧ op.labelHere = some l := by
  constructor
  · rintro ⟨op, hop, hl⟩
    rw [getElem?_ops] at hop
    obtain ⟨e, he, rfl⟩ := Option.map_eq_some_iff.1 hop
    obtain ⟨p, id, i, hp, ⟨n, s, -, -, rfl⟩ | ⟨rfl, rfl⟩ | ⟨s, -, -, rfl⟩⟩ := hx.cases_getElem? he
    · exact absurd hl (by simp [Op.labelHere])
    · rw [op_written, Op.labelHere_mapOperands] at hl
      refine ⟨p, i.op, ?_, by rw [getElem?_ops, hp]; rfl, hl⟩
      rw [Op.eq_label hl]
      rfl
    · exact absurd hl (by simp [Op.labelHere])
  · rintro ⟨p, op, rfl, hop, hl⟩
    rw [getElem?_ops] at hop
    obtain ⟨⟨id, i⟩, hp, rfl⟩ := Option.map_eq_some_iff.1 hop
    have hmain := hx.getElem?_main hp
    have hload : (slots.toLoad id i.op).length = 0 := by
      rw [Op.eq_label hl]
      rfl
    rw [hload, Nat.add_zero] at hmain
    refine ⟨(written slots (fresh p) id i).op, by rw [getElem?_ops, hmain]; rfl, ?_⟩
    rw [op_written, Op.labelHere_mapOperands, hl]

/-- Jumps lead where they led before. -/
theorem labelPosition? {l : Label} {q : Nat} : FlowGraph.labelPosition? c.ops l = some q ↔
    ∃ p, FlowGraph.labelPosition? b.ops l = some p ∧ q = start p := by
  have hlt : ∀ {p : Nat} {op : Op}, b.ops[p]? = some op → p ≤ b.size := by
    intro p op hop
    rw [← length_ops hb]
    exact le_of_lt (List.getElem?_eq_some_iff.1 hop).1
  constructor
  · intro h
    obtain ⟨hlabel, hlast⟩ := FlowGraph.labelPosition?_eq_some.1 h
    obtain ⟨p, op, rfl, hop, hl⟩ := hx.label_iff.1 hlabel
    refine ⟨p, FlowGraph.labelPosition?_eq_some.2 ⟨⟨op, hop, hl⟩, fun m op' hop' hl' => ?_⟩, rfl⟩
    obtain ⟨op'', hop'', hl''⟩ := hx.label_iff.2 ⟨m, op', rfl, hop', hl'⟩
    exact (hx.start_le_iff hb (hlt hop') (hlt hop)).1 (hlast _ op'' hop'' hl'')
  · rintro ⟨p, h, rfl⟩
    obtain ⟨⟨op, hop, hl⟩, hlast⟩ := FlowGraph.labelPosition?_eq_some.1 h
    refine FlowGraph.labelPosition?_eq_some.2
      ⟨hx.label_iff.2 ⟨p, op, rfl, hop, hl⟩, fun m op' hop' hl' => ?_⟩
    obtain ⟨p', op'', rfl, hop'', hl''⟩ := hx.label_iff.1 ⟨op', hop', hl'⟩
    exact (hx.start_le_iff hb (hlt hop'') (hlt hop)).2 (hlast p' op'' hop'' hl'')

section Passes

variable {p id : Nat} {i : Instr} (hp : b.toList[p]? = some (id, i))

include hp

omit hb in
/-- Behind a load comes the rest of the spill code and the instruction. -/
theorem passes_load {n s q : Nat} (hs : (slots.toLoad id i.op)[n]? = some s)
    (hq : c.Passes (start p + n) q) : q = start p + (n + 1) := by
  have hop : c.ops[start p + n]? = some (.load s) := by
    rw [getElem?_ops, hx.getElem?_load hp hs]
    rfl
  rcases hq with ⟨op, -, -, rfl, -⟩ | ⟨op, l, hop', hl, -⟩
  · rfl
  · obtain rfl : Op.load s = op := Option.some.inj (hop.symm.trans hop')
    exact absurd hl (by simp [Op.target])

omit hb in
theorem getElem?_ops_main : c.ops[start p + (slots.toLoad id i.op).length]? =
    some (written slots (fresh p) id i).op := by
  rw [getElem?_ops, hx.getElem?_main hp]
  rfl

/-- Control falls through to the next instruction if that is still in the expansion. -/
theorem passes_succ (hgoto : i.op.isGoto = false) (hlt : start (p + 1) < c.size) :
    b.Passes p (p + 1) := by
  have hop : b.ops[p]? = some i.op := by
    rw [getElem?_ops, hp]
    rfl
  have hle : p + 1 ≤ b.size := by
    rw [← hb.length_toList]
    exact (List.getElem?_eq_some_iff.1 hp).1
  have hne : p + 1 ≠ b.size := by
    intro heq
    rw [hx.size_eq, heq] at hlt
    exact lt_irrefl _ hlt
  exact Or.inl ⟨i.op, hop, hgoto, rfl, by omega⟩

omit hb in
/-- Behind an instruction that is stored comes the store. -/
theorem passes_main_store {s q : Nat} (hs : slots.toStore id i.op = some s)
    (hq : c.Passes (start p + (slots.toLoad id i.op).length) q) :
    q = start p + ((slots.toLoad id i.op).length + 1) := by
  have hdef := (SlotMap.toStore_eq_some.1 hs).1
  rcases hq with ⟨op, -, -, rfl, -⟩ | ⟨op, l, hop', hl, -⟩
  · rfl
  · obtain rfl := Option.some.inj ((hx.getElem?_ops_main hp).symm.trans hop')
    rw [op_written, Op.target_mapOperands, (Op.target_of_definesValue hdef).1] at hl
    exact absurd hl (by simp)

/-- An instruction that is not stored leads where it led before. -/
theorem passes_main {q : Nat} (hs : slots.toStore id i.op = none)
    (hq : c.Passes (start p + (slots.toLoad id i.op).length) q) :
    ∃ p', b.Passes p p' ∧ q = start p' := by
  have hmain := hx.getElem?_ops_main hp
  rcases hq with ⟨op, hop', hgoto, rfl, hlt⟩ | ⟨op, l, hop', hl, hpos⟩
  · obtain rfl := Option.some.inj (hmain.symm.trans hop')
    have hsucc := hx.start_succ p id i hp
    rw [SlotMap.extra, hs, Option.toList_none, List.length_nil, Nat.add_zero, ← Nat.add_assoc]
      at hsucc
    rw [op_written, Op.isGoto_mapOperands] at hgoto
    exact ⟨p + 1, hx.passes_succ hb hp hgoto (by omega), hsucc.symm⟩
  · obtain rfl := Option.some.inj (hmain.symm.trans hop')
    rw [op_written, Op.target_mapOperands] at hl
    obtain ⟨p', hp', rfl⟩ := (hx.labelPosition? hb).1 hpos
    exact ⟨p', Or.inr ⟨i.op, l, by rw [getElem?_ops, hp]; rfl, hl, hp'⟩, rfl⟩

/-- Behind the store control goes where the instruction led before. -/
theorem passes_store {s q : Nat} (hs : slots.toStore id i.op = some s)
    (hq : c.Passes (start p + ((slots.toLoad id i.op).length + 1)) q) :
    ∃ p', b.Passes p p' ∧ q = start p' := by
  have hstore : c.ops[start p + ((slots.toLoad id i.op).length + 1)]? = some (.store id s) := by
    rw [getElem?_ops, hx.getElem?_store hp hs]
    rfl
  have hgoto := (Op.target_of_definesValue (SlotMap.toStore_eq_some.1 hs).1).2
  have hsucc := hx.start_succ p id i hp
  rw [SlotMap.extra, hs, Option.toList_some, List.length_singleton, ← Nat.add_assoc] at hsucc
  rcases hq with ⟨op, -, -, rfl, hlt⟩ | ⟨op, l, hop', hl, -⟩
  · exact ⟨p + 1, hx.passes_succ hb hp hgoto (by omega), hsucc.symm⟩
  · obtain rfl := Option.some.inj (hstore.symm.trans hop')
    exact absurd hl (by simp [Op.target])

end Passes

end Flow

/-! ## Liveness -/

section Live

/-- An instruction of the expansion reads what the old one did, or one of its loads. -/
theorem cases_reads {first id o : Nat} {i : Instr}
    (ho : o ∈ readsOf id (written slots first id i).op) :
    o ∈ readsOf id i.op ∨ ∃ m < (slots.toLoad id i.op).length, o = first + m := by
  rw [op_written, readsOf, Op.isUnify_mapOperands] at ho
  rw [readsOf]
  split_ifs at ho ⊢ with hunify
  · exact Or.inl ho
  · rw [Op.operands_mapOperands, List.mem_map] at ho
    obtain ⟨o', ho', rfl⟩ := ho
    rcases slots.redirect_cases (slots.toLoad id i.op) first o' with ⟨h, -⟩ | ⟨q, n, -, hn, h⟩
    · rw [h]
      exact Or.inl ho'
    · exact Or.inr ⟨n, (List.getElem?_eq_some_iff.1 hn).1, h⟩

variable (hx : b.Expands c slots start fresh) (hb : b.Closed) (hslots : slots.Uniform b)

include hx hb hslots

/-- **Spill code makes nothing live that was not.**  In front of an instruction and its loads only
values of old classes are live, where they were live before, and the loads that have been made;
between an instruction and its store, what is live behind the instruction, or is stored. -/
theorem liveAt_of_liveAt {y q : Nat} (h : c.LiveAt y q) {p id n : Nat} {i : Instr}
    (hp : b.toList[p]? = some (id, i)) (hq : q = start p + n) :
    (n ≤ (slots.toLoad id i.op).length → b.LiveAt y p ∨ ∃ m < n, c.Linked (fresh p + m) y) ∧
      (∀ s, slots.toStore id i.op = some s → n = (slots.toLoad id i.op).length + 1 →
        b.Linked id y ∨ ∃ p', b.Passes p p' ∧ b.LiveAt y p') := by
  induction h generalizing p id n i with
  | @use q' id' o' i' hq' ho hlink =>
    subst hq
    refine ⟨fun hn => ?_, fun s hs hn => ?_⟩
    · rcases Nat.lt_or_eq_of_le hn with hn | rfl
      · have hload := hx.getElem?_load hp (List.getElem?_eq_getElem hn)
        obtain ⟨rfl, rfl⟩ := Prod.mk.inj (Option.some.inj (hload.symm.trans hq'))
        exact absurd ho List.not_mem_nil
      · obtain ⟨rfl, rfl⟩ := Prod.mk.inj (Option.some.inj ((hx.getElem?_main hp).symm.trans hq'))
        rcases cases_reads ho with ho' | ⟨m, hm, rfl⟩
        · exact Or.inl (.use hp ho' ((hx.linked_iff hb.toWellFormed hslots).1 hlink))
        · exact Or.inr ⟨m, hm, hlink⟩
    · subst hn
      obtain ⟨rfl, rfl⟩ := Prod.mk.inj (Option.some.inj ((hx.getElem?_store hp hs).symm.trans hq'))
      obtain rfl : o' = id := by simpa [readsOf, Op.operands, Op.isUnify] using ho
      exact Or.inl ((hx.linked_iff hb.toWellFormed hslots).1 hlink)
  | @pass q' q'' id' i' hq' hd hpass _ ih =>
    subst hq
    -- where control enters the next instruction, no load for it has been made yet
    have hnext : ∀ {p'}, b.Passes p p' → q'' = start p' → b.LiveAt y p' := by
      intro p' hp' hq''
      obtain ⟨id'', i'', hentry⟩ := hp'.exists_entry hb.toWellFormed
      rcases (ih (n := 0) hentry hq'').1 (Nat.zero_le _) with h | ⟨m, hm, -⟩
      · exact h
      · exact absurd hm (Nat.not_lt_zero m)
    refine ⟨fun hn => ?_, fun s hs hn => ?_⟩
    · rcases Nat.lt_or_eq_of_le hn with hn | rfl
      · have hs := List.getElem?_eq_getElem hn
        obtain ⟨rfl, rfl⟩ :=
          Prod.mk.inj (Option.some.inj ((hx.getElem?_load hp hs).symm.trans hq'))
        rcases (ih hp (hx.passes_load hp hs hpass)).1 hn with h | ⟨m, hm, hlink⟩
        · exact Or.inl h
        · refine Or.inr ⟨m, ?_, hlink⟩
          rcases Nat.lt_or_eq_of_le (Nat.le_of_lt_succ hm) with hm | rfl
          · exact hm
          · exact absurd hlink (hd rfl)
      · obtain ⟨rfl, rfl⟩ := Prod.mk.inj (Option.some.inj ((hx.getElem?_main hp).symm.trans hq'))
        rw [op_written, Op.definesValue_mapOperands, hx.linked_iff hb.toWellFormed hslots] at hd
        left
        cases hs : slots.toStore id i.op with
        | some s =>
          rcases (ih hp (hx.passes_main_store hp hs hpass)).2 s hs rfl with h | ⟨p', hp', h⟩
          · exact absurd h (hd (SlotMap.toStore_eq_some.1 hs).1)
          · exact .pass hp hd hp' h
        | none =>
          obtain ⟨p', hp', rfl⟩ := hx.passes_main hb.toWellFormed hp hs hpass
          exact .pass hp hd hp' (hnext hp' rfl)
    · subst hn
      obtain ⟨p', hp', rfl⟩ := hx.passes_store hb.toWellFormed hp hs hpass
      exact Or.inr ⟨p', hp', hnext hp' rfl⟩

/-- Where nothing is live on entry to a body, nothing is live on entry to its expansion. -/
theorem not_liveAt_zero (h : ∀ x, ¬ b.LiveAt x 0) (y : Nat) : ¬ c.LiveAt y 0 := by
  intro hy
  obtain ⟨id, i, hentry⟩ : ∃ id i, b.toList[0]? = some (id, i) := by
    obtain ⟨id', i', hq⟩ := hy.exists_entry
    obtain ⟨p, id, i, hp, -⟩ := hx.cases_getElem? hq
    have hlt : 0 < b.toList.length := Nat.zero_lt_of_lt (List.getElem?_eq_some_iff.1 hp).1
    exact ⟨_, _, List.getElem?_eq_getElem hlt⟩
  have hlive := hx.liveAt_of_liveAt hb hslots hy (n := 0) hentry hx.start_zero.symm
  rcases hlive.1 (Nat.zero_le _) with h' | ⟨m, hm, -⟩
  · exact h y h'
  · exact absurd hm (Nat.not_lt_zero m)

end Live

end Body.Expands

end Backend
