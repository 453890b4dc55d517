/-
# Bodies in good order

A body is well formed (`Body.WellFormed`) when its order lists every instruction of the store
exactly once, as it does in every body that can be built (`Body.Built.wellFormed`), and closed
(`Body.Closed`) when moreover its instructions refer to instructions of the body only and its jumps
to labels that stand in it.  On a well-formed body positions and instructions are in bijection, and
the numbered instructions (`Body.toList`), the operations (`Body.ops`) and the order are the same
list seen in three ways.
-/
import Mathlib
import Backend.Flow.Graph

namespace Backend

/-! ## Computations that may fail -/

/-- A computation in two parts succeeds exactly when both parts do. -/
theorem bind_eq_ok_iff {ε α β : Type} {x : Except ε α} {f : α → Except ε β} {r : β} :
    (x >>= f) = .ok r ↔ ∃ a, x = .ok a ∧ f a = .ok r := by
  cases x with
  | error e => simp [bind, Except.bind]
  | ok a => simp [bind, Except.bind]

/-- A computation whose result passes a test succeeds. -/
theorem exists_ok_of_any {ε α : Type} {x : Except ε α} {test : α → Bool}
    (h : x.toOption.any test = true) : ∃ a, x = .ok a ∧ test a = true := by
  cases x with
  | error e => cases h
  | ok a => exact ⟨a, rfl, h⟩

/-! ## Lists that lose nothing -/

/-- Where a partial function is defined on all entries, filtering by it keeps the places. -/
theorem getElem?_filterMap_of_isSome {α β : Type} (f : α → Option β) (xs : List α)
    (h : ∀ x ∈ xs, (f x).isSome) (p : Nat) : (xs.filterMap f)[p]? = xs[p]?.bind f := by
  induction xs generalizing p with
  | nil => rfl
  | cons x xs ih =>
    obtain ⟨y, hy⟩ := Option.isSome_iff_exists.1 (h x List.mem_cons_self)
    rw [List.filterMap_cons_some hy]
    cases p with
    | zero => exact hy.symm
    | succ p => exact ih (fun z hz => h z (List.mem_cons_of_mem x hz)) p

/-! ## Look-up -/

/-- What is found in a list stands in it. -/
theorem mem_of_lookup_eq_some {α β : Type} [BEq α] [LawfulBEq α] {xs : List (α × β)} {a : α} {b : β}
    (h : xs.lookup a = some b) : (a, b) ∈ xs := by
  obtain ⟨l, r, rfl, -⟩ := List.lookup_eq_some_iff.1 h
  exact List.mem_append_right l List.mem_cons_self

namespace Body

/-! ## Well-formed bodies -/

/-- The order lists every instruction of the store exactly once. -/
structure WellFormed (b : Body) : Prop where
  nodup : b.order.Nodup
  mem_order : ∀ id, id ∈ b.order ↔ id < b.store.size

/-- A well-formed body whose operands are in the body and whose jumps lead to labels in it. -/
structure Closed (b : Body) : Prop extends b.WellFormed where
  operands : ∀ (id : Nat) (i : Instr), b.store[id]? = some i → ∀ o ∈ i.op.operands, o < b.store.size
  targets : ∀ (id : Nat) (i : Instr), b.store[id]? = some i → ∀ l, i.op.target = some l →
    ∃ id' : Nat, ∃ i' : Instr, b.store[id']? = some i' ∧ i'.op.labelHere = some l

/-- Numbers that name instructions are below the size of the store. -/
theorem lt_size_of_getElem? {b : Body} {id : Nat} {i : Instr} (h : b.store[id]? = some i) :
    id < b.store.size := (Array.getElem?_eq_some_iff.1 h).1

/-- Below the size of the store every number names an instruction. -/
theorem exists_instr {b : Body} {id : Nat} (h : id < b.store.size) :
    ∃ i, b.store[id]? = some i := ⟨_, Array.getElem?_eq_getElem h⟩

namespace WellFormed

variable {b : Body}

/-- Every number in the order is that of an instruction. -/
theorem isSome_entry (h : b.WellFormed) :
    ∀ id ∈ b.order, (b.store[id]?.map fun i => (id, i)).isSome := by
  intro id hid
  obtain ⟨i, hi⟩ := exists_instr ((h.mem_order id).1 hid)
  rw [hi]
  rfl

/-- The entry at a position is the instruction that the order names there. -/
theorem getElem?_toList (h : b.WellFormed) (p : Nat) :
    b.toList[p]? = b.order[p]?.bind fun id => b.store[id]?.map fun i => (id, i) :=
  getElem?_filterMap_of_isSome _ _ h.isSome_entry p

/-- The instruction that is executed at a place. -/
theorem getElem?_toList_eq_some (h : b.WellFormed) {p id : Nat} {i : Instr} :
    b.toList[p]? = some (id, i) ↔ b.order[p]? = some id ∧ b.store[id]? = some i := by
  rw [h.getElem?_toList]
  constructor
  · intro he
    obtain ⟨id', hid, he⟩ := Option.bind_eq_some_iff.1 he
    obtain ⟨i', hi, he⟩ := Option.map_eq_some_iff.1 he
    obtain ⟨rfl, rfl⟩ := Prod.mk.inj he
    exact ⟨hid, hi⟩
  · rintro ⟨hid, hi⟩
    rw [hid, Option.bind_some, hi]
    rfl

/-- The entries of a well-formed body are the instructions of its store. -/
theorem mem_toList (h : b.WellFormed) {id : Nat} {i : Instr} :
    (id, i) ∈ b.toList ↔ b.store[id]? = some i := by
  constructor
  · intro hm
    obtain ⟨p, hp⟩ := List.mem_iff_getElem?.1 hm
    exact (h.getElem?_toList_eq_some.1 hp).2
  · intro hi
    obtain ⟨p, hp⟩ := List.mem_iff_getElem?.1 ((h.mem_order id).2 (lt_size_of_getElem? hi))
    exact List.mem_of_getElem? (h.getElem?_toList_eq_some.2 ⟨hp, hi⟩)

/-- There is one entry per position. -/
theorem length_toList (h : b.WellFormed) : b.toList.length = b.size := by
  apply Nat.le_antisymm
  · exact List.length_filterMap_le _ _
  · by_contra hlt
    have hnone := h.getElem?_toList b.toList.length
    have hlt' : b.toList.length < b.order.length := not_le.1 hlt
    rw [List.getElem?_eq_none (le_refl _), List.getElem?_eq_getElem hlt', Option.bind_some] at hnone
    have hsome := h.isSome_entry _ (List.getElem_mem hlt')
    rw [← hnone] at hsome
    exact Bool.noConfusion hsome

/-- The order is a permutation of the numbers of the store. -/
theorem order_perm (h : b.WellFormed) : b.order.Perm (List.range b.store.size) :=
  (List.perm_ext_iff_of_nodup h.nodup List.nodup_range).2 fun id => by
    rw [h.mem_order, List.mem_range]

/-- There are as many positions as instructions. -/
theorem size_eq (h : b.WellFormed) : b.size = b.store.size := by
  rw [size, h.order_perm.length_eq, List.length_range]

/-- The order lists the numbers of the entries. -/
theorem map_fst_toList (h : b.WellFormed) : b.toList.map (·.1) = b.order := by
  refine List.ext_getElem? fun p => ?_
  rw [List.getElem?_map, h.getElem?_toList]
  cases hp : b.order[p]? with
  | none => rfl
  | some id =>
    obtain ⟨i, hi⟩ := exists_instr ((h.mem_order id).1 (List.mem_of_getElem? hp))
    rw [Option.bind_some, hi]
    rfl

/-- Every instruction has its entry at one position. -/
theorem exists_position (h : b.WellFormed) {id : Nat} {i : Instr} (hi : b.store[id]? = some i) :
    ∃ p : Nat, b.toList[p]? = some (id, i) :=
  List.mem_iff_getElem?.1 (h.mem_toList.2 hi)

end WellFormed

/-- The bodies that can be built: instructions are added, at the end or in the middle, and
changed. -/
inductive Built : Body → Prop
  | empty : Built {}
  | push {b : Body} (h : Built b) (i : Instr) : Built (b.push i).2
  | insert {b c : Body} {p id : Nat} {i : Instr} (h : Built b) (hc : b.insert p i = .ok (id, c)) :
      Built c
  | modify {b c : Body} {id : Nat} {f : Instr → Instr} (h : Built b) (hc : b.modify id f = .ok c) :
      Built c

/-- A new instruction may stand anywhere in the order. -/
theorem WellFormed.add {b : Body} (hb : b.WellFormed) (i : Instr) {order : List Nat}
    (horder : order.Perm (b.store.size :: b.order)) : WellFormed ⟨b.store.push i, order⟩ where
  nodup := by
    rw [horder.nodup_iff, List.nodup_cons, hb.mem_order]
    exact ⟨lt_irrefl _, hb.nodup⟩
  mem_order id := by
    show id ∈ order ↔ id < (b.store.push i).size
    rw [horder.mem_iff, List.mem_cons, hb.mem_order, Array.size_push]
    omega

/-- Adding an instruction at the end keeps a body well formed. -/
theorem WellFormed.push {b : Body} (hb : b.WellFormed) (i : Instr) : (b.push i).2.WellFormed :=
  hb.add i (List.perm_append_singleton _ _)

/-- What inserting an instruction does: it gets the next free number. -/
theorem order_insert {b c : Body} {p id : Nat} {i : Instr} (h : b.insert p i = .ok (id, c)) :
    p ≤ b.size ∧ c = ⟨b.store.push i, b.order.insertIdx p b.store.size⟩ := by
  unfold Body.insert at h
  split at h
  · rename_i hle
    cases h
    exact ⟨hle, rfl⟩
  · cases h

/-- Inserting an instruction keeps a body well formed. -/
theorem WellFormed.insert {b c : Body} (hb : b.WellFormed) {p id : Nat} {i : Instr}
    (h : b.insert p i = .ok (id, c)) : c.WellFormed := by
  obtain ⟨hle, rfl⟩ := order_insert h
  exact hb.add i (List.perm_insertIdx _ _ hle)

/-- Changing an instruction keeps the order and the number of instructions. -/
theorem order_modify {b c : Body} {id : Nat} {f : Instr → Instr} (h : b.modify id f = .ok c) :
    c.order = b.order ∧ c.store.size = b.store.size := by
  unfold Body.modify at h
  split at h
  · cases h
    exact ⟨rfl, Array.size_modify⟩
  · cases h

/-- Changing an instruction keeps a body well formed. -/
theorem WellFormed.modify {b c : Body} (hb : b.WellFormed) {id : Nat} {f : Instr → Instr}
    (h : b.modify id f = .ok c) : c.WellFormed := by
  obtain ⟨horder, hsize⟩ := order_modify h
  refine ⟨horder ▸ hb.nodup, fun id' => ?_⟩
  rw [horder, hsize, hb.mem_order]

/-- **Every body that can be built is well formed.** -/
theorem Built.wellFormed {b : Body} (h : b.Built) : b.WellFormed := by
  induction h with
  | empty => exact ⟨List.nodup_nil, fun id => by simp⟩
  | push _ i ih => exact ih.push i
  | insert _ hc ih => exact ih.insert hc
  | modify _ hc ih => exact ih.modify hc

theorem built_ofOps (ops : List Op) : (ofOps ops).Built := by
  have hfold : ∀ b : Body, b.Built → (ops.foldl (fun b op => (b.push { op }).2) b).Built := by
    induction ops with
    | nil => exact fun _ hb => hb
    | cons op ops ih => exact fun b hb => ih _ (hb.push { op })
  exact hfold {} .empty

/-- The operation at a position. -/
theorem getElem?_ops (b : Body) (p : Nat) : b.ops[p]? = b.toList[p]?.map (·.2.op) := by
  rw [ops, List.getElem?_map]

/-- Every instruction is executed once. -/
theorem length_ops {b : Body} (h : b.WellFormed) : b.ops.length = b.size := by
  rw [ops, List.length_map, h.length_toList]

theorem forall_mem_store {b : Body} {P : Instr → Prop} :
    (∀ i ∈ b.store.toList, P i) ↔ ∀ (id : Nat) (i : Instr), b.store[id]? = some i → P i := by
  constructor
  · intro h id i hi
    exact h i (List.mem_of_getElem? (by rw [Array.getElem?_toList]; exact hi))
  · intro h i hi
    obtain ⟨id, hid⟩ := List.getElem?_of_mem hi
    exact h id i (by rw [← Array.getElem?_toList]; exact hid)

instance (b : Body) : Decidable b.WellFormed :=
  decidable_of_iff (b.order.Nodup ∧ (∀ id ∈ b.order, id < b.store.size) ∧
      ∀ id < b.store.size, id ∈ b.order)
    ⟨fun h => ⟨h.1, fun id => ⟨h.2.1 id, h.2.2 id⟩⟩,
      fun h => ⟨h.nodup, fun id => (h.mem_order id).1, fun id => (h.mem_order id).2⟩⟩

instance (b : Body) : Decidable b.Closed :=
  decidable_of_iff (b.WellFormed ∧ (∀ i ∈ b.store.toList, ∀ o ∈ i.op.operands, o < b.store.size) ∧
      ∀ i ∈ b.store.toList, ∀ l ∈ i.op.target, ∃ j ∈ b.store.toList, j.op.labelHere = some l) <| by
    have hlabel : ∀ l, (∃ j ∈ b.store.toList, j.op.labelHere = some l) ↔
        ∃ id' : Nat, ∃ i' : Instr, b.store[id']? = some i' ∧ i'.op.labelHere = some l := by
      intro l
      simp only [List.mem_iff_getElem?, Array.getElem?_toList]
      tauto
    simp only [hlabel, forall_mem_store, Option.mem_def]
    exact ⟨fun h => ⟨h.1, h.2.1, h.2.2⟩, fun h => ⟨h.toWellFormed, h.operands, h.targets⟩⟩

/-! ## Bodies with the same operations -/

/-- Two bodies with the same operations under the same numbers in the same order; the two may
differ in what is known of the storage of their instructions. -/
structure SameOps (b c : Body) : Prop where
  order : b.order = c.order
  op : ∀ id : Nat, b.store[id]?.map Instr.op = c.store[id]?.map Instr.op

namespace SameOps

variable {b c : Body}

theorem symm (h : b.SameOps c) : c.SameOps b := ⟨h.order.symm, fun id => (h.op id).symm⟩

/-- The instruction with the same operation. -/
theorem getElem?_eq_some (h : b.SameOps c) {id : Nat} {i : Instr} (hi : b.store[id]? = some i) :
    ∃ j, c.store[id]? = some j ∧ j.op = i.op := by
  have hop := h.op id
  rw [hi, Option.map_some] at hop
  obtain ⟨j, hj, hji⟩ := Option.map_eq_some_iff.1 hop.symm
  exact ⟨j, hj, hji⟩

/-- Bodies with the same operations have as many instructions. -/
theorem size_store (h : b.SameOps c) : b.store.size = c.store.size := by
  apply le_antisymm
  · by_contra hlt
    obtain ⟨i, hi⟩ := exists_instr (not_le.1 hlt)
    obtain ⟨j, hj, -⟩ := h.getElem?_eq_some hi
    exact lt_irrefl _ (lt_size_of_getElem? hj)
  · by_contra hlt
    obtain ⟨i, hi⟩ := exists_instr (not_le.1 hlt)
    obtain ⟨j, hj, -⟩ := h.symm.getElem?_eq_some hi
    exact lt_irrefl _ (lt_size_of_getElem? hj)

/-- The numbered operations are the same. -/
theorem toList_map (h : b.SameOps c) :
    b.toList.map (fun e => (e.1, e.2.op)) = c.toList.map fun e => (e.1, e.2.op) := by
  rw [toList, toList, h.order, List.map_filterMap, List.map_filterMap]
  apply List.filterMap_congr
  intro id _
  have hop := h.op id
  cases hb : b.store[id]? with
  | none =>
    rw [hb] at hop
    rw [Option.map_eq_none_iff.1 hop.symm]
  | some i =>
    obtain ⟨j, hj, hji⟩ := h.getElem?_eq_some hb
    rw [hj]
    simp [hji]

theorem ops_eq (h : b.SameOps c) : b.ops = c.ops := by
  have hmap := congrArg (List.map Prod.snd) h.toList_map
  simpa only [ops, List.map_map, Function.comp_def] using hmap

/-- Whether a body is well formed depends on its order only. -/
theorem wellFormed (h : b.SameOps c) (hb : b.WellFormed) : c.WellFormed where
  nodup := h.order ▸ hb.nodup
  mem_order id := by rw [← h.order, ← h.size_store, hb.mem_order]

/-- Whether a body is closed depends on its operations only. -/
theorem closed (h : b.SameOps c) (hb : b.Closed) : c.Closed where
  toWellFormed := h.wellFormed hb.toWellFormed
  operands id i hi o ho := by
    obtain ⟨j, hj, hji⟩ := h.symm.getElem?_eq_some hi
    rw [← h.size_store]
    exact hb.operands id j hj o (hji ▸ ho)
  targets id i hi l hl := by
    obtain ⟨j, hj, hji⟩ := h.symm.getElem?_eq_some hi
    obtain ⟨id', j', hj', hl'⟩ := hb.targets id j hj l (hji ▸ hl)
    obtain ⟨i', hi', hij⟩ := h.getElem?_eq_some hj'
    exact ⟨id', i', hi', hij ▸ hl'⟩

end SameOps

end Body

end Backend
