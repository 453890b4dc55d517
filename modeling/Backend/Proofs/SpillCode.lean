/-
# The shape of a body with spill code

Spilling writes each instruction of a body together with its loads and its store
(`SlotMap.around`), one after the other and with fresh numbers (`SlotMap.layout`).  What follows
about positions is collected in `Body.Expands`: the later modules see a spilled body only through
it.
-/
import Mathlib
import Backend.Spill
import Backend.Proofs.Classes

namespace Backend

/-! ## Exchanging operands keeps the kind of an operation -/

namespace Op

@[simp] theorem definesValue_mapOperands (f : Nat → Nat) (op : Op) :
    (op.mapOperands f).definesValue = op.definesValue := by cases op <;> rfl

@[simp] theorem isUnify_mapOperands (f : Nat → Nat) (op : Op) :
    (op.mapOperands f).isUnify = op.isUnify := by cases op <;> rfl

@[simp] theorem isGoto_mapOperands (f : Nat → Nat) (op : Op) :
    (op.mapOperands f).isGoto = op.isGoto := by cases op <;> rfl

@[simp] theorem accessesSlot_mapOperands (f : Nat → Nat) (op : Op) :
    (op.mapOperands f).accessesSlot = op.accessesSlot := by cases op <;> rfl

@[simp] theorem target_mapOperands (f : Nat → Nat) (op : Op) :
    (op.mapOperands f).target = op.target := by cases op <;> rfl

@[simp] theorem labelHere_mapOperands (f : Nat → Nat) (op : Op) :
    (op.mapOperands f).labelHere = op.labelHere := by cases op <;> rfl

/-- Overwriting a list by itself changes nothing. -/
theorem overwrite_self {α : Type} (xs : List α) : overwrite xs xs = xs := by
  have h := overwrite_map id xs
  rwa [List.map_id] at h

/-- Exchanging operands by themselves changes nothing. -/
theorem mapOperands_eq_self {f : Nat → Nat} {op : Op} (h : ∀ o ∈ op.operands, f o = o) :
    op.mapOperands f = op := by
  have hmap : op.operands.map f = op.operands := by
    conv_rhs => rw [← List.map_id op.operands]
    exact List.map_congr_left h
  have hself : op.withOperands op.operands = op := by
    cases op <;> simp [withOperands, operands, overwrite_self]
  rw [mapOperands, hmap, hself]

end Op

/-! ## One instruction with its spill code -/

/-- A place in a list is before, at or behind a marked entry. -/
theorem getElem?_append_cons {α : Type} {xs ys : List α} {y e : α} {n : Nat} :
    (xs ++ y :: ys)[n]? = some e ↔ xs[n]? = some e ∨ (n = xs.length ∧ e = y) ∨
      ∃ m, n = xs.length + 1 + m ∧ ys[m]? = some e := by
  have hxs : xs[n]? = some e → n < xs.length := fun h => (List.getElem?_eq_some_iff.1 h).1
  rcases Nat.lt_trichotomy n xs.length with hlt | rfl | hgt
  · rw [List.getElem?_append_left hlt]
    refine ⟨Or.inl, ?_⟩
    rintro (h | ⟨rfl, -⟩ | ⟨m, rfl, -⟩)
    · exact h
    · exact absurd hlt (lt_irrefl _)
    · omega
  · rw [List.getElem?_append_right (le_refl _), Nat.sub_self, List.getElem?_cons_zero]
    constructor
    · intro h
      exact Or.inr (Or.inl ⟨rfl, (Option.some.inj h).symm⟩)
    · rintro (h | ⟨-, rfl⟩ | ⟨m, hm, -⟩)
      · exact absurd (hxs h) (lt_irrefl _)
      · rfl
      · omega
  · rw [List.getElem?_append_right (le_of_lt hgt),
      show n - xs.length = n - xs.length - 1 + 1 by omega, List.getElem?_cons_succ]
    constructor
    · intro h
      exact Or.inr (Or.inr ⟨_, by omega, h⟩)
    · rintro (h | ⟨rfl, -⟩ | ⟨m, rfl, hm⟩)
      · exact absurd (hxs h) (by omega)
      · exact absurd hgt (lt_irrefl _)
      · rwa [show xs.length + 1 + m - xs.length - 1 = m by omega]

namespace SlotMap

/-- An instruction as it stands in the body with spill code, when its loads are numbered from
`first` on. -/
def moved (slots : SlotMap) (first id : Nat) (i : Instr) : Instr :=
  { i with op := i.op.mapOperands (slots.redirect (slots.toLoad id i.op) first) }

/-- An instruction between its loads and its store, which are numbered from `first` on. -/
def around (slots : SlotMap) (first id : Nat) (i : Instr) : List (Nat × Instr) :=
  (slots.toLoad id i.op).mapIdx (fun n s => (first + n, { op := .load s, span := i.span })) ++
    (id, slots.moved first id i) ::
      (slots.toStore id i.op).toList.map fun s =>
        (first + (slots.toLoad id i.op).length, { op := .store id s, span := i.span })

/-- The number of instructions added around an instruction. -/
def extra (slots : SlotMap) (id : Nat) (op : Op) : Nat :=
  (slots.toLoad id op).length + (slots.toStore id op).toList.length

/-- Numbered instructions with their spill code, which is numbered from `first` on. -/
def layout (slots : SlotMap) : Nat → List (Nat × Instr) → List (Nat × Instr)
  | _, [] => []
  | first, e :: es =>
    slots.around first e.1 e.2 ++ slots.layout (first + slots.extra e.1 e.2.op) es

/-- How much is written for an instruction. -/
theorem length_around (slots : SlotMap) (first id : Nat) (i : Instr) :
    (slots.around first id i).length = slots.extra id i.op + 1 := by
  rw [around, extra, List.length_append, List.length_cons, List.length_mapIdx, List.length_map]
  omega

/-- What stands around an instruction: first the loads, then the instruction, then the store. -/
theorem getElem?_around {slots : SlotMap} {first id n : Nat} {i : Instr} {e : Nat × Instr} :
    (slots.around first id i)[n]? = some e ↔
      (∃ s, (slots.toLoad id i.op)[n]? = some s ∧
        e = (first + n, { op := .load s, span := i.span })) ∨
      (n = (slots.toLoad id i.op).length ∧ e = (id, slots.moved first id i)) ∨
      ∃ s, slots.toStore id i.op = some s ∧ n = (slots.toLoad id i.op).length + 1 ∧
        e = (first + (slots.toLoad id i.op).length, { op := .store id s, span := i.span }) := by
  rw [around, getElem?_append_cons, List.getElem?_mapIdx, List.length_mapIdx,
    Option.map_eq_some_iff]
  refine or_congr ?_ (or_congr Iff.rfl ?_)
  · exact exists_congr fun s => and_congr_right fun _ => eq_comm
  · cases slots.toStore id i.op with
    | none => simp
    | some s =>
      constructor
      · rintro ⟨m, rfl, hm⟩
        cases m with
        | zero => exact ⟨s, rfl, rfl, (Option.some.inj hm).symm⟩
        | succ m => exact absurd hm (by simp)
      · rintro ⟨s', hs', rfl, rfl⟩
        obtain rfl : s = s' := Option.some.inj hs'
        exact ⟨0, rfl, rfl⟩

/-! ## Writing one instruction with its spill code -/

/-- A body under construction: `rest` still has to be written, as it stands in `m`. -/
structure Placing (m : Body) (rest : List Nat) (c : Body) : Prop where
  nodup : (c.order ++ rest).Nodup
  mem_iff : ∀ id, id < c.store.size ↔ id ∈ c.order ++ rest
  same : ∀ id ∈ rest, c.store[id]? = m.store[id]?

section Place

variable {m c : Body} {rest : List Nat} {slots : SlotMap} {id : Nat} {i : Instr}

/-- Writing an instruction exchanges it and adds its spill code at the end of the store. -/
theorem toList_store_place (hi : c.store[id]? = some i) :
    (slots.place c id).store.toList = c.store.toList.set id (slots.moved c.store.size id i)
      ++ ((slots.toLoad id i.op).map (fun s => ({ op := .load s, span := i.span } : Instr))
        ++ (slots.toStore id i.op).toList.map
          fun s => ({ op := .store id s, span := i.span } : Instr)) := by
  rw [place, hi]
  simp [moved]

/-- The order in which an instruction and its spill code are executed. -/
theorem order_place (hi : c.store[id]? = some i) :
    (slots.place c id).order = c.order
      ++ (List.range' c.store.size (slots.toLoad id i.op).length
        ++ id :: (slots.toStore id i.op).toList.map
          fun _ => c.store.size + (slots.toLoad id i.op).length) := by
  rw [place, hi]
  simp

/-- How many instructions there are after placing one. -/
theorem size_place (hi : c.store[id]? = some i) :
    (slots.place c id).store.size = c.store.size + slots.extra id i.op := by
  rw [← Array.length_toList, toList_store_place hi, extra]
  simp

/-- An instruction that was there before stays, except for the one that is written. -/
theorem getElem?_place_old (hi : c.store[id]? = some i) {x : Nat} (hx : x < c.store.size) :
    (slots.place c id).store[x]? =
      if x = id then some (slots.moved c.store.size id i) else c.store[x]? := by
  rw [← Array.getElem?_toList, toList_store_place hi, List.getElem?_append_left (by simpa using hx),
    List.getElem?_set]
  by_cases h : x = id
  · subst h
    rw [if_pos rfl, if_pos rfl, if_pos (by simpa using hx)]
  · rw [if_neg (Ne.symm h), if_neg h, Array.getElem?_toList]

/-- The loads in front of an instruction. -/
theorem getElem?_place_load (hi : c.store[id]? = some i) {n s : Nat}
    (hs : (slots.toLoad id i.op)[n]? = some s) :
    (slots.place c id).store[c.store.size + n]? = some { op := .load s, span := i.span } := by
  rw [← Array.getElem?_toList, toList_store_place hi, List.getElem?_append_right (by simp),
    List.getElem?_append_left (by simpa using (List.getElem?_eq_some_iff.1 hs).1),
    List.length_set, Array.length_toList, Nat.add_sub_cancel_left, List.getElem?_map, hs]
  rfl

/-- The store behind an instruction. -/
theorem getElem?_place_store (hi : c.store[id]? = some i) {s : Nat}
    (hs : slots.toStore id i.op = some s) :
    (slots.place c id).store[c.store.size + (slots.toLoad id i.op).length]? =
      some { op := .store id s, span := i.span } := by
  have hlen : c.store.toList.length = c.store.size := Array.length_toList
  rw [← Array.getElem?_toList, toList_store_place hi, List.getElem?_append_right (by simp),
    List.length_set, hlen, Nat.add_sub_cancel_left, List.getElem?_append_right (by simp),
    List.length_map, Nat.sub_self, hs]
  rfl

/-- **Step lemma.**  Writing an instruction appends it with its spill code. -/
theorem Placing.toList_place (h : Placing m (id :: rest) c) (hi : m.store[id]? = some i) :
    (slots.place c id).toList = c.toList ++ slots.around c.store.size id i := by
  have hci : c.store[id]? = some i := by rw [h.same id List.mem_cons_self, hi]
  have hid : id < c.store.size := Body.lt_size_of_getElem? hci
  rw [Body.toList, order_place hci, List.filterMap_append, Body.toList, around,
    List.filterMap_append, List.filterMap_cons]
  congr 1
  · -- what has been written before does not change
    apply List.filterMap_congr
    intro x hx
    have hne : x ≠ id := by
      rintro rfl
      exact (List.nodup_append.1 h.nodup).2.2 x hx x List.mem_cons_self rfl
    rw [getElem?_place_old hci ((h.mem_iff x).2 (List.mem_append_left _ hx)), if_neg hne]
  · rw [getElem?_place_old hci hid, if_pos rfl]
    congr 1
    · -- the fresh numbers hold the loads, in their order
      have hload : ∀ x ∈ List.range' c.store.size (slots.toLoad id i.op).length,
          ((slots.place c id).store[x]?.map fun j => (x, j)).isSome := by
        intro x hx
        obtain ⟨n, hn, rfl⟩ := List.mem_range'.1 hx
        rw [Nat.one_mul, getElem?_place_load hci (List.getElem?_eq_getElem hn)]
        rfl
      apply List.ext_getElem?
      intro n
      rw [getElem?_filterMap_of_isSome _ _ hload, List.getElem?_mapIdx]
      by_cases hn : n < (slots.toLoad id i.op).length
      · rw [List.getElem?_range' hn, Option.bind_some, Nat.one_mul,
          getElem?_place_load hci (List.getElem?_eq_getElem hn), List.getElem?_eq_getElem hn]
        rfl
      · rw [List.getElem?_eq_none (by rw [List.length_range']; omega),
          List.getElem?_eq_none (by omega)]
        rfl
    · cases hs : slots.toStore id i.op with
      | none => rfl
      | some s =>
        show (id, _) :: List.filterMap _ [_] = _
        rw [List.filterMap_cons, getElem?_place_store hci hs]
        rfl

/-- Up to order, writing an instruction adds the fresh numbers to the order. -/
theorem perm_order_place (slots : SlotMap) (rest : List Nat) (hi : c.store[id]? = some i) :
    ((slots.place c id).order ++ rest).Perm
      (c.order ++ id :: rest ++ List.range' c.store.size (slots.extra id i.op)) := by
  have hsaved : ((slots.toStore id i.op).toList.map
      fun _ => c.store.size + (slots.toLoad id i.op).length) =
      List.range' (c.store.size + (slots.toLoad id i.op).length)
        (slots.toStore id i.op).toList.length := by
    cases slots.toStore id i.op <;> rfl
  have hfresh : List.range' c.store.size (slots.extra id i.op) =
      List.range' c.store.size (slots.toLoad id i.op).length ++
        List.range' (c.store.size + (slots.toLoad id i.op).length)
          (slots.toStore id i.op).toList.length := by
    rw [extra, List.range'_append_1]
  rw [order_place hi, hsaved, hfresh]
  simp only [List.append_assoc, List.cons_append]
  refine List.Perm.append_left c.order ?_
  refine List.perm_middle.trans (List.Perm.cons id ?_)
  rw [← List.append_assoc]
  exact List.perm_append_comm

/-- **Step lemma.**  Writing an instruction leaves the others to be written. -/
theorem Placing.place (h : Placing m (id :: rest) c) (hi : m.store[id]? = some i) :
    Placing m rest (slots.place c id) := by
  have hci : c.store[id]? = some i := by rw [h.same id List.mem_cons_self, hi]
  have hperm := perm_order_place slots rest hci
  have hfresh : ∀ x ∈ List.range' c.store.size (slots.extra id i.op), c.store.size ≤ x := by
    intro x hx
    obtain ⟨n, -, rfl⟩ := List.mem_range'.1 hx
    omega
  refine ⟨?_, fun x => ?_, fun x hx => ?_⟩
  · rw [hperm.nodup_iff, List.nodup_append]
    refine ⟨h.nodup, List.nodup_range', ?_⟩
    rintro x hx y hy rfl
    have hlt := (h.mem_iff x).2 hx
    have hle := hfresh x hy
    omega
  · rw [hperm.mem_iff, List.mem_append, ← h.mem_iff x, size_place hci, List.mem_range'_1]
    omega
  · have hne : x ≠ id := by
      rintro rfl
      exact (List.nodup_cons.1 (List.nodup_append.1 h.nodup).2.1).1 hx
    have hlt : x < c.store.size :=
      (h.mem_iff x).2 (List.mem_append_right _ (List.mem_cons_of_mem id hx))
    rw [getElem?_place_old hci hlt, if_neg hne, h.same x (List.mem_cons_of_mem id hx)]

/-- **Run lemma.**  Writing all instructions gives a well-formed body that lists them with their
spill code. -/
theorem Placing.foldl_place (h : Placing m rest c) (slots : SlotMap)
    (hm : ∀ id ∈ rest, id < m.store.size) :
    (rest.foldl slots.place c).WellFormed ∧ c.store.size ≤ (rest.foldl slots.place c).store.size ∧
      (rest.foldl slots.place c).toList = c.toList ++
        slots.layout c.store.size (rest.filterMap fun id => m.store[id]?.map fun i => (id, i)) := by
  induction rest generalizing c with
  | nil =>
    have hnodup := h.nodup
    have hmem := h.mem_iff
    rw [List.append_nil] at hnodup hmem
    exact ⟨⟨hnodup, fun id => (hmem id).symm⟩, le_refl _, (List.append_nil _).symm⟩
  | cons id rest ih =>
    obtain ⟨i, hi⟩ := Body.exists_instr (hm id List.mem_cons_self)
    have hci : c.store[id]? = some i := by rw [h.same id List.mem_cons_self, hi]
    obtain ⟨hwf, hle, hlist⟩ :=
      ih (h.place hi) fun x hx => hm x (List.mem_cons_of_mem id hx)
    rw [size_place hci] at hle hlist
    refine ⟨hwf, by rw [List.foldl_cons]; omega, ?_⟩
    rw [List.foldl_cons, hlist, h.toList_place hi, List.append_assoc, List.filterMap_cons, hi]
    rfl

end Place

/-! ## Where instructions end up -/

/-- Where the instruction at a position and its spill code begin. -/
def start (slots : SlotMap) (es : List (Nat × Instr)) (p : Nat) : Nat :=
  ((es.take p).map fun e => slots.extra e.1 e.2.op + 1).sum

/-- The first number of the spill code for a position. -/
def fresh (slots : SlotMap) (first : Nat) (es : List (Nat × Instr)) (p : Nat) : Nat :=
  first + ((es.take p).map fun e => slots.extra e.1 e.2.op).sum

variable {slots : SlotMap}

/-- The spill code of an instruction ends where that of the next one begins. -/
theorem start_succ {es : List (Nat × Instr)} {p : Nat} {e : Nat × Instr} (he : es[p]? = some e) :
    slots.start es (p + 1) = slots.start es p + (slots.extra e.1 e.2.op + 1) := by
  rw [start, start, List.take_add_one, he, List.map_append, List.sum_append]
  simp

/-- The entries of a layout are those around the instructions laid out. -/
theorem getElem?_layout {first q : Nat} {es : List (Nat × Instr)} {e : Nat × Instr} :
    (slots.layout first es)[q]? = some e ↔ ∃ p n d, es[p]? = some d ∧
      q = slots.start es p + n ∧ (slots.around (slots.fresh first es p) d.1 d.2)[n]? = some e := by
  induction es generalizing first q with
  | nil => simp [layout]
  | cons d es ih =>
    have hstart : ∀ p, slots.start (d :: es) (p + 1) =
        slots.extra d.1 d.2.op + 1 + slots.start es p := by
      intro p
      rw [start, List.take_succ_cons, List.map_cons, List.sum_cons, start]
    have hfresh : ∀ p, slots.fresh first (d :: es) (p + 1) =
        slots.fresh (first + slots.extra d.1 d.2.op) es p := by
      intro p
      rw [fresh, List.take_succ_cons, List.map_cons, List.sum_cons, fresh, Nat.add_assoc]
    have hlen := slots.length_around first d.1 d.2
    rw [layout]
    constructor
    · intro h
      by_cases hq : q < (slots.around first d.1 d.2).length
      · rw [List.getElem?_append_left hq] at h
        exact ⟨0, q, d, rfl, (Nat.zero_add q).symm, h⟩
      · rw [List.getElem?_append_right (not_lt.1 hq)] at h
        obtain ⟨p, n, d', hd', hqn, he⟩ := ih.1 h
        refine ⟨p + 1, n, d', hd', ?_, by rw [hfresh]; exact he⟩
        rw [hstart]
        omega
    · rintro ⟨p, n, d', hd', rfl, he⟩
      cases p with
      | zero =>
        obtain rfl : d = d' := Option.some.inj hd'
        have hn : n < (slots.around first d.1 d.2).length := (List.getElem?_eq_some_iff.1 he).1
        rw [show slots.start (d :: es) 0 + n = n from Nat.zero_add n,
          List.getElem?_append_left hn]
        exact he
      | succ p =>
        rw [hfresh] at he
        rw [hstart, List.getElem?_append_right (by omega)]
        exact ih.2 ⟨p, n, d', hd', by omega, he⟩

/-- The length of the code with spill code. -/
theorem length_layout (first : Nat) (es : List (Nat × Instr)) :
    (slots.layout first es).length = slots.start es es.length := by
  induction es generalizing first with
  | nil => rfl
  | cons e es ih =>
    rw [layout, List.length_append, length_around, ih, start, start, List.take_length,
      List.take_length, List.map_cons, List.sum_cons]

/-- Note the slot of an instruction that moves to the stack. -/
def mark (slots : SlotMap) (id : Nat) (i : Instr) : Instr :=
  match slots.slotOf id with
  | some s => { i with slot := some s }
  | none => i

/-- Noting a slot leaves all else about an instruction as it is. -/
theorem mark_eq (slots : SlotMap) (id : Nat) (i : Instr) :
    slots.mark id i = { i with slot := (slots.slotOf id).or i.slot } := by
  rw [mark]
  cases slots.slotOf id <;> rfl

@[simp] theorem op_mark (slots : SlotMap) (id : Nat) (i : Instr) : (slots.mark id i).op = i.op := by
  rw [mark_eq]

/-- An instruction that has been spilled remembers its slot. -/
theorem slot_mark (slots : SlotMap) (id : Nat) (i : Instr) :
    (slots.mark id i).slot = (slots.slotOf id).or i.slot := by
  rw [mark_eq]

end SlotMap

/-! ## Expansions -/

namespace Body

/-- The body `c` lists the instructions of `b` with their spill code.  The instruction at position
`p` and its spill code begin at `start p`; the spill code is numbered from `fresh p` on. -/
structure Expands (b c : Body) (slots : SlotMap) (start fresh : Nat → Nat) : Prop where
  wellFormed : c.WellFormed
  size_le : b.store.size ≤ c.store.size
  start_zero : start 0 = 0
  start_succ : ∀ p id i, b.toList[p]? = some (id, i) →
    start (p + 1) = start p + (slots.extra id i.op + 1)
  size_eq : c.size = start b.size
  le_fresh : ∀ p, b.store.size ≤ fresh p
  getElem?_iff : ∀ q e, c.toList[q]? = some e ↔ ∃ p n id i, b.toList[p]? = some (id, i) ∧
    q = start p + n ∧ (slots.around (fresh p) id (slots.mark id i))[n]? = some e

/-- Marking keeps the instructions and their order. -/
theorem toList_markSlots (b : Body) (slots : SlotMap) :
    (b.markSlots slots).toList = b.toList.map fun e => (e.1, slots.mark e.1 e.2) := by
  rw [toList, toList, List.map_filterMap]
  apply List.filterMap_congr
  intro id _
  rw [markSlots, Array.getElem?_mapIdx]
  cases b.store[id]? <;> rfl

/-- Marking keeps the operations. -/
theorem sameOps_markSlots (b : Body) (slots : SlotMap) : b.SameOps (b.markSlots slots) where
  order := rfl
  op id := by
    rw [markSlots, Array.getElem?_mapIdx, Option.map_map]
    cases b.store[id]? with
    | none => rfl
    | some i => exact congrArg some (slots.op_mark id i).symm

theorem size_store_markSlots (b : Body) (slots : SlotMap) :
    (b.markSlots slots).store.size = b.store.size := ((b.sameOps_markSlots slots).size_store).symm

/-- A body with spill code is well formed and lists the instructions with their spill code. -/
theorem WellFormed.layout_addSpillCode {b : Body} (hb : b.WellFormed) (slots : SlotMap) :
    (b.addSpillCode slots).WellFormed ∧ b.store.size ≤ (b.addSpillCode slots).store.size ∧
      (b.addSpillCode slots).toList = slots.layout b.store.size (b.markSlots slots).toList := by
  have hm := (b.sameOps_markSlots slots).wellFormed hb
  have hplacing : SlotMap.Placing (b.markSlots slots) b.order
      { (b.markSlots slots) with order := [] } :=
    ⟨hb.nodup, fun id => (hm.mem_order id).symm, fun id _ => rfl⟩
  rw [← size_store_markSlots b slots]
  exact hplacing.foldl_place slots fun id hid => (hm.mem_order id).1 hid

/-- **A body with spill code is an expansion.** -/
theorem WellFormed.exists_expands {b : Body} (hb : b.WellFormed) (slots : SlotMap) :
    ∃ start fresh, b.Expands (b.addSpillCode slots) slots start fresh := by
  obtain ⟨hwf, hle, hlist⟩ := hb.layout_addSpillCode slots
  refine ⟨slots.start (b.markSlots slots).toList,
    slots.fresh b.store.size (b.markSlots slots).toList, hwf, hle, rfl, ?_, ?_, ?_, ?_⟩
  · intro p id i hp
    have hp' : (b.markSlots slots).toList[p]? = some (id, slots.mark id i) := by
      rw [toList_markSlots, List.getElem?_map, hp]
      rfl
    rw [SlotMap.start_succ hp', SlotMap.op_mark]
  · rw [← hwf.length_toList, hlist, SlotMap.length_layout,
      ((b.sameOps_markSlots slots).wellFormed hb).length_toList]
    rfl
  · intro p
    exact Nat.le_add_right _ _
  · -- marking slots changes no operation, so the layout may be read off the old body
    intro q e
    rw [hlist, SlotMap.getElem?_layout]
    constructor
    · rintro ⟨p, n, d, hd, hq, he⟩
      have hd' := hd
      rw [toList_markSlots, List.getElem?_map, Option.map_eq_some_iff] at hd'
      obtain ⟨⟨id, i⟩, hi, rfl⟩ := hd'
      exact ⟨p, n, id, i, hi, hq, he⟩
    · rintro ⟨p, n, id, i, hi, hq, he⟩
      refine ⟨p, n, (id, slots.mark id i), ?_, hq, he⟩
      rw [toList_markSlots, List.getElem?_map, hi]
      rfl

namespace Expands

variable {b c : Body} {slots : SlotMap} {start fresh : Nat → Nat}

/-- An instruction as it stands in the expansion. -/
def written (slots : SlotMap) (first id : Nat) (i : Instr) : Instr :=
  slots.moved first id (slots.mark id i)

/-- An instruction reads what has been loaded for it. -/
@[simp] theorem op_written (first id : Nat) (i : Instr) : (written slots first id i).op =
    i.op.mapOperands (slots.redirect (slots.toLoad id i.op) first) := by
  rw [written, SlotMap.moved, SlotMap.op_mark]

theorem slot_written (first id : Nat) (i : Instr) :
    (written slots first id i).slot = (slots.slotOf id).or i.slot := slots.slot_mark id i

/-- Pins are kept. -/
theorem pin_written (first id : Nat) (i : Instr) : (written slots first id i).pin = i.pin := by
  show (slots.mark id i).pin = i.pin
  rw [SlotMap.mark_eq]

section Positions

variable (hx : b.Expands c slots start fresh) {p id : Nat} {i : Instr}
  (hp : b.toList[p]? = some (id, i))

include hx

/-- What stands at a position of the expansion: a load, an instruction of the body, or a store. -/
theorem cases_getElem? {q : Nat} {e : Nat × Instr} (hq : c.toList[q]? = some e) :
    ∃ p id i, b.toList[p]? = some (id, i) ∧
      ((∃ n s, q = start p + n ∧ (slots.toLoad id i.op)[n]? = some s ∧
          e = (fresh p + n, { op := .load s, span := (slots.mark id i).span })) ∨
        (q = start p + (slots.toLoad id i.op).length ∧ e = (id, written slots (fresh p) id i)) ∨
        ∃ s, slots.toStore id i.op = some s ∧
          q = start p + ((slots.toLoad id i.op).length + 1) ∧
          e = (fresh p + (slots.toLoad id i.op).length,
            { op := .store id s, span := (slots.mark id i).span })) := by
  obtain ⟨p, n, id, i, hp, rfl, he⟩ := (hx.getElem?_iff q e).1 hq
  refine ⟨p, id, i, hp, ?_⟩
  have hcases := SlotMap.getElem?_around.1 he
  rw [SlotMap.op_mark] at hcases
  rcases hcases with ⟨s, hs, rfl⟩ | ⟨rfl, rfl⟩ | ⟨s, hs, rfl, rfl⟩
  · exact Or.inl ⟨n, s, rfl, hs, rfl⟩
  · exact Or.inr (Or.inl ⟨rfl, rfl⟩)
  · exact Or.inr (Or.inr ⟨s, hs, rfl, rfl⟩)

include hp

/-- Where the loads in front of an instruction end up. -/
theorem getElem?_load {n s : Nat} (hs : (slots.toLoad id i.op)[n]? = some s) :
    c.toList[start p + n]? =
      some (fresh p + n, { op := .load s, span := (slots.mark id i).span }) := by
  refine (hx.getElem?_iff _ _).2 ⟨p, n, id, i, hp, rfl, SlotMap.getElem?_around.2 (Or.inl ?_)⟩
  rw [SlotMap.op_mark]
  exact ⟨s, hs, rfl⟩

/-- Where an instruction ends up. -/
theorem getElem?_main : c.toList[start p + (slots.toLoad id i.op).length]? =
    some (id, written slots (fresh p) id i) := by
  refine (hx.getElem?_iff _ _).2 ⟨p, _, id, i, hp, rfl, SlotMap.getElem?_around.2 (Or.inr ?_)⟩
  rw [SlotMap.op_mark]
  exact Or.inl ⟨rfl, rfl⟩

/-- Where the store behind an instruction ends up. -/
theorem getElem?_store {s : Nat} (hs : slots.toStore id i.op = some s) :
    c.toList[start p + ((slots.toLoad id i.op).length + 1)]? =
      some (fresh p + (slots.toLoad id i.op).length,
        { op := .store id s, span := (slots.mark id i).span }) := by
  refine (hx.getElem?_iff _ _).2 ⟨p, _, id, i, hp, rfl, SlotMap.getElem?_around.2 (Or.inr ?_)⟩
  rw [SlotMap.op_mark]
  exact Or.inr ⟨s, hs, rfl, rfl⟩

end Positions

end Expands

end Body

end Backend
