/-
# Putting spill code into a body

Spill code can be put into a body in place: a loop (`Spilling.run`) goes through the very list that
it inserts into, and keeps count of where it is.  Each pass brings it one instruction nearer to the
end, whatever it inserts (`Spilling.Grows`), and what lies behind it is always the body that
`SlotMap.place` has made so far (`Spilling.between`).  So no instruction is left out or treated
twice, and the loop comes to the body of `Body.spill` (`Body.WellFormed.spillInPlace_eq`).
-/
import Mathlib
import Backend.Proofs.Expansion

namespace Backend

/-! ## Changing a list at a place -/

/-- Inserting between two parts of a list. -/
theorem insertIdx_append_length {α : Type} (xs ys : List α) (a : α) :
    (xs ++ ys).insertIdx xs.length a = xs ++ a :: ys := by
  induction xs with
  | nil => rfl
  | cons x xs ih =>
    rw [List.cons_append, List.length_cons, List.insertIdx_succ_cons, ih]
    rfl

theorem modify_append_of_getElem? {α : Type} {xs ys : List α} {n : Nat} {a : α} {f : α → α}
    (h : xs[n]? = some a) : (xs ++ ys).modify n f = xs.set n (f a) ++ ys := by
  induction xs generalizing n with
  | nil => cases h
  | cons x xs ih =>
    cases n with
    | zero =>
      obtain rfl : x = a := Option.some.inj h
      rfl
    | succ n =>
      rw [List.cons_append, List.modify_succ_cons, ih h]
      rfl

/-! ## Spill code in place -/

/-- Spill code on its way into a body: what stands in front of `position` is finished. -/
structure Spilling where
  body : Body
  position : Nat := 0
  /-- How many instructions have been put in. -/
  inserted : Nat := 0

namespace Spilling

/-- Put in an instruction at the position and step over it. -/
def put (r : Spilling) (i : Instr) : Except Fault (Nat × Spilling) := do
  let (id, body) ← r.body.insert r.position i
  return (id, { body, position := r.position + 1, inserted := r.inserted + 1 })

/-- Load the slot of an operand, if it has one and this has not been done for an operand before.
The list holds the slots that have been loaded and the numbers of the loads. -/
def loadFor (slots : SlotMap) (span : Option Span) (st : Spilling × List (Nat × Nat)) (o : Nat) :
    Except Fault (Spilling × List (Nat × Nat)) :=
  match slots.slotOf o with
  | none => .ok st
  | some q =>
    if st.2.any (·.1 == q) then .ok st
    else do
      let (id, r) ← st.1.put { op := .load q, span }
      return (r, st.2 ++ [(q, id)])

/-- Load what an instruction needs.  If it joins definitions that share a slot it needs nothing. -/
def loadAll (slots : SlotMap) (r : Spilling) (id : Nat) (i : Instr) :
    Except Fault (Spilling × List (Nat × Nat)) :=
  if i.op.isUnify && (slots.slotOf id).isSome then .ok (r, [])
  else i.op.operands.foldlM (loadFor slots i.span) (r, [])

/-- The operand that stands for another one when slots have been loaded. -/
def exchanged (slots : SlotMap) (loads : List (Nat × Nat)) (o : Nat) : Nat :=
  ((slots.slotOf o).bind fun q => loads.lookup q).getD o

/-- Let an instruction use what has been loaded for it. -/
def exchange (slots : SlotMap) (loads : List (Nat × Nat)) (b : Body) (id : Nat) (i : Instr) :
    Except Fault Body :=
  if loads.isEmpty then .ok b else b.setOp id (i.op.mapOperands (exchanged slots loads))

/-- Save the value of the instruction in front, if that has a slot to be written. -/
def save (slots : SlotMap) (r : Spilling) (id : Nat) (i : Instr) : Except Fault Spilling :=
  match slots.toStore id i.op with
  | none => .ok r
  | some q => do
    let (_, r) ← r.put { op := .store id q, span := i.span }
    return r

/-- Put the spill code of the instruction at the position around it, and step over all of it. -/
def step (slots : SlotMap) (r : Spilling) : Except Fault Spilling := do
  let id ← r.body.idAt r.position
  let i ← r.body.get id
  let (r, loads) ← loadAll slots r id i
  let body ← exchange slots loads r.body id i
  save slots { r with body, position := r.position + 1 } id i

/-! ### How far one pass gets -/

/-- As many instructions have been put in as the body has grown by, and apart from stepping over
these the position is `n` instructions further on. -/
def Grows (n : Nat) (r r' : Spilling) : Prop :=
  r'.body.size + r.inserted = r.body.size + r'.inserted ∧
    r'.position + r.inserted = r.position + r'.inserted + n

/-- Ways forward add up. -/
theorem Grows.trans {m n : Nat} {r₁ r₂ r₃ : Spilling} (h : Grows m r₁ r₂) (h' : Grows n r₂ r₃) :
    Grows (m + n) r₁ r₃ := by
  unfold Grows at *
  omega

theorem grows_refl (r : Spilling) : Grows 0 r r := ⟨rfl, rfl⟩

/-- Putting in an instruction steps over it and over nothing else. -/
theorem grows_put {r r' : Spilling} {i : Instr} {id : Nat} (h : r.put i = .ok (id, r')) :
    Grows 0 r r' := by
  obtain ⟨⟨id', body⟩, hins, h⟩ := bind_eq_ok_iff.1 h
  obtain ⟨-, rfl⟩ := Prod.mk.inj (Except.ok.inj h)
  unfold Body.insert at hins
  split_ifs at hins with hle
  obtain ⟨-, rfl⟩ := Prod.mk.inj (Except.ok.inj hins)
  have hlen : (r.body.order.insertIdx r.position r.body.store.size).length = r.body.size + 1 :=
    List.length_insertIdx_of_le_length hle _
  constructor
  · show (r.body.order.insertIdx r.position r.body.store.size).length + r.inserted =
      r.body.size + (r.inserted + 1)
    omega
  · show r.position + 1 + r.inserted = r.position + (r.inserted + 1) + 0
    omega

/-- Loading an operand steps over the load only. -/
theorem grows_loadFor {slots : SlotMap} {span : Option Span} {st st' : Spilling × List (Nat × Nat)}
    {o : Nat} (h : loadFor slots span st o = .ok st') : Grows 0 st.1 st'.1 := by
  unfold loadFor at h
  cases hq : slots.slotOf o with
  | none =>
    rw [hq] at h
    obtain rfl := Except.ok.inj h
    exact grows_refl _
  | some q =>
    rw [hq] at h
    replace h : (if st.2.any (·.1 == q) then .ok st else _) = Except.ok st' := h
    split_ifs at h
    · obtain rfl := Except.ok.inj h
      exact grows_refl _
    · obtain ⟨⟨id, r⟩, hput, h⟩ := bind_eq_ok_iff.1 h
      obtain rfl := Except.ok.inj h
      exact grows_put hput

theorem grows_foldlM_loadFor {slots : SlotMap} {span : Option Span} {os : List Nat}
    {st st' : Spilling × List (Nat × Nat)} (h : os.foldlM (loadFor slots span) st = .ok st') :
    Grows 0 st.1 st'.1 := by
  induction os generalizing st with
  | nil =>
    obtain rfl := Except.ok.inj h
    exact grows_refl _
  | cons o os ih =>
    obtain ⟨st₁, hload, h⟩ := bind_eq_ok_iff.1 h
    exact (grows_loadFor hload).trans (ih h)

/-- Loading all operands steps over the loads only. -/
theorem grows_loadAll {slots : SlotMap} {r r' : Spilling} {id : Nat} {i : Instr}
    {loads : List (Nat × Nat)} (h : loadAll slots r id i = .ok (r', loads)) : Grows 0 r r' := by
  unfold loadAll at h
  split_ifs at h
  · obtain ⟨rfl, -⟩ := Prod.mk.inj (Except.ok.inj h)
    exact grows_refl _
  · exact grows_foldlM_loadFor h

/-- Exchanging operands puts nothing in. -/
theorem size_exchange {slots : SlotMap} {loads : List (Nat × Nat)} {b b' : Body} {id : Nat}
    {i : Instr} (h : exchange slots loads b id i = .ok b') : b'.size = b.size := by
  unfold exchange Body.setOp Body.modify at h
  split_ifs at h
  · rw [Except.ok.inj h]
  · rw [← Except.ok.inj h]
    rfl

/-- Storing a value steps over the store only. -/
theorem grows_save {slots : SlotMap} {r r' : Spilling} {id : Nat} {i : Instr}
    (h : save slots r id i = .ok r') : Grows 0 r r' := by
  unfold save at h
  cases hq : slots.toStore id i.op with
  | none =>
    rw [hq] at h
    obtain rfl := Except.ok.inj h
    exact grows_refl _
  | some q =>
    rw [hq] at h
    obtain ⟨⟨id', r₁⟩, hput, h⟩ := bind_eq_ok_iff.1 h
    obtain rfl := Except.ok.inj h
    exact grows_put hput

/-- **Step lemma.**  One pass steps over one instruction of the body and over what it puts in. -/
theorem grows_step {slots : SlotMap} {r r' : Spilling} (h : r.step slots = .ok r') :
    Grows 1 r r' := by
  obtain ⟨id, -, h⟩ := bind_eq_ok_iff.1 h
  obtain ⟨i, -, h⟩ := bind_eq_ok_iff.1 h
  obtain ⟨⟨r₁, loads⟩, hload, h⟩ := bind_eq_ok_iff.1 h
  obtain ⟨body, hbody, h⟩ := bind_eq_ok_iff.1 h
  have hmid : Grows 1 r₁ { r₁ with body, position := r₁.position + 1 } := by
    refine ⟨?_, ?_⟩
    · show body.size + _ = _
      rw [size_exchange hbody]
    · show r₁.position + 1 + r₁.inserted = r₁.position + r₁.inserted + 1
      omega
  exact (grows_loadAll hload).trans (hmid.trans (grows_save h))

/-- Put spill code around all instructions from the position on. -/
def run (slots : SlotMap) (r : Spilling) : Except Fault Spilling :=
  if _hlt : r.position < r.body.size then
    match _hstep : r.step slots with
    | .error e => .error e
    | .ok r' => run slots r'
  else .ok r
termination_by r.body.size - r.position
decreasing_by
  have hgrows := grows_step _hstep
  unfold Grows at hgrows
  omega

/-- **Step lemma.**  A run goes on behind a step. -/
theorem run_of_step {slots : SlotMap} {r r' : Spilling} (hlt : r.position < r.body.size)
    (hstep : r.step slots = .ok r') : r.run slots = r'.run slots := by
  rw [run, dif_pos hlt]
  split
  · rename_i e he
    rw [hstep] at he
    cases he
  · rename_i r₁ hr₁
    rw [hstep] at hr₁
    rw [Except.ok.inj hr₁]

/-! ### What lies behind the position -/

/-- The loop when it has come to the end of `c` and has the instructions `rest` in front of it. -/
def between (c : Body) (rest : List Nat) (n : Nat) : Spilling where
  body := ⟨c.store, c.order ++ rest⟩
  position := c.order.length
  inserted := n

/-- To put in an instruction between two parts of a body is to add it to the first part. -/
theorem put_between (c : Body) (rest : List Nat) (n : Nat) (i : Instr) :
    (between c rest n).put i = .ok (c.store.size, between (c.push i).2 rest (n + 1)) := by
  have hle : c.order.length ≤ Body.size ⟨c.store, c.order ++ rest⟩ := by
    show c.order.length ≤ (c.order ++ rest).length
    rw [List.length_append]
    exact Nat.le_add_right _ _
  have hins : (between c rest n).body.insert (between c rest n).position i = .ok (c.store.size,
      ⟨c.store.push i, c.order ++ c.store.size :: rest⟩) := by
    show Body.insert ⟨c.store, c.order ++ rest⟩ c.order.length i = _
    unfold Body.insert
    rw [if_pos hle, insertIdx_append_length]
  refine bind_eq_ok_iff.2 ⟨_, hins, ?_⟩
  unfold between Body.push
  simp [pure, Except.pure]

/-- Slots with the numbers of their loads. -/
def numbered (first : Nat) (qs : List Nat) : List (Nat × Nat) :=
  qs.mapIdx fun n q => (q, first + n)

/-- The load that holds a slot. -/
theorem lookup_numbered (first : Nat) (qs : List Nat) (q : Nat) :
    (numbered first qs).lookup q = (qs.idxOf? q).map (first + ·) := by
  induction qs generalizing first with
  | nil => rfl
  | cons a qs ih =>
    have hcons : numbered first (a :: qs) = (a, first) :: numbered (first + 1) qs := by
      unfold numbered
      rw [List.mapIdx_cons]
      simp [Nat.add_assoc, Nat.add_comm 1]
    rw [hcons, List.lookup_cons, List.idxOf?_cons, ih]
    by_cases h : a = q
    · subst h
      simp
    · rw [beq_eq_false_iff_ne.2 (Ne.symm h), if_neg (by simpa using h), Option.map_map]
      show Option.map _ _ = _
      congr 1
      funext n
      show first + 1 + n = first + (n + 1)
      omega

theorem numbered_concat (first : Nat) (qs : List Nat) (q : Nat) :
    numbered first (qs ++ [q]) = numbered first qs ++ [(q, first + qs.length)] := by
  unfold numbered
  rw [List.mapIdx_concat]

theorem map_fst_numbered (first : Nat) (qs : List Nat) :
    (numbered first qs).map Prod.fst = qs := by
  apply List.ext_getElem?
  intro n
  rw [numbered, List.getElem?_map, List.getElem?_mapIdx, Option.map_map]
  exact Option.map_id_apply

/-- Whether a slot has been loaded. -/
theorem any_numbered {first : Nat} {qs : List Nat} {q : Nat} :
    (numbered first qs).any (·.1 == q) = true ↔ q ∈ qs := by
  rw [List.any_eq_true, ← map_fst_numbered first qs, List.mem_map, map_fst_numbered]
  exact exists_congr fun e => and_congr_right fun _ => beq_iff_eq

/-- An operand is exchanged for the load of its slot, as `SlotMap.redirect` says. -/
theorem exchanged_numbered (slots : SlotMap) (first : Nat) (qs : List Nat) :
    exchanged slots (numbered first qs) = slots.redirect qs first := by
  funext o
  unfold exchanged SlotMap.redirect
  cases slots.slotOf o with
  | none => rfl
  | some q =>
    dsimp only [Option.bind_some]
    rw [lookup_numbered]
    cases qs.idxOf? q <;> rfl

/-- The part of a body that is finished, with the loads of some slots behind it. -/
def loaded (c : Body) (span : Option Span) (qs : List Nat) : Body where
  store := c.store ++ qs.map fun q => ({ op := .load q, span } : Instr)
  order := c.order ++ List.range' c.store.size qs.length

/-- How many instructions there are after loads. -/
theorem size_store_loaded (c : Body) (span : Option Span) (qs : List Nat) :
    (loaded c span qs).store.size = c.store.size + qs.length := by
  rw [← Array.length_toList]
  simp [loaded]

theorem loaded_nil (c : Body) (span : Option Span) : loaded c span [] = c := by
  simp [loaded]

theorem loaded_concat (c : Body) (span : Option Span) (qs : List Nat) (q : Nat) :
    loaded c span (qs ++ [q]) = ((loaded c span qs).push { op := .load q, span }).2 := by
  have hstore : (loaded c span (qs ++ [q])).store =
      (loaded c span qs).store.push { op := .load q, span } := by
    apply Array.toList_inj.1
    simp [loaded]
  have horder : (loaded c span (qs ++ [q])).order =
      (loaded c span qs).order ++ [(loaded c span qs).store.size] := by
    rw [size_store_loaded]
    simp [loaded, List.range'_concat]
  exact congrArg₂ Body.mk hstore horder

/-- **Run lemma.**  Going through operands loads their slots, each once. -/
theorem foldlM_loadFor (slots : SlotMap) (span : Option Span) (c : Body) (rest : List Nat) (n : Nat)
    (os : List Nat) :
    os.foldlM (loadFor slots span) (between c rest n, []) =
      .ok (between (loaded c span (os.filterMap slots.slotOf).eraseDups) rest
        (n + (os.filterMap slots.slotOf).eraseDups.length),
        numbered c.store.size (os.filterMap slots.slotOf).eraseDups) := by
  induction os using List.reverseRecOn with
  | nil =>
    rw [List.filterMap_nil, List.eraseDups_nil, loaded_nil]
    rfl
  | append_singleton os o ih =>
    rw [List.foldlM_append, ih, List.filterMap_append]
    generalize hqs : os.filterMap slots.slotOf = qs
    show loadFor slots span _ o >>= pure = _
    rw [bind_pure]
    unfold loadFor
    cases hq : slots.slotOf o with
    | none => simp [hq]
    | some q =>
      have hlast : [o].filterMap slots.slotOf = [q] := by simp [hq]
      rw [hlast, List.eraseDups_append]
      show (if (numbered c.store.size qs.eraseDups).any (·.1 == q) then _ else _) = _
      by_cases hmem : q ∈ qs
      · rw [if_pos (any_numbered.2 (List.mem_eraseDups.2 hmem))]
        simp [List.removeAll, hmem]
      · have hnew : ([q].removeAll qs).eraseDups = [q] := by
          simp [List.removeAll, hmem, List.eraseDups_cons]
        rw [if_neg fun h => hmem (List.mem_eraseDups.1 (any_numbered.1 h)), hnew, loaded_concat]
        refine bind_eq_ok_iff.2 ⟨_, put_between _ rest _ _, ?_⟩
        show Except.ok (_, _) = _
        rw [numbered_concat, size_store_loaded, List.length_append, List.length_singleton,
          Nat.add_assoc]

section

variable {slots : SlotMap} {c : Body} {id : Nat} {i : Instr}

/-- The part of a body that is finished, with one more instruction and its loads behind it. -/
def reached (slots : SlotMap) (c : Body) (id : Nat) (i : Instr) : Body where
  store := c.store.setIfInBounds id (slots.moved c.store.size id i) ++
    (slots.toLoad id i.op).map fun q => ({ op := .load q, span := i.span } : Instr)
  order := (loaded c i.span (slots.toLoad id i.op)).order ++ [id]

/-- What has been loaded for an instruction is used by it. -/
theorem exchange_loaded (hi : c.store[id]? = some i) (order : List Nat) :
    exchange slots (numbered c.store.size (slots.toLoad id i.op))
      ⟨(loaded c i.span (slots.toLoad id i.op)).store, order⟩ id i =
        .ok ⟨(reached slots c id i).store, order⟩ := by
  have hi' : c.store.toList[id]? = some i := by rwa [Array.getElem?_toList]
  have hlt : id < (loaded c i.span (slots.toLoad id i.op)).store.size := by
    rw [size_store_loaded]
    exact Nat.lt_add_right _ (Body.lt_size_of_getElem? hi)
  unfold exchange
  rw [exchanged_numbered]
  split_ifs with hempty
  · -- nothing has been loaded, and the operands stay
    have hnil : slots.toLoad id i.op = [] := by
      rw [← map_fst_numbered c.store.size (slots.toLoad id i.op), List.isEmpty_iff.1 hempty]
      rfl
    have hself : slots.moved c.store.size id i = i := by
      have hop : i.op.mapOperands (slots.redirect [] c.store.size) = i.op := by
        refine Op.mapOperands_eq_self fun o _ => ?_
        unfold SlotMap.redirect
        cases slots.slotOf o <;> rfl
      rw [SlotMap.moved, hnil, hop]
    have hstore : (loaded c i.span (slots.toLoad id i.op)).store =
        (reached slots c id i).store := by
      apply Array.toList_inj.1
      have hset : c.store.toList.set id i = c.store.toList := by
        obtain ⟨hid, hget⟩ := List.getElem?_eq_some_iff.1 hi'
        rw [← hget, List.set_getElem_self]
      simp [loaded, reached, hself, hset]
    rw [hstore]
  · unfold Body.setOp Body.modify
    rw [if_pos hlt]
    have hstore : ∀ op, op = (slots.moved c.store.size id i).op →
        (loaded c i.span (slots.toLoad id i.op)).store.modify id (fun i' => { i' with op }) =
          (reached slots c id i).store := by
      rintro op rfl
      apply Array.toList_inj.1
      simp [loaded, reached, SlotMap.moved, modify_append_of_getElem? hi']
    rw [← hstore _ rfl]
    rfl

/-- Writing an instruction is to reach it and to save its value. -/
theorem place_eq (hi : c.store[id]? = some i) :
    slots.place c id = match slots.toStore id i.op with
      | none => reached slots c id i
      | some q => ((reached slots c id i).push { op := .store id q, span := i.span }).2 := by
  have hsize : (reached slots c id i).store.size =
      c.store.size + (slots.toLoad id i.op).length := by
    rw [← Array.length_toList]
    simp [reached]
  have hstore : (slots.place c id).store.toList = _ := SlotMap.toList_store_place hi
  have horder : (slots.place c id).order = _ := SlotMap.order_place hi
  cases hq : slots.toStore id i.op with
  | none =>
    rw [hq] at hstore horder
    refine congrArg₂ Body.mk (Array.toList_inj.1 (hstore.trans ?_)) (horder.trans ?_)
    · simp
    · simp [loaded]
  | some q =>
    rw [hq] at hstore horder
    refine congrArg₂ Body.mk (Array.toList_inj.1 (hstore.trans ?_)) (horder.trans ?_)
    · simp [reached]
    · rw [hsize]
      simp [reached, loaded]

/-- Loading all operands of an instruction, in the middle of a run. -/
theorem loadAll_between (id : Nat) (i : Instr) (rest : List Nat) (n : Nat) :
    loadAll slots (between c rest n) id i =
      .ok (between (loaded c i.span (slots.toLoad id i.op)) rest
        (n + (slots.toLoad id i.op).length), numbered c.store.size (slots.toLoad id i.op)) := by
  unfold loadAll SlotMap.toLoad
  split_ifs
  · rw [loaded_nil]
    rfl
  · exact foldlM_loadFor slots i.span c rest n i.op.operands

/-- Storing the value of an instruction, in the middle of a run. -/
theorem save_between (hi : c.store[id]? = some i) (rest : List Nat) (n : Nat) :
    save slots (between (reached slots c id i) rest n) id i =
      .ok (between (slots.place c id) rest (n + (slots.toStore id i.op).toList.length)) := by
  unfold save
  rw [place_eq hi]
  cases slots.toStore id i.op with
  | none => rfl
  | some q => exact bind_eq_ok_iff.2 ⟨_, put_between _ rest n _, rfl⟩

/-- **Step lemma.**  One pass of the loop writes one instruction with its spill code. -/
theorem step_between (hi : c.store[id]? = some i) (rest : List Nat) (n : Nat) :
    (between c (id :: rest) n).step slots =
      .ok (between (slots.place c id) rest (n + slots.extra id i.op)) := by
  have hid : (between c (id :: rest) n).body.idAt (between c (id :: rest) n).position = .ok id := by
    show orOutOfRange (c.order ++ id :: rest)[c.order.length]? = _
    rw [List.getElem?_append_right (le_refl _), Nat.sub_self]
    rfl
  have hget : (between c (id :: rest) n).body.get id = .ok i := by
    show orOutOfRange c.store[id]? = _
    rw [hi]
    rfl
  refine bind_eq_ok_iff.2 ⟨id, hid, bind_eq_ok_iff.2 ⟨i, hget, bind_eq_ok_iff.2 ⟨_,
    loadAll_between id i (id :: rest) n, bind_eq_ok_iff.2 ⟨_, exchange_loaded hi _, ?_⟩⟩⟩⟩
  have hmid : between (reached slots c id i) rest (n + (slots.toLoad id i.op).length) =
      { body := ⟨(reached slots c id i).store,
          (loaded c i.span (slots.toLoad id i.op)).order ++ id :: rest⟩
        position := (loaded c i.span (slots.toLoad id i.op)).order.length + 1
        inserted := n + (slots.toLoad id i.op).length } := by
    simp [between, reached]
  have hsave : save slots _ id i = _ :=
    save_between hi rest (n + (slots.toLoad id i.op).length)
  rw [hmid, Nat.add_assoc] at hsave
  exact hsave

end

/-- **Run lemma.**  The loop writes all instructions with their spill code. -/
theorem run_between (slots : SlotMap) (c : Body) {rest : List Nat}
    (hrest : ∀ id ∈ rest, id < c.store.size) (n : Nat) :
    ∃ n', (between c rest n).run slots = .ok (between (rest.foldl slots.place c) [] n') := by
  induction rest generalizing c n with
  | nil =>
    refine ⟨n, ?_⟩
    rw [run, dif_neg]
    · rfl
    · show ¬ c.order.length < (c.order ++ []).length
      rw [List.append_nil]
      exact lt_irrefl _
  | cons id rest ih =>
    obtain ⟨i, hi⟩ := Body.exists_instr (hrest id List.mem_cons_self)
    have hlt : (between c (id :: rest) n).position < (between c (id :: rest) n).body.size := by
      show c.order.length < (c.order ++ id :: rest).length
      rw [List.length_append, List.length_cons]
      omega
    rw [run_of_step hlt (step_between hi rest n)]
    apply ih
    intro x hx
    rw [SlotMap.size_place hi]
    exact Nat.lt_add_right _ (hrest x (List.mem_cons_of_mem id hx))

/-- The loop counts by how much the body grows. -/
theorem size_run {slots : SlotMap} {r r' : Spilling} (h : r.run slots = .ok r') :
    r'.body.size + r.inserted = r.body.size + r'.inserted := by
  fun_induction run slots r with
  | case1 r hlt e hstep => cases h
  | case2 r hlt r₁ hstep ih =>
    have hgrows := (grows_step hstep).1
    have := ih h
    omega
  | case3 r hlt =>
    obtain rfl := Except.ok.inj h
    rfl

end Spilling

/-- The loop ends, with the body that `Body.addSpillCode` makes. -/
theorem Body.WellFormed.exists_run {b : Body} (hb : b.WellFormed) (slots : SlotMap) :
    ∃ r, Spilling.run slots { body := b.markSlots slots } = .ok r ∧
      r.body = b.addSpillCode slots ∧ (b.addSpillCode slots).size = b.size + r.inserted := by
  have hm := (b.sameOps_markSlots slots).wellFormed hb
  obtain ⟨n, hrun⟩ := Spilling.run_between slots { (b.markSlots slots) with order := [] }
    (fun id hid => (hm.mem_order id).1 hid) 0
  have hbody : (Spilling.between (b.addSpillCode slots) [] n).body = b.addSpillCode slots := by
    unfold Spilling.between
    rw [List.append_nil]
  have hsize := Spilling.size_run hrun
  refine ⟨_, hrun, hbody, ?_⟩
  rw [← hbody]
  exact hsize

/-- Move the listed variables to the stack, to slots from `next` on, in place. -/
def Body.spillInPlace (b : Body) (s : Storage) (vars : List Nat) (next : Nat) :
    Except Fault Spilled := do
  let slots ← b.slotMap s next vars
  let r ← Spilling.run slots { body := b.markSlots slots }
  return { body := r.body, inserted := r.inserted, nextSlot := next + vars.length }

/-- **Spilling in place is right.** -/
theorem Body.WellFormed.spillInPlace_eq {b : Body} (hb : b.WellFormed) (s : Storage)
    (vars : List Nat) (next : Nat) : b.spillInPlace s vars next = b.spill s vars next := by
  unfold Body.spillInPlace Body.spill
  cases b.slotMap s next vars with
  | error e => rfl
  | ok slots =>
    obtain ⟨r, hrun, hbody, hsize⟩ := hb.exists_run slots
    show (Spilling.run slots { body := b.markSlots slots } >>= _) = _
    rw [hrun]
    show Except.ok (Spilled.mk _ _ _) = Except.ok (Spilled.mk _ _ _)
    rw [hbody, hsize, Nat.add_sub_cancel_left]

end Backend
