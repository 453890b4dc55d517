/-
# What spilling does to a body

A body with spill code has a block in the place of each instruction: its loads, the instruction, its
store (`SpillBlock.Fits`).  The blocks stand in the order of the instructions, and apart from them
nothing has changed (`Body.WellFormed.moves_spill`).
-/
import Mathlib
import Backend.Proofs.Outcome
import Backend.Proofs.SpillLoop

namespace Backend

/-! ## Blocks of spill code -/

/-- What a body with spill code has in the place of one instruction. -/
structure SpillBlock where
  /-- The slots that are loaded, with the numbers of the loads. -/
  loads : List (Nat × Nat)
  id : Nat
  instr : Instr
  /-- The slot that is written, with the number of the store. -/
  saved : Option (Nat × Nat)

namespace SpillBlock

/-- The loads, then the instruction, then the store. -/
def toList (t : SpillBlock) : List (Nat × Instr) :=
  t.loads.map (fun l => (l.2, { op := .load l.1, span := t.instr.span })) ++
    (t.id, t.instr) ::
      t.saved.toList.map fun l => (l.2, { op := .store t.id l.1, span := t.instr.span })

/-- An instruction that joins definitions which move to the stack together. -/
def joinsSlot (slot : Nat → Option Nat) (e : Nat × Instr) : Bool :=
  e.2.op.isUnify && (slot e.1).isSome

/-- The block of an instruction when some instructions have slots.  The slots of the operands are
loaded, each once and in the order of the operands, and the operands are exchanged for the loads;
but joins of instructions with a slot stay as they are.  A value with a slot is stored, but a join
has none of its own.  All else about the instruction stays, except that its slot is noted. -/
structure Fits (slot : Nat → Option Nat) (e : Nat × Instr) (t : SpillBlock) : Prop where
  id_eq : t.id = e.1
  loads_eq : t.loads.map Prod.fst =
    if joinsSlot slot e then [] else (e.2.op.operands.filterMap slot).eraseDups
  saved_eq : t.saved.map Prod.fst =
    if e.2.op.definesValue && !e.2.op.isUnify then slot e.1 else none
  instr_eq : ∃ f, t.instr =
      { e.2 with op := e.2.op.mapOperands f, slot := (slot e.1).or e.2.slot } ∧
    ∀ o ∈ e.2.op.operands, (slot o = none ∨ joinsSlot slot e = true → f o = o) ∧
      ∀ q, slot o = some q → joinsSlot slot e = false → (q, f o) ∈ t.loads

section

variable (slots : SlotMap) (first x : Nat) (i : Instr)

/-- The block that is written for an instruction, with numbers from `first` on. -/
def written : SpillBlock where
  loads := Spilling.numbered first (slots.toLoad x i.op)
  id := x
  instr := Body.Expands.written slots first x i
  saved := (slots.toStore x i.op).map fun q => (q, first + (slots.toLoad x i.op).length)

theorem span_instr_written : (written slots first x i).instr.span = i.span := by
  show (slots.mark x i).span = i.span
  rw [SlotMap.mark_eq]

theorem toList_written :
    (written slots first x i).toList = slots.around first x (slots.mark x i) := by
  have hloads : (Spilling.numbered first (slots.toLoad x i.op)).map
      (fun l => (l.2, ({ op := .load l.1, span := i.span } : Instr))) =
      (slots.toLoad x i.op).mapIdx fun n q => (first + n, { op := .load q, span := i.span }) := by
    apply List.ext_getElem?
    intro n
    rw [List.getElem?_map, Spilling.numbered, List.getElem?_mapIdx, List.getElem?_mapIdx,
      Option.map_map]
    rfl
  have hspan : (slots.mark x i).span = i.span := by rw [SlotMap.mark_eq]
  unfold SlotMap.around toList
  rw [SlotMap.op_mark, hspan, span_instr_written, ← hloads]
  show _ ++ (x, _) :: ((slots.toStore x i.op).map _).toList.map _ = _
  cases slots.toStore x i.op <;> rfl

variable {slots first x i} {o : Nat}

/-- An operand without a slot stays, and so does one of a join that needs no loads. -/
theorem redirect_eq_self (h : slots.slotOf o = none ∨ joinsSlot slots.slotOf (x, i) = true) :
    slots.redirect (slots.toLoad x i.op) first o = o := by
  rcases slots.redirect_cases (slots.toLoad x i.op) first o with ⟨hself, -⟩ | ⟨q, n, hq, hn, -⟩
  · exact hself
  · exfalso
    rcases h with hnone | hjoin
    · rw [hnone] at hq
      cases hq
    · have hnil : slots.toLoad x i.op = [] := if_pos hjoin
      rw [hnil] at hn
      cases hn

/-- Any other operand is exchanged for the load of its slot. -/
theorem redirect_mem_numbered {q : Nat} (ho : o ∈ i.op.operands) (hq : slots.slotOf o = some q)
    (hjoin : joinsSlot slots.slotOf (x, i) = false) :
    (q, slots.redirect (slots.toLoad x i.op) first o) ∈
      Spilling.numbered first (slots.toLoad x i.op) := by
  have hload : slots.toLoad x i.op = (i.op.operands.filterMap slots.slotOf).eraseDups :=
    if_neg (Bool.eq_false_iff.1 hjoin)
  have hmem : q ∈ slots.toLoad x i.op := by
    rw [hload, List.mem_eraseDups, List.mem_filterMap]
    exact ⟨o, ho, hq⟩
  rcases slots.redirect_cases (slots.toLoad x i.op) first o with
    ⟨-, hnot⟩ | ⟨q', n, hq', hn, hredirect⟩
  · exact absurd hq (hnot q hmem)
  · obtain rfl : q = q' := Option.some.inj (hq.symm.trans hq')
    rw [hredirect, Spilling.numbered]
    apply List.mem_of_getElem? (i := n)
    rw [List.getElem?_mapIdx, hn]
    rfl

variable (slots first x i)

/-- What is written for an instruction is its block. -/
theorem fits_written : (written slots first x i).Fits slots.slotOf (x, i) where
  id_eq := rfl
  loads_eq := Spilling.map_fst_numbered first _
  saved_eq := by
    show Option.map Prod.fst (Option.map _ (slots.toStore x i.op)) = slots.toStore x i.op
    rw [Option.map_map]
    exact Option.map_id_apply
  instr_eq := by
    refine ⟨slots.redirect (slots.toLoad x i.op) first, ?_, fun o ho => ⟨redirect_eq_self, ?_⟩⟩
    · show Body.Expands.written slots first x i = _
      rw [Body.Expands.written, SlotMap.moved, SlotMap.op_mark, SlotMap.mark_eq]
    · intro q hq hjoin
      exact redirect_mem_numbered ho hq hjoin

end

/-- **Run lemma.**  A layout is made of the blocks of the instructions laid out. -/
theorem exists_fits_layout (slots : SlotMap) (first : Nat) (es : List (Nat × Instr)) :
    ∃ blocks : List SpillBlock, List.Forall₂ (Fits slots.slotOf) es blocks ∧
      slots.layout first (es.map fun e => (e.1, slots.mark e.1 e.2)) = blocks.flatMap toList := by
  induction es generalizing first with
  | nil => exact ⟨[], .nil, rfl⟩
  | cons e es ih =>
    obtain ⟨blocks, hblocks, hlayout⟩ := ih (first + slots.extra e.1 e.2.op)
    refine ⟨written slots first e.1 e.2 :: blocks,
      .cons (fits_written slots first e.1 e.2) hblocks, ?_⟩
    rw [List.map_cons, SlotMap.layout, SlotMap.op_mark, hlayout, List.flatMap_cons, toList_written]

end SpillBlock

/-- What spilling has done: the listed variables have the slots from `next` on, there is a block in
the place of each instruction, and nothing else has changed. -/
structure Spilled.Moves (sp : Spilled) (b : Body) (s : Storage) (vars : List Nat) (next : Nat) :
    Prop where
  nextSlot_eq : sp.nextSlot = next + vars.length
  size_eq : sp.body.size = b.size + sp.inserted
  wellFormed : sp.body.WellFormed
  blocks : ∃ (slot : Nat → Option Nat) (blocks : List SpillBlock),
    (∀ x q, slot x = some q ↔ ∃ j v, vars[j]? = some v ∧ s.var? x = some v ∧ q = next + j) ∧
      List.Forall₂ (SpillBlock.Fits slot) b.toList blocks ∧
      sp.body.toList = blocks.flatMap SpillBlock.toList

/-- **The effect of spilling.**  If every operand is in the body, any variables of the body can be
moved to the stack, the first one to slot `next` and each other one to the slot behind.  Then there
are loads in front of the instructions that read them, which now read the loads, and stores behind
the instructions that write them; joins of such variables need neither.  Putting all this in while
going through the body comes to the same. -/
theorem Body.WellFormed.moves_spill {b : Body} (hb : b.WellFormed) (hops : ∀ o, ¬ b.Missing o) :
    ∃ s, Storage.ofBody b = .ok s ∧ ∀ (vars : List Nat) (next : Nat), vars.Nodup →
      (∀ v ∈ vars, ∃ x, s.var? x = some v) →
        ∃ sp, b.spill s vars next = .ok sp ∧ sp.Moves b s vars next ∧
          b.spillInPlace s vars next = .ok sp := by
  rcases hb.cases_storage with ⟨s, hs, hvalid, -⟩ | ⟨o, ho, -⟩
  · refine ⟨s, hs, fun vars next hnodup hlive => ?_⟩
    have hvars : ∀ v ∈ vars, v < b.size := by
      intro v hv
      obtain ⟨x, hx⟩ := hlive v hv
      exact hvalid.var_lt_size hx
    obtain ⟨slots, hslots, hgives⟩ := b.exists_slotMap hvalid next hvars hnodup
    obtain ⟨hwf, -, hlist⟩ := hb.layout_addSpillCode slots
    obtain ⟨blocks, hblocks, hlayout⟩ := SpillBlock.exists_fits_layout slots b.store.size b.toList
    have hrun : b.spill s vars next = .ok _ := bind_eq_ok_iff.2 ⟨slots, hslots, rfl⟩
    refine ⟨_, hrun, ⟨rfl, ?_, hwf, slots.slotOf, blocks, fun x q => ?_, hblocks, ?_⟩,
      (hb.spillInPlace_eq s vars next).trans hrun⟩
    · obtain ⟨r, -, -, hsize⟩ := hb.exists_run slots
      show (b.addSpillCode slots).size = b.size + ((b.addSpillCode slots).size - b.size)
      omega
    · rw [hgives]
      constructor
      · rintro ⟨j, v, hv, hq, hx⟩
        exact ⟨j, v, hv, hx, hq.symm⟩
      · rintro ⟨j, v, hv, hx, hq⟩
        exact ⟨j, v, hv, hq.symm, hx⟩
    · rw [← hlayout, ← Body.toList_markSlots]
      exact hlist
  · exact absurd ho (hops o)

/-- A value and a sum of it with itself share a variable, and a call names it and another one
twice. -/
def Body.crossing : Body :=
  .ofOps [.int 1, .binary .plus 0 0, .unify 0 1, .int 7, .call 3 "m" [2, 3, 0], .print 4]

/-- The sum loads its variable and stores it again; the call loads both, each once; and the join is
left alone. -/
theorem Body.moves_spill_crossing :
    crossing.WellFormed ∧ (∀ o, ¬ crossing.Missing o) ∧ ∃ s sp, Storage.ofBody crossing = .ok s ∧
      crossing.spill s [3, 0] 5 = .ok sp ∧ sp.Moves crossing s [3, 0] 5 ∧
      crossing.spillInPlace s [3, 0] 5 = .ok sp ∧ sp.inserted = 6 ∧
      sp.body.ops = [.int 1, .store 0 6, .load 6, .binary .plus 7 7, .store 1 6, .unify 0 1,
        .int 7, .store 3 5, .load 5, .load 6, .call 10 "m" [11, 10, 11], .print 4] := by
  have hb : crossing.WellFormed := (built_ofOps _).wellFormed
  have hnone : ∀ o, ¬ crossing.Missing o := not_missing (by decide)
  obtain ⟨s, hs, hmoves⟩ := hb.moves_spill hnone
  have htest : (Storage.ofBody crossing).toOption.any (fun s => s.var? 3 == some 3 &&
      s.var? 0 == some 0 && (crossing.spill s [3, 0] 5).toOption.any fun sp => sp.inserted == 6 &&
        sp.body.ops == [.int 1, .store 0 6, .load 6, .binary .plus 7 7, .store 1 6, .unify 0 1,
          .int 7, .store 3 5, .load 5, .load 6, .call 10 "m" [11, 10, 11], .print 4]) = true := by
    decide +kernel
  obtain ⟨s', hs', htest⟩ := exists_ok_of_any htest
  obtain rfl : s = s' := Except.ok.inj (hs.symm.trans hs')
  rw [Bool.and_eq_true, Bool.and_eq_true, beq_iff_eq, beq_iff_eq] at htest
  obtain ⟨⟨hthree, hzero⟩, htest⟩ := htest
  obtain ⟨sp, hsp, htest⟩ := exists_ok_of_any htest
  rw [Bool.and_eq_true, beq_iff_eq, beq_iff_eq] at htest
  obtain ⟨sp', hsp', hmoved, hplace⟩ := hmoves [3, 0] 5 (by decide) fun v hv => by
    rcases List.mem_pair.1 hv with rfl | rfl
    · exact ⟨3, hthree⟩
    · exact ⟨0, hzero⟩
  obtain rfl : sp = sp' := Except.ok.inj (hsp.symm.trans hsp')
  exact ⟨hb, hnone, s, sp, hs, hsp, hmoved, hplace, htest.1, htest.2⟩

end Backend
