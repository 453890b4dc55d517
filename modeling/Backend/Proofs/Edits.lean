/-
# Bodies that are edited

A body begins empty or with lowered code, and is edited from then on (`Body.Edit`): instructions are
added, changed and pinned, spill code is written around them, registers are given out.  No edit
takes an instruction away or moves two of them past each other (`Body.Edit.extends`), so in every
body that can be reached, positions and instructions stay in bijection
(`Body.Reachable.positions_bijective`).
-/
import Mathlib
import Backend.Proofs.Compilation
import Backend.Proofs.Outcome
import Backend.Proofs.SpillLoop
import Backend.Proofs.Scopes

namespace Backend

/-! ## Positions -/

namespace Body.WellFormed

variable {b : Body}

/-- The position of an instruction is the one where the order names it. -/
theorem position?_eq_some (hb : b.WellFormed) {id p : Nat} :
    b.position? id = some p ↔ b.order[p]? = some id := by
  rw [position?, List.findIdx?_eq_some_iff_getElem, List.getElem?_eq_some_iff]
  constructor
  · rintro ⟨hp, hid, -⟩
    exact ⟨hp, beq_iff_eq.1 hid⟩
  · rintro ⟨hp, hid⟩
    refine ⟨hp, beq_iff_eq.2 hid, fun q hq heq => ?_⟩
    have hqp := hb.nodup.getElem_inj_iff.1 ((beq_iff_eq.1 heq).trans hid.symm)
    omega

end Body.WellFormed

/-- The instruction at a place of the order. -/
theorem Body.idAt_eq_ok {b : Body} {p id : Nat} : b.idAt p = .ok id ↔ b.order[p]? = some id := by
  unfold idAt orOutOfRange
  cases b.order[p]? <;> simp

/-! ## Edits -/

/-- Spill code is written around the instructions, which stay in their order. -/
theorem SlotMap.sublist_layout (slots : SlotMap) (first : Nat) (es : List (Nat × Instr)) :
    (es.map (·.1)).Sublist ((slots.layout first es).map (·.1)) := by
  induction es generalizing first with
  | nil => exact List.Sublist.refl _
  | cons e es ih =>
    have hmem : e.1 ∈ (slots.around first e.1 e.2).map (·.1) :=
      List.mem_map.2 ⟨_, List.mem_append_right _ List.mem_cons_self, rfl⟩
    rw [SlotMap.layout, List.map_append]
    exact (List.singleton_sublist.2 hmem).append (ih _)

namespace Body

/-- What can be done to a body.  Spill code may be written in place, and so may an allocation; where
that fails, it leaves the body it has come to. -/
inductive Edit : Body → Body → Prop
  | push (b : Body) (i : Instr) : Edit b (b.push i).2
  | insert {b c : Body} {p id : Nat} {i : Instr} (h : b.insert p i = .ok (id, c)) : Edit b c
  | pin {b c : Body} {id r : Nat} (h : b.pin id r = .ok c) : Edit b c
  | setOp {b c : Body} {id : Nat} {op : Op} (h : b.setOp id op = .ok c) : Edit b c
  | pinConvention (b : Body) (f : RegisterFile) : Edit b (b.pinConvention f).value
  | spill {b : Body} {s : Storage} {vars : List Nat} {next : Nat} {sp : Spilled}
      (h : b.spill s vars next = .ok sp) : Edit b sp.body
  | spillInPlace {b : Body} {s : Storage} {vars : List Nat} {next : Nat} {sp : Spilled}
      (h : b.spillInPlace s vars next = .ok sp) : Edit b sp.body
  | allocate {b : Body} {k : Nat} {a : Allocated} (h : b.allocate k = .ok a) : Edit b a.body
  | allocateInPlace (b : Body) (k : Nat) : Edit b (b.allocateInPlace k).2

/-- The bodies that can be reached by edits from an empty body or from lowered code, which may have
been written in one sequence or strand by strand. -/
inductive Reachable : Body → Prop
  | empty : Reachable {}
  | method {m : Source.MethodDecl} {t : Traced Code.Method} (h : m.lower = .ok t) :
      Reachable t.value.body
  | main {m : Source.MainClass} {t : Traced Code.Method} (h : m.lower = .ok t) :
      Reachable t.value.body
  | methodOn {order : Lowering.Draft → Lowering.Scope} (horder : Lowering.Listing order)
      {m : Source.MethodDecl} {t : Traced Code.Method} (h : m.lowerOn order = .ok t) :
      Reachable t.value.body
  | mainOn {order : Lowering.Draft → Lowering.Scope} (horder : Lowering.Listing order)
      {m : Source.MainClass} {t : Traced Code.Method} (h : m.lowerOn order = .ok t) :
      Reachable t.value.body
  | edit {b c : Body} (h : Reachable b) (he : b.Edit c) : Reachable c

/-- A body that has grown from another one: well formed, with the old instructions in their old
order. -/
structure Extends (b c : Body) : Prop where
  wellFormed : c.WellFormed
  order : b.order.Sublist c.order

/-- Extending twice is extending once. -/
theorem Extends.trans {b c d : Body} (h : b.Extends c) (h' : c.Extends d) : b.Extends d :=
  ⟨h'.wellFormed, h.order.trans h'.order⟩

/-- **Old instructions keep their relative order**: their positions move by a strictly increasing
map. -/
theorem Extends.exists_strictMono {b c : Body} (h : b.Extends c) (hb : b.WellFormed) :
    ∃ f : Nat → Nat, StrictMono f ∧
      ∀ id p, b.position? id = some p → c.position? id = some (f p) := by
  obtain ⟨f, hf⟩ := List.sublist_iff_exists_orderEmbedding_getElem?_eq.1 h.order
  refine ⟨f, f.strictMono, fun id p hp => ?_⟩
  rw [h.wellFormed.position?_eq_some, ← hf, ← hb.position?_eq_some]
  exact hp

section

variable {b c : Body} (hb : b.WellFormed)

include hb

theorem WellFormed.extends_of_sameOps (h : b.SameOps c) : b.Extends c :=
  ⟨h.wellFormed hb, h.order ▸ List.Sublist.refl _⟩

/-- Changing an instruction extends a body by nothing. -/
theorem WellFormed.extends_modify {id : Nat} {f : Instr → Instr} (h : b.modify id f = .ok c) :
    b.Extends c :=
  ⟨hb.modify h, (order_modify h).1 ▸ List.Sublist.refl _⟩

/-- Inserting an instruction extends a body by it. -/
theorem WellFormed.extends_insert {p id : Nat} {i : Instr} (h : b.insert p i = .ok (id, c)) :
    b.Extends c := by
  refine ⟨hb.insert h, ?_⟩
  obtain ⟨-, rfl⟩ := order_insert h
  exact List.sublist_insertIdx _ _ _

/-- Spill code extends a body. -/
theorem WellFormed.extends_addSpillCode (slots : SlotMap) : b.Extends (b.addSpillCode slots) := by
  obtain ⟨hwf, -, hlist⟩ := hb.layout_addSpillCode slots
  refine ⟨hwf, ?_⟩
  have horder : (b.markSlots slots).toList.map (·.1) = b.order :=
    ((b.sameOps_markSlots slots).wellFormed hb).map_fst_toList
  rw [← hwf.map_fst_toList, hlist, ← horder]
  exact slots.sublist_layout _ _

theorem WellFormed.extends_spill {s : Storage} {vars : List Nat} {next : Nat} {sp : Spilled}
    (h : b.spill s vars next = .ok sp) : b.Extends sp.body := by
  obtain ⟨slots, -, h⟩ := bind_eq_ok_iff.1 h
  cases h
  exact hb.extends_addSpillCode slots

end

/-- **The rounds of an allocation**, whether they succeed or fail. -/
theorem WellFormed.extends_roundsInPlace {b : Body} (hb : b.WellFormed) (k limit round next : Nat) :
    b.Extends (roundsInPlace k limit round next b).2 := by
  induction limit generalizing b round next with
  | zero => exact ⟨hb, List.Sublist.refl _⟩
  | succ limit ih =>
    unfold roundsInPlace
    cases b.round k with
    | error e => exact ⟨hb, List.Sublist.refl _⟩
    | ok r =>
      dsimp only
      split
      · exact hb.extends_of_sameOps (b.sameOps_assignRegisters r.storage r.coloring)
      · cases hsp : b.spill r.storage r.coloring.spills next with
        | error e => exact ⟨hb, List.Sublist.refl _⟩
        | ok sp =>
          have hext := hb.extends_spill hsp
          exact hext.trans (ih hext.wellFormed _ _)

/-- Allocating in place extends a body, whether it succeeds or not. -/
theorem WellFormed.extends_allocateInPlace {b : Body} (hb : b.WellFormed) (k : Nat) :
    b.Extends (b.allocateInPlace k).2 := by
  unfold allocateInPlace
  split
  · exact ⟨hb, List.Sublist.refl _⟩
  · exact hb.extends_roundsInPlace k _ _ _

/-- **Step lemma.**  An edit lets a body grow. -/
theorem Edit.extends {b c : Body} (h : b.Edit c) (hb : b.WellFormed) : b.Extends c := by
  cases h with
  | push i => exact ⟨hb.push i, List.sublist_append_left _ _⟩
  | insert h => exact hb.extends_insert h
  | pin h => exact hb.extends_modify h
  | setOp h => exact hb.extends_modify h
  | pinConvention f => exact hb.extends_of_sameOps (sameOps_pinConvention hb f)
  | spill h => exact hb.extends_spill h
  | spillInPlace h => exact hb.extends_spill ((hb.spillInPlace_eq _ _ _).symm.trans h)
  | @allocate k a h =>
    have hext := hb.extends_allocateInPlace k
    rwa [allocateInPlace_eq h] at hext
  | allocateInPlace k => exact hb.extends_allocateInPlace k

end Body

/-- Lowered code is executed in the order in which it was written. -/
theorem Lowering.wellFormed_of_run {x : Lower Unit} {t : Traced Body} (h : run x = .ok t) :
    t.value.WellFormed := by
  obtain ⟨⟨⟨⟩, d⟩, -, h⟩ := bind_eq_ok_iff.1 h
  cases h
  exact d.wellFormed_body

/-- A lowered method is well formed. -/
theorem Source.MethodDecl.wellFormed_lower {m : MethodDecl} {t : Traced Code.Method}
    (h : m.lower = .ok t) : t.value.body.WellFormed := by
  obtain ⟨body, hrun, h⟩ := bind_eq_ok_iff.1 h
  cases h
  exact Lowering.wellFormed_of_run hrun

/-- A lowered start of a program is well formed. -/
theorem Source.MainClass.wellFormed_lower {m : MainClass} {t : Traced Code.Method}
    (h : m.lower = .ok t) : t.value.body.WellFormed := by
  obtain ⟨body, hrun, h⟩ := bind_eq_ok_iff.1 h
  cases h
  exact Lowering.wellFormed_of_run hrun

namespace Body

/-- **Run lemma.**  Every body that can be reached is well formed. -/
theorem Reachable.wellFormed {b : Body} (h : b.Reachable) : b.WellFormed := by
  induction h with
  | empty => exact Built.empty.wellFormed
  | method h => exact Source.MethodDecl.wellFormed_lower h
  | main h => exact Source.MainClass.wellFormed_lower h
  | methodOn horder h =>
    exact Source.MethodDecl.wellFormed_lower ((Source.MethodDecl.lowerOn_eq horder _).symm.trans h)
  | mainOn horder h =>
    exact Source.MainClass.wellFormed_lower ((Source.MainClass.lowerOn_eq horder _).symm.trans h)
  | edit _ he ih => exact (he.extends ih).wellFormed

/-- **Positions and instructions are in bijection.**  In every body that can be reached, the order
lists each instruction of the store once: the instruction at a position has that position, and every
instruction has one.  Each edit keeps the old instructions in their relative order. -/
theorem Reachable.positions_bijective {b : Body} (h : b.Reachable) :
    (b.order.Nodup ∧ b.order.Perm (List.range b.store.size)) ∧
    (∀ p < b.size, ∃ id, b.idAt p = .ok id ∧ b.position? id = some p) ∧
    (∀ id < b.size, ∃ p, b.position? id = some p ∧ b.idAt p = .ok id) ∧
    ∀ c, b.Edit c → b.order.Sublist c.order ∧ ∃ f : Nat → Nat, StrictMono f ∧
      ∀ id p, b.position? id = some p → c.position? id = some (f p) := by
  have hb := h.wellFormed
  refine ⟨⟨hb.nodup, hb.order_perm⟩, fun p hp => ?_, fun id hid => ?_, fun c hc => ?_⟩
  · obtain ⟨id, hid⟩ : ∃ id, b.order[p]? = some id := ⟨_, List.getElem?_eq_getElem hp⟩
    exact ⟨id, idAt_eq_ok.2 hid, hb.position?_eq_some.2 hid⟩
  · rw [hb.size_eq] at hid
    obtain ⟨p, hp⟩ := List.mem_iff_getElem?.1 ((hb.mem_order id).2 hid)
    exact ⟨p, hb.position?_eq_some.2 hp, idAt_eq_ok.2 hp⟩
  · have hext := hc.extends hb
    exact ⟨hext.order, hext.exists_strictMono hb⟩

/-- Lowered code, with an instruction in the middle, and then with spill code around the first
variable. -/
theorem Reachable.positions_bijective_twoJoins :
    ∃ t c s sp, Lowering.twoJoins.lower = .ok t ∧
      t.value.body.insert 2 { op := .int 3 } = .ok (14, c) ∧ c.Reachable ∧
      c.order = [0, 1, 14, 2, 3, 4, 5, 6, 7, 8, 9, 10, 11, 12, 13] ∧
      c.order.Perm (List.range c.store.size) ∧ Storage.ofBody c = .ok s ∧
      c.spill s [0] 0 = .ok sp ∧ c.order.Sublist sp.body.order ∧
      sp.body.order = [0, 15, 1, 14, 2, 3, 4, 5, 6, 7, 16, 8, 9, 10, 11, 12, 17, 13] := by
  have htest : Lowering.twoJoins.lower.toOption.any (fun t =>
      (t.value.body.insert 2 { op := .int 3 }).toOption.any fun e => e.1 == 14 &&
        e.2.order == [0, 1, 14, 2, 3, 4, 5, 6, 7, 8, 9, 10, 11, 12, 13] &&
        (Storage.ofBody e.2).toOption.any fun s => (e.2.spill s [0] 0).toOption.any fun sp =>
          sp.body.order == [0, 15, 1, 14, 2, 3, 4, 5, 6, 7, 16, 8, 9, 10, 11, 12, 17, 13]) =
      true := by
    decide +kernel
  obtain ⟨t, ht, htest⟩ := exists_ok_of_any htest
  obtain ⟨⟨id, c⟩, hc, htest⟩ := exists_ok_of_any htest
  rw [Bool.and_eq_true, Bool.and_eq_true, beq_iff_eq, beq_iff_eq] at htest
  obtain ⟨⟨rfl, horder⟩, htest⟩ := htest
  obtain ⟨s, hs, htest⟩ := exists_ok_of_any htest
  obtain ⟨sp, hsp, htest⟩ := exists_ok_of_any htest
  have hreach : c.Reachable := .edit (.method ht) (.insert hc)
  obtain ⟨⟨-, hperm⟩, -, -, hedit⟩ := hreach.positions_bijective
  exact ⟨t, c, s, sp, ht, hc, hreach, horder, hperm, hs, hsp, (hedit _ (.spill hsp)).1,
    beq_iff_eq.1 htest⟩

end Body

end Backend
