/-
# Running a body with spill code

A body with spill code does what the body it was made from does: in front of an instruction its
loads bring the values of spilled classes from their slots, behind it the store takes the new value
there.  While a class is live, its cell holds the same value in both bodies, and its slot, if it has
one, holds that value, too (`SameValues`).
-/
import Mathlib
import Backend.Proofs.Machine
import Backend.Proofs.Rounds

namespace Backend

variable {Val World : Type} {m : Meaning Val World}

namespace Body.Expands

variable {b c : Body} {slots : SlotMap} {start fresh : Nat → Nat} {s t : Storage} {next : Nat}
  {vars : List Nat}

/-- The body with spill code is at the beginning of what the next instruction of the old body has
become, and holds the same values. -/
structure SameValues (b : Body) (slots : SlotMap) (start : Nat → Nat) (s t : Storage) (next : Nat)
    (σ τ : Config (Option Nat) Val World) : Prop where
  pc : τ.pc = start σ.pc
  pc_le : σ.pc ≤ b.size
  world : τ.world = σ.world
  cells : ∀ x, b.LiveAt x σ.pc → τ.cells (t.var? x) = σ.cells (s.var? x)
  /-- The slot of a spilled class holds its value. -/
  spilled : ∀ x q, b.LiveAt x σ.pc → slots.slotOf x = some q → τ.slots q = σ.cells (s.var? x)
  slots : ∀ q < next, τ.slots q = σ.slots q

section

variable (hx : b.Expands c slots start fresh) (hb : b.Closed) (hu : slots.Uniform b)
  (ht : t.Describes c)

include hx hb hu ht

/-- A fresh instruction has a cell of its own. -/
theorem var?_ne_fresh {x y : Nat} (hne : x ≠ y) (hxc : x < c.store.size) (hyc : y < c.store.size)
    (hy : b.store.size ≤ y) : t.var? x ≠ t.var? y := by
  intro heq
  have hlink := (hx.linked_iff hb.toWellFormed hu).1
    ((linked_equivalence c).symm ((ht.var?_eq_iff hxc hyc).1 heq))
  exact hne (hlink.eq_of_le hb hy).symm

/-- **The loads** fill the cells of the loads and change nothing else. -/
theorem path_loads {p id : Nat} {i : Instr} (hp : b.toList[p]? = some (id, i))
    {τ : Config (Option Nat) Val World} (hpc : τ.pc = start p) {n : Nat}
    (hn : n ≤ (slots.toLoad id i.op).length) :
    ∃ es τ', Path (m.step c t.var?) es τ τ' ∧ (∀ e ∈ es, b.store.size ≤ e.instr) ∧
      τ'.pc = start p + n ∧ τ'.world = τ.world ∧ τ'.slots = τ.slots ∧
      (∀ x < b.store.size, τ'.cells (t.var? x) = τ.cells (t.var? x)) ∧
      ∀ j < n, ∀ q, (slots.toLoad id i.op)[j]? = some q →
        τ'.cells (t.var? (fresh p + j)) = τ.slots q := by
  -- induction on the number of loads that have been made
  induction n with
  | zero =>
    exact ⟨[], τ, .nil τ, fun e he => absurd he List.not_mem_nil, hpc, rfl, rfl, fun x _ => rfl,
      fun j hj => absurd hj (Nat.not_lt_zero j)⟩
  | succ n ih =>
    obtain ⟨es, τ', hpath, hes, hpc', hworld, hslots, hold, hnew⟩ := ih (by omega)
    have hq := List.getElem?_eq_getElem (Nat.lt_of_succ_le hn)
    have hentry := hx.getElem?_load hp hq
    have hfresh : ∀ j ≤ n, fresh p + j < c.store.size := by
      intro j hj
      have hj' := hx.getElem?_load hp (List.getElem?_eq_getElem (by omega : j < _))
      exact lt_size_of_getElem? (hx.wellFormed.getElem?_toList_eq_some.1 hj').2
    have hle := hx.le_fresh p
    have hstep : m.step c t.var? τ' = some (m.execute c t.var? τ' (fresh p + n) (.load _)) :=
      Meaning.step_eq (by rw [hpc']; exact hentry)
    refine ⟨es ++ [_], _, hpath.append (.single hstep), ?_, ?_, hworld, hslots, ?_, ?_⟩
    · intro e he
      rcases List.mem_append.1 he with he | he
      · exact hes e he
      · rw [List.mem_singleton.1 he]
        exact le_trans hle (Nat.le_add_right _ _)
    · show τ'.pc + 1 = _
      rw [hpc', Nat.add_assoc]
    · intro x hxb
      rw [← hold x hxb]
      exact Function.update_of_ne (hx.var?_ne_fresh hb hu ht (by omega)
        (lt_of_lt_of_le hxb hx.size_le) (hfresh n (le_refl n)) (by omega)) _ _
    · intro j hj q hjq
      rcases Nat.lt_or_eq_of_le (Nat.le_of_lt_succ hj) with hj | rfl
      · rw [← hnew j hj q hjq]
        exact Function.update_of_ne (hx.var?_ne_fresh hb hu ht (by omega)
          (hfresh j (by omega)) (hfresh n (le_refl n)) (by omega)) _ _
      · obtain rfl := Option.some.inj (hq.symm.trans hjq)
        rw [← hslots]
        exact Function.update_self _ _ _

omit hu ht in
theorem labelAt (l : Label) : c.labelAt l = start (b.labelAt l) := by
  rw [Body.labelAt, Body.labelAt]
  cases hpos : FlowGraph.labelPosition? b.ops l with
  | some q => rw [(hx.labelPosition? hb.toWellFormed).2 ⟨q, hpos, rfl⟩]; rfl
  | none =>
    have hnone : FlowGraph.labelPosition? c.ops l = none := by
      rw [Option.eq_none_iff_forall_ne_some]
      intro q hq
      obtain ⟨p, hp, -⟩ := (hx.labelPosition? hb.toWellFormed).1 hq
      rw [hpos] at hp
      exact absurd hp (by simp)
    rw [hnone]
    exact hx.size_eq

omit hu ht in
/-- **An instruction and its store** do what the instruction did, and take the new value of a
spilled class to its slot. -/
theorem path_main {p id : Nat} {i : Instr} (hp : b.toList[p]? = some (id, i))
    {σ τ : Config (Option Nat) Val World} (hσ : σ.pc = p)
    (hpc : τ.pc = start p + (slots.toLoad id i.op).length)
    (hreads : τ.reads t.var? (written slots (fresh p) id i).op = σ.reads s.var? i.op)
    (hact : m.act i.op (σ.reads s.var? i.op) τ.slots τ.world =
      m.act i.op (σ.reads s.var? i.op) σ.slots σ.world) :
    ∃ es τ', Path (m.step c t.var?) ((m.execute b s.var? σ id i.op).1 :: es) τ τ' ∧
      (∀ e ∈ es, b.store.size ≤ e.instr) ∧ τ'.pc = start (m.execute b s.var? σ id i.op).2.pc ∧
      τ'.world = (m.execute b s.var? σ id i.op).2.world ∧
      τ'.cells = Meaning.write i.op (m.execute b s.var? σ id i.op).1.result (t.var? id) τ.cells ∧
      τ'.slots = match slots.toStore id i.op with
        | none => Meaning.save i.op (σ.reads s.var? i.op) τ.slots
        | some q => Function.update (Meaning.save i.op (σ.reads s.var? i.op) τ.slots) q
            (τ'.cells (t.var? id)) := by
  have hact' : m.act (written slots (fresh p) id i).op (σ.reads s.var? i.op) τ.slots τ.world =
      m.act i.op (σ.reads s.var? i.op) σ.slots σ.world := by
    rw [op_written, Meaning.act_mapOperands, hact]
  have hstep : m.step c t.var? τ =
      some (m.execute c t.var? τ id (written slots (fresh p) id i).op) :=
    Meaning.step_eq (by rw [hpc]; exact hx.getElem?_main hp)
  have hevent : (m.execute c t.var? τ id (written slots (fresh p) id i).op).1 =
      (m.execute b s.var? σ id i.op).1 := Meaning.execute_fst_congr hreads hact'
  have hcells : (m.execute c t.var? τ id (written slots (fresh p) id i).op).2.cells =
      Meaning.write i.op (m.execute b s.var? σ id i.op).1.result (t.var? id) τ.cells := by
    simp only [Meaning.execute, hreads, hact']
    rw [op_written, Meaning.write_mapOperands]
  have hsaved : (m.execute c t.var? τ id (written slots (fresh p) id i).op).2.slots =
      Meaning.save i.op (σ.reads s.var? i.op) τ.slots := by
    simp only [Meaning.execute, hreads]
    rw [op_written, Meaning.save_mapOperands]
  have hworld : (m.execute c t.var? τ id (written slots (fresh p) id i).op).2.world =
      (m.execute b s.var? σ id i.op).2.world := by
    simp only [Meaning.execute, hreads, hact']
  have hnext : (m.execute c t.var? τ id (written slots (fresh p) id i).op).2.pc =
      m.next c i.op (σ.reads s.var? i.op) (start p + (slots.toLoad id i.op).length) := by
    simp only [Meaning.execute, hreads, hpc]
    rw [op_written, Meaning.next_mapOperands]
  have hsucc := hx.start_succ p id i hp
  rw [SlotMap.extra] at hsucc
  -- from here on only these five facts about the step count
  generalize m.execute c t.var? τ id (written slots (fresh p) id i).op = done at *
  obtain ⟨e, τ₁⟩ := done
  obtain rfl : e = _ := hevent
  cases hstore : slots.toStore id i.op with
  | none =>
    rw [hstore, Option.toList_none, List.length_nil] at hsucc
    refine ⟨[], τ₁, .single hstep, fun e he => absurd he List.not_mem_nil, ?_, hworld, hcells,
      hsaved⟩
    rw [hnext, Meaning.next_congr (hx.labelAt hb) (p := σ.pc) (by rw [hσ, hsucc]; omega)]
    rfl
  | some q =>
    rw [hstore, Option.toList_some, List.length_singleton] at hsucc
    -- only an instruction that leaves a value is followed by a store, so control gets there
    have hdef := (SlotMap.toStore_eq_some.1 hstore).1
    rw [Meaning.next_of_definesValue hdef, Nat.add_assoc] at hnext
    have hstep' : m.step c t.var? τ₁ = some (m.execute c t.var? τ₁
        (fresh p + (slots.toLoad id i.op).length) (.store id q)) :=
      Meaning.step_eq (by rw [hnext]; exact hx.getElem?_store hp hstore)
    refine ⟨[(m.execute c t.var? τ₁ (fresh p + (slots.toLoad id i.op).length) (.store id q)).1],
      (m.execute c t.var? τ₁ (fresh p + (slots.toLoad id i.op).length) (.store id q)).2,
      .cons hstep (.single hstep'), ?_, ?_, hworld, hcells, ?_⟩
    · intro e he
      rw [List.mem_singleton.1 he]
      exact le_trans (hx.le_fresh p) (Nat.le_add_right _ _)
    · show τ₁.pc + 1 = start (m.next b i.op _ σ.pc)
      rw [hnext, Meaning.next_of_definesValue hdef, hσ, hsucc]
      omega
    · show Function.update τ₁.slots q (τ₁.cells (t.var? id)) = _
      rw [hsaved]
      rfl

end

section

variable (hx : b.Expands c slots start fresh) (hb : b.Tidy next) (hs : s.Describes b)
  (ht : t.Describes c) (hslots : slots.Gives s next vars)

include hb

/-- When the loads have been made, an instruction reads the values it read before. -/
theorem reads_eq {p id : Nat} {i : Instr} (hp : b.toList[p]? = some (id, i))
    {σ τ τ₁ : Config (Option Nat) Val World} (hσ : σ.pc = p)
    (h : SameValues b slots start s t next σ τ)
    (hold : ∀ x < b.store.size, τ₁.cells (t.var? x) = τ.cells (t.var? x))
    (hnew : ∀ j < (slots.toLoad id i.op).length, ∀ q, (slots.toLoad id i.op)[j]? = some q →
      τ₁.cells (t.var? (fresh p + j)) = τ.slots q) :
    τ₁.reads t.var? (written slots (fresh p) id i).op = σ.reads s.var? i.op := by
  rw [Config.reads, Config.reads, op_written, Op.operands_mapOperands, List.map_map]
  refine List.map_congr_left fun o ho => ?_
  have hlive : b.LiveAt o σ.pc := by
    rw [hσ]
    exact liveAt_of_mem_operands hb.toWellFormed hp ho
  show τ₁.cells (t.var? (slots.redirect (slots.toLoad id i.op) (fresh p) o)) = _
  rcases slots.redirect_cases (slots.toLoad id i.op) (fresh p) o with ⟨heq, -⟩ | ⟨q, n, hq, hn, heq⟩
  · rw [heq, hold o (hlive.lt_size hb.toClosed), h.cells o hlive]
  · rw [heq, hnew n (List.getElem?_eq_some_iff.1 hn).1 q hn, h.spilled o q hlive hq]

include hx hs ht hslots

/-- A value that is live after an instruction has just been written, and then it goes to the slot of
its class; or it was live before, and neither its cells nor its slot have been written. -/
theorem written_or_kept {σ : Config (Option Nat) Val World} {id : Nat} {i : Instr}
    (hp : b.toList[σ.pc]? = some (id, i)) (cells : Option Nat → Val) {x : Nat}
    (hlive : b.LiveAt x (m.execute b s.var? σ id i.op).2.pc) :
    (slots.toStore id i.op = slots.slotOf x ∧
      ∀ y ∈ [x, id], Meaning.write i.op (m.execute b s.var? σ id i.op).1.result (t.var? id) cells
        (t.var? y) = (m.execute b s.var? σ id i.op).2.cells (s.var? x)) ∨
    (b.LiveAt x σ.pc ∧ (∀ q, slots.slotOf x = some q → slots.toStore id i.op ≠ some q) ∧
      Meaning.write i.op (m.execute b s.var? σ id i.op).1.result (t.var? id) cells (t.var? x) =
        cells (t.var? x) ∧
      (m.execute b s.var? σ id i.op).2.cells (s.var? x) = σ.cells (s.var? x)) := by
  have hu := hslots.uniform hb.toClosed hs
  have hlt := hlive.lt_size hb.toClosed
  have hid := lt_size_of_getElem? (hb.getElem?_toList_eq_some.1 hp).2
  have hvar : t.var? x = t.var? id ↔ b.Linked id x := by
    rw [← hx.linked_iff hb.toWellFormed hu, eq_comm]
    exact ht.var?_eq_iff (lt_of_lt_of_le hid hx.size_le) (lt_of_lt_of_le hlt hx.size_le)
  have hvar' : s.var? x = s.var? id ↔ b.Linked id x := by
    rw [eq_comm]
    exact hs.var?_eq_iff hid hlt
  have hpass := Meaning.passes_of_liveAt hb.toClosed hp hlive
  simp only [Meaning.execute]
  rcases hlive.of_passes hp hpass with ⟨hdef, hunify, hlink⟩ | ⟨hbefore, hnot⟩
  · left
    obtain ⟨v, hv⟩ := m.exists_result hdef hunify (σ.reads s.var? i.op) σ.slots σ.world
    have hstore : slots.toStore id i.op = slots.slotOf id := by
      rw [SlotMap.toStore, hdef, hunify]
      rfl
    refine ⟨hstore.trans (hu id x hlink), fun y hy => ?_⟩
    have hy : t.var? y = t.var? id := by
      rcases List.mem_pair.1 hy with rfl | rfl
      · exact hvar.2 hlink
      · rfl
    rw [hv, hy, hvar'.2 hlink, Meaning.write_self hdef, Meaning.write_self hdef]
  · right
    refine ⟨hbefore, fun q hq hstore => ?_, ?_, ?_⟩
    · obtain ⟨hdef, hunify, hid⟩ := SlotMap.toStore_eq_some.1 hstore
      exact hnot hdef hunify (hvar'.1 (hslots.var?_eq hq hid))
    · exact Meaning.write_act_of_ne fun hdef hunify h' => hnot hdef hunify (hvar.1 h')
    · exact Meaning.write_act_of_ne fun hdef hunify h' => hnot hdef hunify (hvar'.1 h')

/-- **Step lemma.**  One step of the old body is a path of the body with spill code. -/
theorem exists_path {σ τ : Config (Option Nat) Val World}
    (h : SameValues b slots start s t next σ τ) {id : Nat} {i : Instr}
    (hp : b.toList[σ.pc]? = some (id, i)) :
    ∃ es τ', Path (m.step c t.var?) es τ τ' ∧
      es.filter (fun e => e.instr < b.store.size) = [(m.execute b s.var? σ id i.op).1] ∧
      SameValues b slots start s t next (m.execute b s.var? σ id i.op).2 τ' := by
  have hu := hslots.uniform hb.toClosed hs
  have hi := (hb.getElem?_toList_eq_some.1 hp).2
  obtain ⟨es₁, τ₁, hpath₁, hes₁, hpc₁, hworld₁, hslots₁, hold, hnew⟩ :=
    hx.path_loads (m := m) hb.toClosed hu ht hp h.pc (le_refl _)
  have hreads := reads_eq hb hp rfl h hold hnew
  have hact : m.act i.op (σ.reads s.var? i.op) τ₁.slots τ₁.world =
      m.act i.op (σ.reads s.var? i.op) σ.slots σ.world := by
    rw [hslots₁, hworld₁, h.world]
    exact Meaning.act_congr
      (fun q hq => h.slots q (hb.slot_lt id i hi q (Or.inr (Or.inl hq)))) _ _
  obtain ⟨es₂, τ₂, hpath₂, hes₂, hpc₂, hworld₂, hcells₂, hslots₂⟩ :=
    hx.path_main hb.toClosed hp rfl hpc₁ hreads hact
  have hkept : (m.execute b s.var? σ id i.op).1.instr < b.store.size := lt_size_of_getElem? hi
  have hhidden : ∀ es : List (Executed Val World), (∀ e ∈ es, b.store.size ≤ e.instr) →
      es.filter (fun e => e.instr < b.store.size) = [] := by
    intro es hes
    refine List.filter_eq_nil_iff.2 fun e he => ?_
    simpa using hes e he
  -- what is live afterwards is either new, in its cells and its slot, or as it was
  have hcases := fun x => hx.written_or_kept (m := m) hb hs ht hslots hp τ₁.cells (x := x)
  rw [← hcells₂] at hcases
  have hsaved : ∀ q, slots.toStore id i.op ≠ some q →
      τ₂.slots q = Meaning.save i.op (σ.reads s.var? i.op) τ.slots q := by
    intro q hq
    rw [hslots₂, hslots₁]
    cases hstore : slots.toStore id i.op with
    | none => rfl
    | some q' =>
      exact Function.update_of_ne (fun h' => hq (by rw [hstore, h'])) _ _
  refine ⟨_, τ₂, hpath₁.append hpath₂, ?_, hpc₂, Meaning.next_le_size hb.toClosed hp _, hworld₂,
    ?_, ?_, ?_⟩
  · rw [List.filter_append, hhidden es₁ hes₁, List.nil_append,
      List.filter_cons_of_pos (by simpa using hkept), hhidden es₂ hes₂]
  · intro x hlive
    rcases hcases x hlive with ⟨-, hcell⟩ | ⟨hbefore, -, hcell, hcell'⟩
    · exact hcell x List.mem_cons_self
    · rw [hcell, hcell', hold x (hbefore.lt_size hb.toClosed), h.cells x hbefore]
  · intro x q hlive hq
    rcases hcases x hlive with ⟨hstore, hcell⟩ | ⟨hbefore, hstore, -, hcell'⟩
    · rw [hslots₂, hstore, hq, ← hcell id (List.mem_cons_of_mem _ List.mem_cons_self)]
      exact Function.update_self _ _ _
    · -- the slots of the classes are new, so no store of the old body writes them
      have hne : ∀ v, i.op ≠ .store v q := by
        intro v hop
        have := hb.slot_lt id i hi q (Or.inr (Or.inr ⟨v, hop⟩))
        have := (hslots.bounds hq).1
        omega
      rw [hsaved q (hstore q hq), Meaning.save_of_ne hne, h.spilled x q hbefore hq, hcell']
  · intro q hq
    rw [hsaved q fun hstore => ?_]
    · exact Meaning.save_congr (h.slots q hq)
    · have := (hslots.bounds (SlotMap.toStore_eq_some.1 hstore).2.2).1
      omega

/-- **Spill code preserves behaviour.** -/
theorem follows {σ τ : Config (Option Nat) Val World}
    (h : SameValues b slots start s t next σ τ) :
    Follows (fun e => e.instr < b.store.size) (m.step b s.var?) (m.step c t.var?) σ τ := by
  refine .of_simulation (SameValues b slots start s t next) ?_ ?_ h
  · intro σ τ h e σ' hstep
    obtain ⟨id, i, hp, rfl, rfl⟩ := Meaning.exists_of_step hstep
    exact hx.exists_path hb hs ht hslots h hp
  · intro σ τ h hnone
    rw [Meaning.step_eq_none, hb.length_toList] at hnone
    rw [Meaning.step_eq_none, hx.wellFormed.length_toList, h.pc, hx.size_eq,
      le_antisymm h.pc_le hnone]

end

end Body.Expands

end Backend
