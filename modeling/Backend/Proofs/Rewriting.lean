/-
# What rounds leave as it is

Rounds of allocation rewrite a body again and again.  `Body.Retained` collects what is left of a
body after any number of them: its instructions keep their kind and their pin, classes keep their
members and their order, slots once given stay, and no two values are live together that were not
before.  One round retains all this (`Body.Rewrites.retained`), and so do a run
(`Body.RewritesTo.retained`) and an allocation (`Body.Closed.retained_allocate`).
-/
import Mathlib
import Backend.Proofs.Validity

namespace Backend

/-! ## Live together -/

namespace Body

/-- The value of the class of an instruction is there behind a position: it has just been written,
or it is needed where control goes. -/
def LiveBehind (b : Body) (x p : Nat) : Prop :=
  (∃ id i, b.toList[p]? = some (id, i) ∧ i.op.definesValue = true ∧ b.Linked id x) ∨
    ∃ q, b.Passes p q ∧ b.LiveAt x q

/-- The values of two classes are live together, in front of some position or behind it. -/
def Together (b : Body) (x y : Nat) : Prop :=
  ∃ p, (b.LiveAt x p ∧ b.LiveAt y p) ∨ (b.LiveBehind x p ∧ b.LiveBehind y p)

theorem LiveBehind.exists_entry {b : Body} {x p : Nat} (h : b.LiveBehind x p) :
    ∃ id i, b.toList[p]? = some (id, i) := by
  rcases h with ⟨id, i, hp, -⟩ | ⟨q, hq, -⟩
  · exact ⟨id, i, hp⟩
  · have hop : ∃ op, b.ops[p]? = some op := by
      rcases hq with ⟨op, hop, -⟩ | ⟨op, -, hop, -⟩ <;> exact ⟨op, hop⟩
    obtain ⟨op, hop⟩ := hop
    rw [getElem?_ops] at hop
    obtain ⟨⟨id, i⟩, hp, -⟩ := Option.map_eq_some_iff.1 hop
    exact ⟨id, i, hp⟩

end Body

section Round

variable {r : Round} {b : Body} {k : Nat} (h : r.Describes b k) (hb : b.Closed)

include h hb

/-- The exit liveness of the graph is that of the body. -/
theorem Round.Describes.liveOut_iff {x v p : Nat} (hx : r.storage.var? x = some v) :
    v ∈ r.flow.liveOut p ↔ b.LiveBehind x p := by
  have hlink : ∀ {id : Nat}, r.storage.var? id = some v ↔ b.Linked id x := by
    intro id
    constructor
    · intro hid
      have hid' := h.storage.lt_size hid
      exact (h.storage.var?_eq_iff hid' (h.storage.lt_size hx)).1 (hid.trans hx.symm)
    · intro hid
      exact (h.storage.var?_eq_of_linked hb hid).trans hx
  rw [h.solved.liveOut_iff]
  constructor
  · rintro ⟨n, hn, hdef | ⟨q, hq, hlive⟩⟩
    · obtain ⟨w, hw, -⟩ := Option.map_eq_some_iff.1 hn
      have hlt : p < b.toList.length := by
        rw [hb.length_toList, ← h.flow.size_eq]
        exact (Array.getElem?_eq_some_iff.1 hw).1
      obtain ⟨n', hn', -, hdef', -⟩ := h.flow.node p _ _ (List.getElem?_eq_getElem hlt)
      obtain rfl : n = n' := Option.some.inj (hn.symm.trans hn')
      rw [hdef'] at hdef
      split at hdef
      · rename_i hval
        exact Or.inl ⟨_, _, List.getElem?_eq_getElem hlt, hval, hlink.1 hdef⟩
      · exact absurd hdef (by simp)
    · exact Or.inr ⟨q, (h.flow.succ_iff p q).1 hq, (h.liveIn_iff hb hx).1 hlive⟩
  · intro hlive
    obtain ⟨id, i, hp⟩ := hlive.exists_entry
    obtain ⟨n, hn, -, hdef, -⟩ := h.flow.node p id i hp
    refine ⟨n, hn, ?_⟩
    rcases hlive with ⟨id', i', hp', hval, hid⟩ | ⟨q, hq, hlive⟩
    · obtain ⟨rfl, rfl⟩ := Prod.mk.inj (Option.some.inj (hp.symm.trans hp'))
      left
      rw [hdef, if_pos hval]
      exact hlink.2 hid
    · exact Or.inr ⟨q, (h.flow.succ_iff p q).2 hq, (h.liveIn_iff hb hx).2 hlive⟩

/-- **Two variables occur in one live set exactly if their classes are live together.** -/
theorem Round.Describes.together_iff {x y v w : Nat} (hx : r.storage.var? x = some v)
    (hy : r.storage.var? y = some w) :
    (∃ live ∈ Interference.liveSets r.flow, v ∈ live ∧ w ∈ live) ↔ b.Together x y := by
  constructor
  · rintro ⟨live, hlive, hv, hw⟩
    obtain ⟨n, hn, hlive⟩ := List.mem_flatMap.1 hlive
    obtain ⟨p, hp⟩ := List.getElem?_of_mem hn
    rw [Array.getElem?_toList] at hp
    have hval : r.flow.val? p = some n.val := by
      rw [Digraph.val?, hp]
      rfl
    have hin : r.flow.liveIn p = n.val.liveIn := by rw [FlowGraph.liveIn, hval]; rfl
    have hout : r.flow.liveOut p = n.val.liveOut := by rw [FlowGraph.liveOut, hval]; rfl
    refine ⟨p, ?_⟩
    rcases List.mem_pair.1 hlive with rfl | rfl
    · rw [← hin] at hv hw
      exact Or.inl ⟨(h.liveIn_iff hb hx).1 hv, (h.liveIn_iff hb hy).1 hw⟩
    · rw [← hout] at hv hw
      exact Or.inr ⟨(h.liveOut_iff hb hx).1 hv, (h.liveOut_iff hb hy).1 hw⟩
  · rintro ⟨p, ⟨hpx, hpy⟩ | ⟨hpx, hpy⟩⟩
    · have hv := (h.liveIn_iff hb hx).2 hpx
      exact ⟨_, (Body.mem_liveSets (p := p)).1 hv, hv, (h.liveIn_iff hb hy).2 hpy⟩
    · have hv := (h.liveOut_iff hb hx).2 hpx
      exact ⟨_, (Body.mem_liveSets (p := p)).2 hv, hv, (h.liveOut_iff hb hy).2 hpy⟩

end Round

namespace Body

/-- The variables of two instructions occur in one live set, in front of some position or behind
it. -/
def LiveTogether (b : Body) (x y : Nat) : Prop :=
  ∃ s g v w, Storage.ofBody b = .ok s ∧ FlowGraph.ofBody b s = .ok g ∧ s.var? x = some v ∧
    s.var? y = some w ∧ ∃ live ∈ Interference.liveSets g.analyze.2, v ∈ live ∧ w ∈ live

/-- On closed code the computed live sets say which classes are live together. -/
theorem Closed.liveTogether_iff {b : Body} (hb : b.Closed) {x y : Nat} (hx : x < b.store.size)
    (hy : y < b.store.size) : b.LiveTogether x y ↔ b.Together x y := by
  obtain ⟨r, -, hr⟩ := hb.exists_round 0
  obtain ⟨g, hg, hflow⟩ := hr.flow_eq
  constructor
  · rintro ⟨s, g', v, w, hs, hg', hxv, hyw, hlive⟩
    obtain rfl : r.storage = s := Except.ok.inj (hr.storage_eq.symm.trans hs)
    obtain rfl : g = g' := Except.ok.inj (hg.symm.trans hg')
    rw [← hflow] at hlive
    exact (hr.together_iff hb hxv hyw).1 hlive
  · intro h
    obtain ⟨v, hxv⟩ := hr.storage.total x hx
    obtain ⟨w, hyw⟩ := hr.storage.total y hy
    have hlive := (hr.together_iff hb hxv hyw).2 h
    rw [hflow] at hlive
    exact ⟨r.storage, g, v, w, hr.storage_eq, hg, hxv, hyw, hlive⟩

end Body

/-! ## One expansion -/

namespace Body.Expands

variable {b c : Body} {slots : SlotMap} {start fresh : Nat → Nat}
  (hx : b.Expands c slots start fresh) (hb : b.Closed) (hslots : slots.Uniform b)

include hx hb hslots

/-- A load or store is alone in its class. -/
theorem not_linked_fresh {x n : Nat} (hlt : x < b.store.size) (p : Nat) :
    ¬ c.Linked (fresh p + n) x := by
  intro h
  have hle := hx.le_fresh p
  have := ((hx.linked_iff hb.toWellFormed hslots).1 h).eq_of_le hb (by omega)
  omega

/-- What is live in front of an instruction or one of its loads was live in front of the
instruction. -/
theorem liveAt_old {x p id n : Nat} {i : Instr} (hlt : x < b.store.size)
    (hp : b.toList[p]? = some (id, i)) (hn : n ≤ (slots.toLoad id i.op).length)
    (h : c.LiveAt x (start p + n)) : b.LiveAt x p := by
  rcases (hx.liveAt_of_liveAt hb hslots h hp rfl).1 hn with h | ⟨m, -, hlink⟩
  · exact h
  · exact absurd hlink (hx.not_linked_fresh hb hslots hlt p)

/-- What is live where control enters an instruction was live there. -/
theorem liveAt_start {x p p' : Nat} (hlt : x < b.store.size) (hp : b.Passes p p')
    (h : c.LiveAt x (start p')) : b.LiveAt x p' := by
  obtain ⟨id, i, hentry⟩ := hp.exists_entry hb.toWellFormed
  exact hx.liveAt_old hb hslots hlt (n := 0) hentry (Nat.zero_le _) h

/-- What is live between an instruction and its store was live behind the instruction. -/
theorem liveBehind_of_liveAt_store {x p id s : Nat} {i : Instr} (hp : b.toList[p]? = some (id, i))
    (hs : slots.toStore id i.op = some s)
    (h : c.LiveAt x (start p + ((slots.toLoad id i.op).length + 1))) : b.LiveBehind x p := by
  rcases (hx.liveAt_of_liveAt hb hslots h hp rfl).2 s hs rfl with h | h
  · exact Or.inl ⟨id, i, hp, (SlotMap.toStore_eq_some.1 hs).1, h⟩
  · exact Or.inr h

/-- What is live behind an instruction or its store was live behind the instruction. -/
theorem liveBehind_old {x p id n : Nat} {i : Instr} (hlt : x < b.store.size)
    (hp : b.toList[p]? = some (id, i))
    (hn : n = (slots.toLoad id i.op).length ∨
      ∃ s, slots.toStore id i.op = some s ∧ n = (slots.toLoad id i.op).length + 1)
    (h : c.LiveBehind x (start p + n)) : b.LiveBehind x p := by
  rcases hn with rfl | ⟨s, hs, rfl⟩
  · rcases h with ⟨id', j, hj, hdef, hlink⟩ | ⟨q, hq, hlive⟩
    · obtain ⟨rfl, rfl⟩ := Prod.mk.inj (Option.some.inj ((hx.getElem?_main hp).symm.trans hj))
      rw [op_written, Op.definesValue_mapOperands] at hdef
      exact Or.inl ⟨_, i, hp, hdef, (hx.linked_iff hb.toWellFormed hslots).1 hlink⟩
    · cases hs : slots.toStore id i.op with
      | some s =>
        obtain rfl := hx.passes_main_store hp hs hq
        exact hx.liveBehind_of_liveAt_store hb hslots hp hs hlive
      | none =>
        obtain ⟨p', hp', rfl⟩ := hx.passes_main hb.toWellFormed hp hs hq
        exact Or.inr ⟨p', hp', hx.liveAt_start hb hslots hlt hp' hlive⟩
  · rcases h with ⟨id', j, hj, hdef, -⟩ | ⟨q, hq, hlive⟩
    · obtain ⟨rfl, rfl⟩ := Prod.mk.inj (Option.some.inj ((hx.getElem?_store hp hs).symm.trans hj))
      exact absurd hdef (by simp [Op.definesValue])
    · obtain ⟨p', hp', rfl⟩ := hx.passes_store hb.toWellFormed hp hs hq
      exact Or.inr ⟨p', hp', hx.liveAt_start hb hslots hlt hp' hlive⟩

/-- **Spill code brings no values together** that were not live together before. -/
theorem together_old {x y : Nat} (hxlt : x < b.store.size) (hylt : y < b.store.size)
    (h : c.Together x y) : b.Together x y := by
  obtain ⟨q, ⟨hqx, hqy⟩ | ⟨hqx, hqy⟩⟩ := h
  · obtain ⟨id', j, hq⟩ := hqx.exists_entry
    obtain ⟨p, id, i, hp, ⟨n, s, rfl, hn, -⟩ | ⟨rfl, -⟩ | ⟨s, hs, rfl, -⟩⟩ := hx.cases_getElem? hq
    · have hle := le_of_lt (List.getElem?_eq_some_iff.1 hn).1
      exact ⟨p, Or.inl ⟨hx.liveAt_old hb hslots hxlt hp hle hqx,
        hx.liveAt_old hb hslots hylt hp hle hqy⟩⟩
    · exact ⟨p, Or.inl ⟨hx.liveAt_old hb hslots hxlt hp (le_refl _) hqx,
        hx.liveAt_old hb hslots hylt hp (le_refl _) hqy⟩⟩
    · exact ⟨p, Or.inr ⟨hx.liveBehind_of_liveAt_store hb hslots hp hs hqx,
        hx.liveBehind_of_liveAt_store hb hslots hp hs hqy⟩⟩
  · obtain ⟨id', j, hq⟩ := hqx.exists_entry
    obtain ⟨p, id, i, hp, ⟨n, s, rfl, hn, -⟩ | ⟨rfl, -⟩ | ⟨s, hs, rfl, -⟩⟩ := hx.cases_getElem? hq
    · -- behind a load, in front of what comes after it
      have hload : ∀ {z : Nat}, z < b.store.size → c.LiveBehind z (start p + n) →
          b.LiveAt z p := by
        rintro z hz (⟨id', j, hj, -, hlink⟩ | ⟨q, hq, hlive⟩)
        · obtain ⟨rfl, -⟩ := Prod.mk.inj (Option.some.inj ((hx.getElem?_load hp hn).symm.trans hj))
          exact absurd hlink (hx.not_linked_fresh hb hslots hz p)
        · obtain rfl := hx.passes_load hp hn hq
          exact hx.liveAt_old hb hslots hz hp (List.getElem?_eq_some_iff.1 hn).1 hlive
      exact ⟨p, Or.inl ⟨hload hxlt hqx, hload hylt hqy⟩⟩
    · exact ⟨p, Or.inr ⟨hx.liveBehind_old hb hslots hxlt hp (Or.inl rfl) hqx,
        hx.liveBehind_old hb hslots hylt hp (Or.inl rfl) hqy⟩⟩
    · exact ⟨p, Or.inr ⟨hx.liveBehind_old hb hslots hxlt hp (Or.inr ⟨s, hs, rfl⟩) hqx,
        hx.liveBehind_old hb hslots hylt hp (Or.inr ⟨s, hs, rfl⟩) hqy⟩⟩

end Body.Expands

/-! ## What is retained -/

theorem Op.mapOperands_mapOperands (f g : Nat → Nat) (op : Op) :
    (op.mapOperands f).mapOperands g = op.mapOperands (g ∘ f) := by
  cases op with
  | call t m args =>
    have hargs : overwrite (args.map f) (args.map (g ∘ f)) = args.map (g ∘ f) := by
      rw [← List.map_map, overwrite_map]
    simp [mapOperands, withOperands, operands, overwrite_map, hargs]
  | _ => simp [mapOperands, withOperands, operands]

namespace Body

/-- What is left of the body `b` in the body `c` that rounds have made of it, when they have spilled
to the slots from `lo` to below `hi`. -/
structure Retained (b c : Body) (lo hi : Nat) : Prop where
  closed : c.Closed
  size_le : b.store.size ≤ c.store.size
  slot_le : lo ≤ hi
  linked_iff : ∀ x y, c.Linked x y ↔ b.Linked x y
  /-- An old instruction is of the same kind and has the same pin. -/
  old : ∀ (x : Nat) (i : Instr), b.store[x]? = some i →
    ∃ j f, c.store[x]? = some j ∧ j.op = i.op.mapOperands f ∧ j.pin = i.pin
  /-- A new instruction is a load or a store. -/
  new : ∀ (x : Nat) (j : Instr), c.store[x]? = some j → b.store.size ≤ x →
    j.op.accessesSlot = true ∧ j.pin = none ∧ j.slot = none
  slot_kept : ∀ x q, b.slot? x = some q → c.slot? x = some q
  slot_given : ∀ x q, b.slot? x = none → c.slot? x = some q → lo ≤ q ∧ q < hi ∧
    ∃ i, b.store[x]? = some i ∧ i.op.accessesSlot = false
  /-- A slot is given to one class. -/
  slot_linked : ∀ x y q, b.slot? x = none → b.slot? y = none → c.slot? x = some q →
    c.slot? y = some q → b.Linked x y
  renames : ∀ s t, Storage.ofBody b = .ok s → Storage.ofBody c = .ok t →
    ∃ f, Renumbers f b c ∧ Storage.Renames f b c s t
  together : ∀ x y, x < b.store.size → y < b.store.size → c.Together x y → b.Together x y

namespace Retained

/-- A body retains itself. -/
theorem refl {b : Body} (hb : b.Closed) (lo : Nat) : b.Retained b lo lo where
  closed := hb
  size_le := le_refl _
  slot_le := le_refl _
  linked_iff _ _ := Iff.rfl
  old x i hi := ⟨i, id, hi, (Op.mapOperands_eq_self fun _ _ => rfl).symm, rfl⟩
  new x j hj hle := absurd (lt_size_of_getElem? hj) (not_lt.2 hle)
  slot_kept _ _ h := h
  slot_given x q hnone hsome := absurd (hnone.symm.trans hsome) (by simp)
  slot_linked x y q hnone _ hsome _ := absurd (hnone.symm.trans hsome) (by simp)
  renames s t hs ht := by
    obtain rfl : s = t := Except.ok.inj (hs.symm.trans ht)
    exact ⟨id, .refl b, .refl (Storage.describes_of_ofBody hb hs).toValid⟩
  together _ _ _ _ h := h

variable {b c d : Body} {lo mid hi : Nat} (h : b.Retained c lo mid) (h' : c.Retained d mid hi)

include h h'

/-- What some rounds retain, more rounds retain. -/
theorem trans : b.Retained d lo hi where
  closed := h'.closed
  size_le := le_trans h.size_le h'.size_le
  slot_le := le_trans h.slot_le h'.slot_le
  linked_iff x y := (h'.linked_iff x y).trans (h.linked_iff x y)
  old x i hi := by
    obtain ⟨j, f, hj, hop, hpin⟩ := h.old x i hi
    obtain ⟨l, g, hl, hop', hpin'⟩ := h'.old x j hj
    refine ⟨l, g ∘ f, hl, ?_, hpin'.trans hpin⟩
    rw [hop', hop, Op.mapOperands_mapOperands]
  new x l hl hle := by
    by_cases hlt : x < c.store.size
    · obtain ⟨j, hj⟩ := exists_instr hlt
      obtain ⟨l', g, hl', hop, hpin⟩ := h'.old x j hj
      obtain rfl : l = l' := Option.some.inj (hl.symm.trans hl')
      obtain ⟨hacc, hnone, hslot⟩ := h.new x j hj hle
      refine ⟨by rw [hop, Op.accessesSlot_mapOperands, hacc], hpin.trans hnone, ?_⟩
      -- spill code is not spilled again
      rw [Option.eq_none_iff_forall_ne_some]
      intro q hq
      obtain ⟨-, -, j', hj', hacc'⟩ := h'.slot_given x q (by rw [slot?_eq hj, hslot])
        (by rw [slot?_eq hl, hq])
      obtain rfl : j = j' := Option.some.inj (hj.symm.trans hj')
      rw [hacc] at hacc'
      exact absurd hacc' (by simp)
    · exact h'.new x l hl (not_lt.1 hlt)
  slot_kept x q hq := h'.slot_kept x q (h.slot_kept x q hq)
  slot_given x q hnone hsome := by
    cases hmid : c.slot? x with
    | some q' =>
      obtain rfl : q' = q := Option.some.inj ((h'.slot_kept x q' hmid).symm.trans hsome)
      obtain ⟨hlo, hhi, hi⟩ := h.slot_given x q' hnone hmid
      exact ⟨hlo, lt_of_lt_of_le hhi h'.slot_le, hi⟩
    | none =>
      obtain ⟨hlo, hhi, j, hj, hacc⟩ := h'.slot_given x q hmid hsome
      refine ⟨le_trans h.slot_le hlo, hhi, ?_⟩
      by_cases hlt : x < b.store.size
      · obtain ⟨i, hi⟩ := exists_instr hlt
        obtain ⟨j', f, hj', hop, -⟩ := h.old x i hi
        obtain rfl : j = j' := Option.some.inj (hj.symm.trans hj')
        rw [hop, Op.accessesSlot_mapOperands] at hacc
        exact ⟨i, hi, hacc⟩
      · rw [(h.new x j hj (not_lt.1 hlt)).1] at hacc
        exact absurd hacc (by simp)
  slot_linked x y q hx hy hxq hyq := by
    -- the slots of the two parts are apart, so both have got theirs in the same part
    have hpart : ∀ {z : Nat}, b.slot? z = none → d.slot? z = some q →
        (c.slot? z = some q ∧ q < mid) ∨ (c.slot? z = none ∧ mid ≤ q) := by
      intro z hz hzq
      cases hmid : c.slot? z with
      | some q' =>
        obtain rfl : q' = q := Option.some.inj ((h'.slot_kept z q' hmid).symm.trans hzq)
        exact Or.inl ⟨rfl, (h.slot_given z q' hz hmid).2.1⟩
      | none => exact Or.inr ⟨rfl, (h'.slot_given z q hmid hzq).1⟩
    rcases hpart hx hxq with ⟨hxc, hlt⟩ | ⟨hxc, hle⟩
    · rcases hpart hy hyq with ⟨hyc, -⟩ | ⟨-, hle⟩
      · exact h.slot_linked x y q hx hy hxc hyc
      · exact absurd hlt (not_lt.2 hle)
    · rcases hpart hy hyq with ⟨-, hlt⟩ | ⟨hyc, -⟩
      · exact absurd hlt (not_lt.2 hle)
      · exact (h.linked_iff x y).1 (h'.slot_linked x y q hxc hyc hxq hyq)
  renames s u hs hu := by
    obtain ⟨t, ht, -⟩ := h.closed.exists_storage
    obtain ⟨f, hf, hst⟩ := h.renames s t hs ht
    obtain ⟨g, hg, htu⟩ := h'.renames t u ht hu
    exact ⟨g ∘ f, hf.trans hg, hst.trans hf h.size_le htu⟩
  together x y hx hy hxy := by
    have hlt : ∀ {z : Nat}, z < b.store.size → z < c.store.size :=
      fun hz => lt_of_lt_of_le hz h.size_le
    exact h.together x y hx hy (h'.together x y (hlt hx) (hlt hy) hxy)

omit h' in
/-- Rounds keep the order of variables. -/
theorem var_lt {s t : Storage} (hs : Storage.ofBody b = .ok s) (ht : Storage.ofBody c = .ok t)
    {x y v v' w w' : Nat} (hxv : s.var? x = some v) (hyv : s.var? y = some v')
    (hxw : t.var? x = some w) (hyw : t.var? y = some w') (hlt : v < v') : w < w' := by
  obtain ⟨f, hf, hst⟩ := h.renames s t hs ht
  have hx := hst.var?_eq x (hst.source.lt_size hxv)
  have hy := hst.var?_eq y (hst.source.lt_size hyv)
  rw [hxv, hxw] at hx
  rw [hyv, hyw] at hy
  rw [Option.some.inj hx, Option.some.inj hy]
  exact hf.lt hlt (hst.source.var_lt_size hyv)

end Retained

/-- What gets a slot is an instruction of the body that does not deal with the stack yet. -/
def GivesAnew (b : Body) (slots : SlotMap) : Prop := ∀ x q, slots.slotOf x = some q →
  ∃ i, b.store[x]? = some i ∧ i.slot = none ∧ i.op.accessesSlot = false

/-- Variables that compete get slots anew. -/
theorem givesAnew {b : Body} {s : Storage} {slots : SlotMap} {next : Nat} {vars : List Nat}
    (hs : s.Valid b) (hslots : slots.Gives s next vars) (hvars : ∀ v ∈ vars, b.Competes s v) :
    b.GivesAnew slots := by
  intro x q hq
  obtain ⟨n, v, hv, -, hxv⟩ := (hslots x q).1 hq
  obtain ⟨i, hi⟩ := exists_instr (hs.lt_size hxv)
  have hcode := (hvars v (List.mem_of_getElem? hv)).2 x i hxv hi
  obtain ⟨hslot, hacc⟩ := Instr.isSpillCode_eq_false.1 hcode
  exact ⟨i, hi, hslot, hacc⟩

/-- The slots behind an expansion are the new ones and the old ones. -/
theorem Expands.slot?_eq_or {b c : Body} {slots : SlotMap} {start fresh : Nat → Nat}
    (hx : b.Expands c slots start fresh) (hb : b.WellFormed) (hnew : b.GivesAnew slots) (x : Nat) :
    c.slot? x = (slots.slotOf x).or (b.slot? x) := by
  by_cases hlt : x < b.store.size
  · exact hx.slot?_old hb hlt
  · have hnone : slots.slotOf x = none := by
      rw [Option.eq_none_iff_forall_ne_some]
      intro q hq
      obtain ⟨i, hi, -⟩ := hnew x q hq
      exact hlt (lt_size_of_getElem? hi)
    have hb' : b.slot? x = none := by
      rw [slot?, Array.getElem?_eq_none (not_lt.1 hlt)]
      rfl
    rw [hnone, hb', slot?]
    cases hj : c.store[x]? with
    | none => rfl
    | some j => exact (hx.accessesSlot_of_le hb hj (not_lt.1 hlt)).2

/-- **Step lemma.**  What spilling variables that compete retains of a body. -/
theorem Expands.retained {b c : Body} {slots : SlotMap} {start fresh : Nat → Nat} {s : Storage}
    {next : Nat} {vars : List Nat} (hx : b.Expands c slots start fresh) (hb : b.Closed)
    (hs : Storage.ofBody b = .ok s) (hslots : slots.Gives s next vars)
    (hvars : ∀ v ∈ vars, b.Competes s v) : b.Retained c next (next + vars.length) := by
  have hs' := Storage.describes_of_ofBody hb hs
  have hu := hslots.uniform hb hs'
  have hanew := givesAnew hs'.toValid hslots hvars
  have hslot := hx.slot?_eq_or hb.toWellFormed hanew
  have hnew : ∀ {x q : Nat}, b.slot? x = none → c.slot? x = some q → slots.slotOf x = some q := by
    intro x q hnone hsome
    rwa [hslot, hnone, Option.or_none] at hsome
  refine
    { closed := hx.closed hb
      size_le := hx.size_le
      slot_le := Nat.le_add_right _ _
      linked_iff := fun x y => hx.linked_iff hb.toWellFormed hu
      old := fun x i hi => ?_
      new := fun x j hj hle => ?_
      slot_kept := fun x q hq => ?_
      slot_given := fun x q hnone hsome => ?_
      slot_linked := fun x y q hxn hyn hxq hyq => ?_
      renames := fun s' t hs₁ ht => ?_
      together := fun x y hxlt hylt h => hx.together_old hb hu hxlt hylt h }
  · obtain ⟨p, hp⟩ := hb.exists_position hi
    exact ⟨_, _, hx.store_main hp, Expands.op_written _ x i, Expands.pin_written _ x i⟩
  · obtain ⟨hacc, hnone⟩ := hx.accessesSlot_of_le hb.toWellFormed hj hle
    refine ⟨hacc, ?_, hnone⟩
    obtain ⟨p, id, i, hp, ⟨rfl, -⟩ | ⟨n, s, -, -, rfl⟩ | ⟨s, -, -, rfl⟩⟩ := hx.cases_store hj
    · have := lt_size_of_getElem? (hb.getElem?_toList_eq_some.1 hp).2
      omega
    · rfl
    · rfl
  · rw [hslot]
    cases hof : slots.slotOf x with
    | none => exact hq
    | some q' =>
      obtain ⟨i, hi, hnone, -⟩ := hanew x q' hof
      rw [slot?_eq hi, hnone] at hq
      exact absurd hq (by simp)
  · have hof := hnew hnone hsome
    obtain ⟨hlo, hhi⟩ := hslots.bounds hof
    obtain ⟨i, hi, -, hacc⟩ := hanew x q hof
    exact ⟨hlo, hhi, i, hi, hacc⟩
  · have hof := hnew hxn hxq
    have hof' := hnew hyn hyq
    obtain ⟨i, hi, -⟩ := hanew x q hof
    obtain ⟨j, hj, -⟩ := hanew y q hof'
    exact (hs'.var?_eq_iff (lt_size_of_getElem? hi) (lt_size_of_getElem? hj)).1
      (hslots.var?_eq hof hof')
  · obtain rfl : s = s' := Except.ok.inj (hs.symm.trans hs₁)
    exact ⟨_, hx.renumbers hb.toWellFormed, hx.renames hb hu hs ht⟩

/-- **Step lemma.**  A round of spilling retains the code. -/
theorem Rewrites.retained {b : Body} {k next : Nat} {r : Round} {sp : Spilled}
    (h : b.Rewrites k next r sp) (hb : b.Closed) : b.Retained sp.body next sp.nextSlot := by
  obtain ⟨hr, hnext, slots, start, fresh, hgives, hx⟩ := h.exists_expands hb
  rw [hnext]
  exact hx.retained hb hr.storage_eq hgives fun v hv => hr.competes_of_mem_spills hv

/-- **Run lemma.**  What rounds that spill retain of a body. -/
theorem RewritesTo.retained {k n next last : Nat} {b c : Body} (h : RewritesTo k n b next c last)
    (hb : b.Closed) : b.Retained c next last := by
  induction h with
  | done b next => exact .refl hb next
  | more step _ ih => exact (step.retained hb).trans (ih (step.closed hb))

/-! ## Bodies with the same operations -/

namespace SameOps

variable {b c : Body} (h : b.SameOps c)

include h

/-- The same operations tie the same instructions. -/
theorem ties {x y : Nat} (hxy : b.Ties x y) : c.Ties x y := by
  obtain ⟨i, l, r, hi, hop, hy⟩ := hxy
  obtain ⟨j, hj, hji⟩ := h.getElem?_eq_some hi
  exact ⟨j, l, r, hj, hji.trans hop, hy⟩

/-- The same operations have the same classes. -/
theorem linked_iff {x y : Nat} : c.Linked x y ↔ b.Linked x y := by
  have hties : c.Ties = b.Ties := by
    funext x y
    exact propext ⟨h.symm.ties, h.ties⟩
  rw [Linked, Linked, hties]

theorem getElem?_toList {p id : Nat} {i : Instr} (hp : b.toList[p]? = some (id, i)) :
    ∃ j, c.toList[p]? = some (id, j) ∧ j.op = i.op := by
  have hmap := congrArg (fun es : List (Nat × Op) => es[p]?) h.toList_map
  simp only [List.getElem?_map, hp, Option.map_some] at hmap
  obtain ⟨⟨id', j⟩, hj, he⟩ := Option.map_eq_some_iff.1 hmap.symm
  obtain ⟨rfl, hop⟩ := Prod.mk.inj he
  exact ⟨j, hj, hop⟩

/-- Control passes the same way. -/
theorem passes {p q : Nat} (hq : b.Passes p q) : c.Passes p q := by
  have hsize : b.size = c.size := congrArg List.length h.order
  rwa [Passes, ← h.ops_eq, ← hsize]

/-- The same values are live. -/
theorem liveAt {x p : Nat} (hlive : b.LiveAt x p) : c.LiveAt x p := by
  induction hlive with
  | use hp ho hlink =>
    obtain ⟨j, hj, hop⟩ := h.getElem?_toList hp
    exact .use hj (hop ▸ ho) (h.linked_iff.2 hlink)
  | pass hp hd hq _ ih =>
    obtain ⟨j, hj, hop⟩ := h.getElem?_toList hp
    refine .pass hj (fun hdef hlink => hd (hop ▸ hdef) (h.linked_iff.1 hlink)) (h.passes hq) ih

theorem liveBehind {x p : Nat} (hlive : b.LiveBehind x p) : c.LiveBehind x p := by
  rcases hlive with ⟨id, i, hp, hdef, hlink⟩ | ⟨q, hq, hlive⟩
  · obtain ⟨j, hj, hop⟩ := h.getElem?_toList hp
    exact Or.inl ⟨id, j, hj, hop ▸ hdef, h.linked_iff.2 hlink⟩
  · exact Or.inr ⟨q, h.passes hq, h.liveAt hlive⟩

/-- The same values are live together. -/
theorem together {x y : Nat} (hxy : b.Together x y) : c.Together x y := by
  obtain ⟨p, ⟨hx, hy⟩ | ⟨hx, hy⟩⟩ := hxy
  · exact ⟨p, Or.inl ⟨h.liveAt hx, h.liveAt hy⟩⟩
  · exact ⟨p, Or.inr ⟨h.liveBehind hx, h.liveBehind hy⟩⟩

theorem liveTogether {x y : Nat} (hxy : b.LiveTogether x y) : c.LiveTogether x y := by
  obtain ⟨s, g, v, w, hs, hg, hlive⟩ := hxy
  rw [Storage.ofBody_congr h] at hs
  rw [FlowGraph.ofBody_congr h] at hg
  exact ⟨s, g, v, w, hs, hg, hlive⟩

end SameOps

theorem slot?_assignRegisters (b : Body) (s : Storage) (c : Coloring) (x : Nat) :
    (b.assignRegisters s c).slot? x = b.slot? x := by
  rw [slot?, slot?, getElem?_assignRegisters]
  cases b.store[x]? <;> rfl

/-- Registers change nothing of what is retained. -/
theorem Retained.assignRegisters {b c : Body} {lo hi : Nat} (h : b.Retained c lo hi) (s : Storage)
    (col : Coloring) : b.Retained (c.assignRegisters s col) lo hi := by
  have hops := c.sameOps_assignRegisters s col
  refine
    { closed := hops.closed h.closed
      size_le := by rw [← hops.size_store]; exact h.size_le
      slot_le := h.slot_le
      linked_iff := fun x y => hops.linked_iff.trans (h.linked_iff x y)
      old := fun x i hi => ?_
      new := fun x j hj hle => ?_
      slot_kept := fun x q hq => by rw [slot?_assignRegisters]; exact h.slot_kept x q hq
      slot_given := fun x q hnone hsome => ?_
      slot_linked := fun x y q hx hy hxq hyq => ?_
      renames := fun s' t hs ht => ?_
      together := fun x y hx hy hxy => h.together x y hx hy (hops.symm.together hxy) }
  · obtain ⟨j, f, hj, hop, hpin⟩ := h.old x i hi
    have hj' := c.getElem?_assignRegisters s col x
    rw [hj, Option.map_some] at hj'
    exact ⟨_, f, hj', hop, hpin⟩
  · obtain ⟨i, hi, hop, hpin, hslot, -⟩ := cases_assignRegisters hj
    rw [hop, hpin, hslot]
    exact h.new x i hi hle
  · rw [slot?_assignRegisters] at hsome
    exact h.slot_given x q hnone hsome
  · rw [slot?_assignRegisters] at hxq hyq
    exact h.slot_linked x y q hx hy hxq hyq
  · have ht' := Storage.describes_of_ofBody (hops.closed h.closed) ht
    rw [← Storage.ofBody_congr hops] at ht
    obtain ⟨f, hf, hst⟩ := h.renames s' t hs ht
    have hsize : (c.assignRegisters s col).size = c.size := rfl
    exact ⟨f, ⟨hf.lt, fun hv => hsize ▸ hf.lt_size hv⟩, ⟨hst.source, ht'.toValid, hst.var?_eq,
      hst.members_eq⟩⟩

/-- **What one allocation retains of a body.** -/
theorem Closed.retained_allocate {b : Body} (hb : b.Closed) {k : Nat} (hk : 1 ≤ k) :
    ∃ a, b.allocate k = .ok a ∧ b.Retained a.body 0 a.allocation.slots := by
  obtain ⟨a, c, n, r, ha, hrounds, -, -, hbody, -⟩ := hb.exists_rewritesTo hk
  refine ⟨a, ha, ?_⟩
  rw [hbody]
  exact (hrounds.retained hb).assignRegisters r.storage r.coloring

end Body

end Backend
