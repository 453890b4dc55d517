/-
# Allocated bodies are valid

The registers of an allocated body are checked against its own variables, control flow and live
sets, computed anew: `Body.WellAllocated` is that check, and every allocation passes it
(`Body.Closed.wellAllocated_allocate`).
-/
import Mathlib
import Backend.Proofs.Rounds

namespace Backend

namespace Body

/-- Some instruction of a variable carries a register. -/
def Holds (b : Body) (s : Storage) (v r : Nat) : Prop :=
  ∃ x i, s.var? x = some v ∧ b.store[x]? = some i ∧ i.register = some r

/-- The registers of a body are a valid allocation of the first `k` registers with respect to its
variables and live sets. -/
structure WellAllocated (b : Body) (k : Nat) (s : Storage) (g : FlowGraph) : Prop where
  bound : ∀ (x : Nat) (i : Instr) (r : Nat), b.store[x]? = some i → i.register = some r → r < k
  /-- What defines a value of one variable carries one register. -/
  same : ∀ (x y : Nat) (i j : Instr), b.store[x]? = some i → b.store[y]? = some j →
    s.var? x = s.var? y → i.op.definesValue = true → j.op.definesValue = true →
    i.register = j.register
  /-- A value is in a register or in a stack slot, and not in both; a load moves it between them. -/
  placed : ∀ (x : Nat) (i : Instr), b.store[x]? = some i → i.op.definesValue = true →
    (∀ q, i.op ≠ .load q) → Xor (∃ r, i.register = some r) (∃ q, i.slot = some q)
  /-- Variables that are live together have different registers. -/
  apart : ∀ v w r, v ≠ w → b.Holds s v r → b.Holds s w r →
    ∀ p, ¬ (v ∈ g.liveIn p ∧ w ∈ g.liveIn p) ∧ ¬ (v ∈ g.liveOut p ∧ w ∈ g.liveOut p)
  /-- A register that a candidate is pinned to is left to pinned variables. -/
  reserved : ∀ d ∈ (b.candidates s).toList, ∀ v r, d.effectivePin k = some r →
    (b.pin? s v).filter (· < k) = none → ¬ b.Holds s v r
  bare : ∀ (x : Nat) (i : Instr), b.store[x]? = some i →
    i.op.accessesSlot = true ∨ i.slot ≠ none ∨ i.op.definesValue = false → i.register = none

/-! ## Writing registers into a body -/

section Assign

variable (b : Body) (s : Storage) (c : Coloring)

theorem getElem?_assignRegisters (x : Nat) : (b.assignRegisters s c).store[x]? =
    b.store[x]?.map fun i =>
      { i with register := if i.op.definesValue then (s.var? x).bind c.register? else none } := by
  rw [assignRegisters, Array.getElem?_mapIdx]

theorem sameOps_assignRegisters : b.SameOps (b.assignRegisters s c) where
  order := rfl
  op x := by
    rw [getElem?_assignRegisters, Option.map_map]
    rfl

variable {b s c}

/-- An instruction of a body with registers is an old one with the register of its variable. -/
theorem cases_assignRegisters {x : Nat} {j : Instr}
    (hj : (b.assignRegisters s c).store[x]? = some j) :
    ∃ i, b.store[x]? = some i ∧ j.op = i.op ∧ j.pin = i.pin ∧ j.slot = i.slot ∧
      j.register = if i.op.definesValue then (s.var? x).bind c.register? else none := by
  rw [getElem?_assignRegisters] at hj
  obtain ⟨i, hi, rfl⟩ := Option.map_eq_some_iff.1 hj
  exact ⟨i, hi, rfl, rfl, rfl, rfl⟩

theorem register?_of_holds {v r : Nat} (h : (b.assignRegisters s c).Holds s v r) :
    c.register? v = some r := by
  obtain ⟨x, j, hx, hj, hr⟩ := h
  obtain ⟨i, -, -, -, -, hreg⟩ := cases_assignRegisters hj
  rw [hreg] at hr
  split at hr
  · rwa [hx, Option.bind_some] at hr
  · exact absurd hr (by simp)

/-- Registers change nothing about the candidates. -/
theorem candidates_assignRegisters (t : Storage) :
    (b.assignRegisters s c).candidates t = b.candidates t := by
  -- what decides about a candidate is the same before and after
  let look (i : Instr) : Bool × Bool × Option Nat := (i.op.definesValue, i.isSpillCode, i.pin)
  have hselect : ∀ ids,
      ((b.assignRegisters s c).select ids).map look = (b.select ids).map look := by
    intro ids
    rw [select, select, List.map_filterMap, List.map_filterMap]
    apply List.filterMap_congr
    intro x _
    rw [getElem?_assignRegisters, Option.map_map]
    rfl
  have hany : ∀ ids, ((b.assignRegisters s c).select ids).any (·.op.definesValue) =
      (b.select ids).any (·.op.definesValue) := by
    intro ids
    have h := congrArg (List.any · (·.1)) (hselect ids)
    rw [List.any_map, List.any_map] at h
    exact h
  have hcode : ∀ ids, ((b.assignRegisters s c).select ids).any (·.isSpillCode) =
      (b.select ids).any (·.isSpillCode) := by
    intro ids
    have h := congrArg (List.any · (·.2.1)) (hselect ids)
    rw [List.any_map, List.any_map] at h
    exact h
  have hpin : ∀ ids, ((b.assignRegisters s c).select ids).findSome? (·.pin) =
      (b.select ids).findSome? (·.pin) := by
    intro ids
    have h := congrArg (List.findSome? (·.2.2)) (hselect ids)
    rw [List.findSome?_map, List.findSome?_map] at h
    exact h
  have hcandidate : (b.assignRegisters s c).candidate? = b.candidate? := by
    funext d
    simp only [candidate?, hany, hcode, hpin]
  simp only [candidates, hcandidate]

theorem pin?_assignRegisters (t : Storage) (v : Nat) :
    (b.assignRegisters s c).pin? t v = b.pin? t v := by
  have hpin : ∀ x : Nat,
      (b.assignRegisters s c).store[x]?.bind (·.pin) = b.store[x]?.bind (·.pin) := by
    intro x
    rw [getElem?_assignRegisters]
    cases b.store[x]? <;> rfl
  simp only [pin?, hpin]

end Assign

end Body

/-- What a round has found out about a body still holds when its registers have been written. -/
theorem Round.Describes.assignRegisters {r : Round} {b : Body} {k : Nat} (h : r.Describes b k)
    (hb : b.Closed) : r.Describes (b.assignRegisters r.storage r.coloring) k := by
  have hops := b.sameOps_assignRegisters r.storage r.coloring
  have hc := hops.closed hb
  have hrun : Storage.ofBody (b.assignRegisters r.storage r.coloring) = .ok r.storage := by
    rw [← Storage.ofBody_congr hops, h.storage_eq]
  have hs := Storage.describes_of_ofBody hc hrun
  obtain ⟨g, hg, hflow⟩ := h.flow_eq
  rw [FlowGraph.ofBody_congr hops] at hg
  obtain ⟨g', hg', hdesc, hsolved⟩ := hc.exists_liveness hs.toValid
  obtain rfl : g = g' := Except.ok.inj (hg.symm.trans hg')
  rw [← hflow] at hdesc hsolved
  refine ⟨hrun, hs, ⟨g, hg, hflow⟩, hdesc, hsolved, ?_, h.fits⟩
  rw [h.candidates, Body.candidates_assignRegisters]

namespace Body

/-! ## The last round -/

/-- A live set with a member is one of the listed ones. -/
theorem mem_liveSets {g : FlowGraph} {p v : Nat} :
    (v ∈ g.liveIn p → g.liveIn p ∈ Interference.liveSets g) ∧
      (v ∈ g.liveOut p → g.liveOut p ∈ Interference.liveSets g) := by
  rw [FlowGraph.liveIn, FlowGraph.liveOut, Digraph.val?]
  cases hp : g.vertices[p]? with
  | none =>
    exact ⟨fun h => absurd h (IdSet.not_mem_empty v), fun h => absurd h (IdSet.not_mem_empty v)⟩
  | some n =>
    have hn : n ∈ g.vertices.toList := Array.mem_toList_iff.2 (Array.mem_of_getElem? hp)
    exact ⟨fun _ => List.mem_flatMap.2 ⟨n, hn, List.mem_cons_self⟩,
      fun _ => List.mem_flatMap.2 ⟨n, hn, List.mem_cons_of_mem _ List.mem_cons_self⟩⟩

section LastRound

variable {c : Body} {k last : Nat} {r : Round} (hc : c.Tidy last) (hr : r.Describes c k)

include hc hr

/-- A value that is neither loaded nor on the stack competes for a register. -/
theorem competes_of_slot_eq_none {x v : Nat} {i : Instr} (hi : c.store[x]? = some i)
    (hx : r.storage.var? x = some v) (hdef : i.op.definesValue = true) (hload : ∀ q, i.op ≠ .load q)
    (hslot : i.slot = none) : c.Competes r.storage v := by
  refine ⟨⟨x, i, hx, hi, hdef⟩, fun y j hy hj => Instr.isSpillCode_eq_false.2 ?_⟩
  have hxy : c.Linked x y :=
    (hr.storage.var?_eq_iff (hr.storage.lt_size hx) (hr.storage.lt_size hy)).1 (by rw [hx, hy])
  constructor
  · rw [← slot?_eq hj, ← hc.slot_linked x y hxy, slot?_eq hi, hslot]
  · by_contra hacc
    rw [Bool.not_eq_false] at hacc
    -- a load or store is alone in its class
    obtain rfl := (hc.alone y j hj hacc).2 x ((linked_equivalence c).symm hxy)
    obtain rfl : i = j := Option.some.inj (hi.symm.trans hj)
    cases hop : i.op with
    | load q => exact hload q hop
    | store u q => rw [hop] at hdef; exact absurd hdef (by simp [Op.definesValue])
    | _ => rw [hop] at hacc; exact absurd hacc (by simp [Op.accessesSlot])

/-- **Step lemma.**  The registers of a round without spills are valid. -/
theorem wellAllocated_assignRegisters (hspills : r.coloring.spills = []) :
    (c.assignRegisters r.storage r.coloring).WellAllocated k r.storage r.flow where
  bound x j q hj hq := by
    obtain ⟨i, hi, -, -, -, hreg⟩ := cases_assignRegisters hj
    obtain ⟨v, hv⟩ := hr.storage.total x (lt_size_of_getElem? hi)
    exact hr.fits.bound v q (register?_of_holds ⟨x, j, hv, hj, hq⟩)
  same x y i j hi hj hxy hdi hdj := by
    obtain ⟨i', -, hopi, -, -, hregi⟩ := cases_assignRegisters hi
    obtain ⟨j', -, hopj, -, -, hregj⟩ := cases_assignRegisters hj
    rw [hregi, hregj, if_pos (hopi ▸ hdi), if_pos (hopj ▸ hdj), hxy]
  placed x j hj hdef hload := by
    obtain ⟨i, hi, hop, -, hslot, hreg⟩ := cases_assignRegisters hj
    obtain ⟨v, hv⟩ := hr.storage.total x (lt_size_of_getElem? hi)
    rw [hop] at hdef
    rw [if_pos hdef, hv, Option.bind_some] at hreg
    rw [hreg, hslot]
    cases hs : i.slot with
    | some q =>
      -- a class with a slot does not compete, so colouring gave it no register
      refine Or.inr ⟨⟨q, rfl⟩, ?_⟩
      rintro ⟨p, hp⟩
      have hcode := (hr.competes_of_register? hp).2 x i hv hi
      rw [Instr.isSpillCode_eq_false, hs] at hcode
      exact absurd hcode.1 (by simp)
    | none =>
      refine Or.inl ⟨?_, by simp⟩
      have hcomp := competes_of_slot_eq_none hc hr hi hv hdef (fun q => hop ▸ hload q) hs
      have hd : (⟨v, c.pin? r.storage v⟩ : Candidate) ∈ r.candidates.toList := by
        rw [hr.candidates]
        exact (mem_candidates hr.storage.toValid).2 ⟨hcomp, rfl⟩
      -- a candidate is coloured or spilled, and this round spills nothing
      rcases hr.fits.complete _ hd with h | h
      · exact h
      · rw [hspills] at h
        exact absurd h List.not_mem_nil
  apart v w q hne hv hw p := by
    have hv' := register?_of_holds hv
    have hw' := register?_of_holds hw
    refine ⟨?_, ?_⟩
    · rintro ⟨hpv, hpw⟩
      exact hr.fits.proper _ (mem_liveSets.1 hpv) v hpv w hpw hne q hv' hw'
    · rintro ⟨hpv, hpw⟩
      exact hr.fits.proper _ (mem_liveSets.2 hpv) v hpv w hpw hne q hv' hw'
  reserved d hd v q hpin hnone hv := by
    rw [candidates_assignRegisters, ← hr.candidates] at hd
    rw [pin?_assignRegisters] at hnone
    have hv' := register?_of_holds hv
    obtain ⟨e, he, rfl⟩ := hr.fits.candidate v q hv'
    have hepin : e.effectivePin k = none := by
      rw [hr.candidates] at he
      rw [Candidate.effectivePin, ((mem_candidates hr.storage.toValid).1 he).2]
      exact hnone
    rcases hr.fits.honest e he q hv' with h | ⟨-, h⟩
    · rw [hepin] at h
      exact absurd h (by simp)
    · exact h d hd hpin
  bare x j hj h := by
    obtain ⟨i, hi, hop, -, hslot, hreg⟩ := cases_assignRegisters hj
    obtain ⟨v, hv⟩ := hr.storage.total x (lt_size_of_getElem? hi)
    rw [hop, hslot] at h
    rw [hreg, Option.eq_none_iff_forall_ne_some]
    intro q hq
    split at hq
    · rename_i hdef
      rw [hv, Option.bind_some] at hq
      have hcode := Instr.isSpillCode_eq_false.1 ((hr.competes_of_register? hq).2 x i hv hi)
      rcases h with h | h | h
      · rw [hcode.2] at h
        exact absurd h (by simp)
      · exact h hcode.1
      · rw [h] at hdef
        exact absurd hdef (by simp)
    · exact absurd hq (by simp)

end LastRound

/-- **Allocation is valid.**  The registers of an allocated body pass the check on the variables and
live sets of that body. -/
theorem Closed.wellAllocated_allocate {b : Body} (hb : b.Closed) (hplain : b.Plain) {k : Nat}
    {a : Allocated} (ha : b.allocate k = .ok a) :
    ∃ s g, Storage.ofBody a.body = .ok s ∧ FlowGraph.ofBody a.body s = .ok g ∧
      a.body.WellAllocated k s g.analyze.2 := by
  have hk : 1 ≤ k := by
    by_contra hk
    rw [allocate, if_pos (by omega)] at ha
    exact absurd ha (by simp)
  obtain ⟨a', c, last, r, ha', -, hc, hr, hspills, hbody⟩ := hb.exists_allocate hplain hk
  obtain rfl : a = a' := Except.ok.inj (ha.symm.trans ha')
  have hr' := hr.assignRegisters hc.toClosed
  obtain ⟨g, hg, hflow⟩ := hr'.flow_eq
  rw [hbody]
  refine ⟨r.storage, g, hr'.storage_eq, hg, ?_⟩
  rw [← hflow]
  exact wellAllocated_assignRegisters hc hr hspills

/-- A body with three values that are live together. -/
def threeValues : Body :=
  ofOps [.int 1, .int 2, .int 3, .binary .plus 0 1, .binary .plus 3 2, .print 4]

/-- Three values do not fit into two registers, so that one of them is spilled. -/
theorem wellAllocated_three_values :
    ∃ a, threeValues.allocate 2 = .ok a ∧ ∃ s g, Storage.ofBody a.body = .ok s ∧
      FlowGraph.ofBody a.body s = .ok g ∧ a.body.WellAllocated 2 s g.analyze.2 := by
  have hok : (threeValues.allocate 2).isOk = true := by decide +kernel
  cases ha : threeValues.allocate 2 with
  | error e =>
    rw [ha] at hok
    exact absurd hok (by simp [Except.isOk, Except.toBool])
  | ok a => exact ⟨a, rfl, Closed.wellAllocated_allocate (by decide) (by decide) ha⟩

end Body

end Backend
