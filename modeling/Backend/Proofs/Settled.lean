/-
# Allocated bodies are settled

A round looks at the operations, pins and slots of a body and not at its registers.  So once the
last round of an allocation has written its registers, a further round would find what the last one
found and write the same registers again (`Body.Settled`).  Allocation is idempotent
(`Body.allocate_allocate`), also on bodies that hold code for the stack from before.
-/
import Mathlib
import Backend.Proofs.Termination
import Backend.Proofs.Validity

namespace Backend.Body

/-! ## Written registers -/

/-- A round does not look at registers. -/
theorem round_assignRegisters (b : Body) (s : Storage) (c : Coloring) (k : Nat) :
    (b.assignRegisters s c).round k = b.round k := by
  have hops := b.sameOps_assignRegisters s c
  unfold round
  rw [← Storage.ofBody_congr hops]
  apply bind_congr
  intro t
  rw [← FlowGraph.ofBody_congr hops, candidates_assignRegisters]

/-- What is written a second time was there before. -/
theorem assignRegisters_assignRegisters (b : Body) (s : Storage) (c : Coloring) :
    (b.assignRegisters s c).assignRegisters s c = b.assignRegisters s c := by
  unfold assignRegisters
  rw [Array.mapIdx_mapIdx]
  rfl

/-! ## Settled bodies -/

/-- A body for which a round has nothing left to do: it spills nothing, and the registers it would
write are there. -/
def Settled (b : Body) (k : Nat) : Prop :=
  ∃ r, b.round k = .ok r ∧ r.coloring.spills = [] ∧
    b.assignRegisters r.storage r.coloring = b

/-- A round that spills nothing settles the body. -/
theorem settled_assignRegisters {b : Body} {k : Nat} {r : Round} (hr : b.round k = .ok r)
    (hspills : r.coloring.spills = []) :
    (b.assignRegisters r.storage r.coloring).Settled k := by
  refine ⟨r, ?_, hspills, b.assignRegisters_assignRegisters r.storage r.coloring⟩
  rw [round_assignRegisters, hr]

/-- **Run lemma.**  However many rounds it takes, the last one settles the body. -/
theorem settled_of_allocateRounds {k limit round next : Nat} {b : Body} {a : Allocated}
    (h : allocateRounds k limit round next b = .ok a) : a.body.Settled k := by
  induction limit generalizing round next b a with
  | zero => cases h
  | succ limit ih =>
    obtain ⟨r, hr, h⟩ := bind_eq_ok_iff.1 h
    split at h
    · rename_i hspills
      cases h
      exact settled_assignRegisters hr (List.isEmpty_iff.1 hspills)
    · obtain ⟨sp, -, h⟩ := bind_eq_ok_iff.1 h
      obtain ⟨rest, hrest, h⟩ := bind_eq_ok_iff.1 h
      cases h
      show rest.body.Settled k
      exact ih hrest

/-- A settled body is allocated in one round that changes nothing. -/
theorem Settled.exists_allocate {b : Body} {k : Nat} (h : b.Settled k) (hk : k ≠ 0) :
    ∃ a, b.allocate k = .ok a ∧ a.body = b ∧ a.allocation = { rounds := 1, slots := 0 } := by
  obtain ⟨r, hr, hspills, hsame⟩ := h
  obtain ⟨a, ha, hbody, halloc⟩ := allocateRounds_done b.size 1 0 hr hspills
  refine ⟨a, ?_, hbody.trans hsame, halloc⟩
  rw [allocate, if_neg hk, ha]

/-- **Allocation is idempotent.**  Whatever body has been allocated, allocating the result with the
same registers succeeds in one round, takes no slot and changes nothing. -/
theorem allocate_allocate {b : Body} {k : Nat} {a : Allocated} (h : b.allocate k = .ok a) :
    ∃ a', a.body.allocate k = .ok a' ∧ a'.body = a.body ∧
      a'.allocation = { rounds := 1, slots := 0 } := by
  unfold allocate at h
  split at h
  · cases h
  · rename_i hk
    exact (settled_of_allocateRounds h).exists_allocate hk

/-- A body with pins and code for the stack, which one register is not enough for at first. -/
theorem allocate_allocate_crowded :
    ∃ a a', crowded.allocate 1 = .ok a ∧ 1 < a.allocation.rounds ∧ 0 < a.allocation.slots ∧
      a.body.allocate 1 = .ok a' ∧ a'.body = a.body ∧
      a'.allocation = { rounds := 1, slots := 0 } := by
  obtain ⟨a, ha, hspills⟩ : ∃ a, crowded.allocate 1 = .ok a ∧
      decide (1 < a.allocation.rounds ∧ 0 < a.allocation.slots) = true :=
    exists_ok_of_any (by decide +kernel)
  obtain ⟨hrounds, hslots⟩ := of_decide_eq_true hspills
  obtain ⟨a', ha', hbody, halloc⟩ := allocate_allocate ha
  exact ⟨a, a', ha, hrounds, hslots, ha', hbody, halloc⟩

end Backend.Body
