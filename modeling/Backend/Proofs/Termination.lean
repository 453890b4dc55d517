/-
# Allocation terminates

Every round that spills makes the body longer and gives all variables new numbers, so neither says
anything about the end of allocation.  What goes down is the list of classes that compete for
registers: a round that spills takes the spilled classes away and leaves the others exactly as they
are (`Body.Rewrites.candidateClasses_eq`).  Each such round takes a slot at least and as many slots
as it takes classes away, which bounds the rounds by the slots and the slots by the candidates
(`Body.Closed.terminates_allocate`).
-/
import Mathlib
import Backend.Proofs.Rounds

namespace Backend

namespace Round

/-- The classes that compete for registers in a round, each given by its members. -/
def candidateClasses (r : Round) : List (List Nat) :=
  r.candidates.toList.map fun d => r.storage.members.getD d.var []

/-- The competing classes that a round does not spill. -/
def keptClasses (r : Round) : List (List Nat) :=
  (r.candidates.toList.filter fun d => d.var ∉ r.coloring.spills).map
    fun d => r.storage.members.getD d.var []

theorem keptClasses_sublist (r : Round) : r.keptClasses.Sublist r.candidateClasses :=
  List.filter_sublist.map _

end Round

namespace Body

variable {k n next last : Nat} {b c : Body} {r r' : Round} {sp : Spilled}

/-- **Step lemma.**  The classes that compete behind a round that spills are those that competed in
it and were not spilled. -/
theorem Rewrites.candidateClasses_eq (h : b.Rewrites k next r sp) (hb : b.Closed)
    (h' : sp.body.round k = .ok r') : r'.candidateClasses = r.keptClasses := by
  obtain ⟨hr, -, slots, start, fresh, hgives, hx⟩ := h.exists_expands hb
  have hr' := (hx.closed hb).describes_of_round h'
  have hren := hx.renames hb (hgives.uniform hb hr.storage) hr.storage_eq hr'.storage_eq
  have hlist := hx.toList_candidates hb hr.storage_eq hr'.storage_eq hgives
  rw [Round.candidateClasses, Round.keptClasses, hr'.candidates, hr.candidates, hlist, List.map_map]
  refine List.map_congr_left fun d hd => ?_
  have hcomp := ((mem_candidates hr.storage.toValid).1 (List.mem_filter.1 hd).1).1
  obtain ⟨x, -, hxv, -⟩ := hcomp.1
  exact hren.members_eq d.var (hr.storage.var_lt_size hxv)

/-- **Run lemma.**  What competes after any number of rounds competed in the first one. -/
theorem RewritesTo.candidateClasses_sublist (h : RewritesTo k n b next c last) (hb : b.Closed)
    (hr : b.round k = .ok r) (hr' : c.round k = .ok r') :
    r'.candidateClasses.Sublist r.candidateClasses := by
  induction h generalizing r with
  | done =>
    obtain rfl : r = r' := Except.ok.inj (hr.symm.trans hr')
    exact List.Sublist.refl _
  | more step _ ih =>
    obtain rfl := Except.ok.inj (step.round_eq.symm.trans hr)
    obtain ⟨r₁, hr₁, -⟩ := (step.closed hb).exists_round k
    have hsub := ih (step.closed hb) hr₁ hr'
    rw [step.candidateClasses_eq hb hr₁] at hsub
    exact hsub.trans (Round.keptClasses_sublist _)

/-- Spill code does not compete: the members of a class that competes in some round have all been
there from the beginning. -/
theorem RewritesTo.lt_size_of_mem_candidateClasses (h : RewritesTo k n b next c last)
    (hb : b.Closed) (hr : c.round k = .ok r) {ids : List Nat} (hids : ids ∈ r.candidateClasses)
    {x : Nat} (hx : x ∈ ids) : x < b.store.size := by
  obtain ⟨r₀, hr₀, hdesc⟩ := hb.exists_round k
  have hids₀ := (h.candidateClasses_sublist hb hr₀ hr).subset hids
  rw [Round.candidateClasses, List.mem_map] at hids₀
  obtain ⟨d, -, rfl⟩ := hids₀
  exact hdesc.storage.lt_size ((hdesc.storage.mem_members d.var x).1 hx)

/-- **Run lemma.**  A round takes one slot for each class it takes away, and at least one. -/
theorem RewritesTo.slots_eq (h : RewritesTo k n b next c last) (hb : b.Closed) {s t : Storage}
    (hs : Storage.ofBody b = .ok s) (ht : Storage.ofBody c = .ok t) :
    next + n ≤ last ∧ last + (c.candidates t).size = next + (b.candidates s).size := by
  induction h generalizing s with
  | done =>
    obtain rfl : s = t := Except.ok.inj (hs.symm.trans ht)
    exact ⟨le_refl _, rfl⟩
  | more step _ ih =>
    obtain ⟨hr, hnext, -⟩ := step.exists_expands hb
    obtain ⟨s₁, hs₁, -⟩ := (step.closed hb).exists_storage
    obtain ⟨hle, heq⟩ := ih (step.closed hb) hs₁ ht
    have hsize := step.size_candidates hb hs₁
    have hpos := List.length_pos_of_ne_nil step.spills_ne_nil
    obtain rfl := Except.ok.inj (hr.storage_eq.symm.trans hs)
    omega

/-- **Allocation terminates.**  With at least one register, and whatever pins, slots and spill code
the body comes with, allocation is a run of rounds that spill and a last one that does not.  A round
that spills leaves exactly the competing classes it has not spilled, so nothing that is inserted on
the way ever competes; and the rounds are bounded by the slots, the slots by the candidates. -/
theorem Closed.terminates_allocate {b : Body} (hb : b.Closed) {k : Nat} (hk : 1 ≤ k) :
    ∃ a s, b.allocate k = .ok a ∧ Storage.ofBody b = .ok s ∧
      (∃ c r, RewritesTo k (a.allocation.rounds - 1) b 0 c a.allocation.slots ∧
        c.round k = .ok r ∧ r.coloring.spills = [] ∧
        a.body = c.assignRegisters r.storage r.coloring) ∧
      (∀ n c next r, RewritesTo k n b 0 c next → c.round k = .ok r →
        (∀ ids ∈ r.candidateClasses, ∀ x ∈ ids, x < b.store.size) ∧
        ∀ sp r', c.Rewrites k next r sp → sp.body.round k = .ok r' →
          r'.candidateClasses = r.keptClasses) ∧
      1 ≤ a.allocation.rounds ∧ a.allocation.rounds - 1 ≤ a.allocation.slots ∧
      a.allocation.slots ≤ (b.candidates s).size ∧ a.allocation.rounds ≤ b.size + 1 := by
  obtain ⟨a, c, n, r, ha, hrounds, hrun, hspills, hbody, hcount⟩ := hb.exists_rewritesTo hk
  obtain ⟨s, hs, hdesc⟩ := hb.exists_storage
  have hlast := (hrounds.closed hb).describes_of_round hrun
  obtain ⟨hle, heq⟩ := hrounds.slots_eq hb hs hlast.storage_eq
  have hsize := size_candidates_le hdesc.toValid
  have hn : a.allocation.rounds - 1 = n := by omega
  refine ⟨a, s, ha, hs, ⟨c, r, by rwa [hn], hrun, hspills, hbody⟩, ?_, by omega, by omega, by omega,
    by omega⟩
  intro m d next' q hd hq
  refine ⟨fun ids hids x hx => hd.lt_size_of_mem_candidateClasses hb hq hids hx, ?_⟩
  intro sp q' step hq'
  exact step.candidateClasses_eq (hd.closed hb) hq'

/-- A body that already uses the stack, with four values that are live together and a pin. -/
def crowded : Body :=
  ofStore #[{ op := .load 0 }, { op := .int 1, pin := some 0 }, { op := .int 2 }, { op := .int 3 },
    { op := .binary .plus 1 2 }, { op := .binary .plus 4 3 }, { op := .store 5 0 },
    { op := .binary .plus 0 5, slot := some 0 }, { op := .print 7 }]

/-- One register is not enough for it at first. -/
theorem terminates_crowded :
    crowded.Closed ∧ ∃ a s, crowded.allocate 1 = .ok a ∧ Storage.ofBody crowded = .ok s ∧
      1 ≤ a.allocation.rounds ∧ a.allocation.rounds - 1 ≤ a.allocation.slots ∧
      a.allocation.slots ≤ (crowded.candidates s).size ∧
      a.allocation.rounds ≤ crowded.size + 1 := by
  have hclosed : crowded.Closed := by decide
  obtain ⟨a, s, ha, hs, -, -, hbounds⟩ := hclosed.terminates_allocate (le_refl 1)
  exact ⟨hclosed, a, s, ha, hs, hbounds⟩

end Body

end Backend
