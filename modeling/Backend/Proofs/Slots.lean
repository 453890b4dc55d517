/-
# Slots over several allocations

An allocated body can be allocated again, with other registers.  Its slots and its spill code stay
(`Body.Closed.exists_allocateAll`), but every allocation counts its slots from zero.  So the slots
that one allocation gives are apart (`Body.Closed.slot_ne_allocateAll`), and those of different
allocations need not be (`Body.slots_collide_three_values`).
-/
import Mathlib
import Backend.Proofs.Rewriting

namespace Backend

namespace Body

/-- Allocate a body again and again, each time the listed number of registers. -/
def allocateAll (b : Body) : List Nat → Except Fault Body
  | [] => .ok b
  | k :: ks => do
    let a ← b.allocate k
    a.body.allocateAll ks

theorem allocateAll_append (b : Body) (ks ls : List Nat) :
    b.allocateAll (ks ++ ls) = b.allocateAll ks >>= fun c => c.allocateAll ls := by
  induction ks generalizing b with
  | nil => rfl
  | cons k ks ih =>
    show (b.allocate k >>= fun a => a.body.allocateAll (ks ++ ls)) =
      (b.allocate k >>= fun a => a.body.allocateAll ks) >>= fun c => c.allocateAll ls
    cases b.allocate k with
    | error e => rfl
    | ok a => exact ih a.body

/-- **Run lemma.**  Allocations follow one another without end, and keep classes and slots. -/
theorem Closed.exists_allocateAll {b : Body} (hb : b.Closed) {ks : List Nat}
    (hks : ∀ k ∈ ks, 1 ≤ k) :
    ∃ c, b.allocateAll ks = .ok c ∧ c.Closed ∧ (∀ x y, c.Linked x y ↔ b.Linked x y) ∧
      ∀ x q, b.slot? x = some q → c.slot? x = some q := by
  induction ks generalizing b with
  | nil => exact ⟨b, rfl, hb, fun _ _ => Iff.rfl, fun _ _ h => h⟩
  | cons k ks ih =>
    obtain ⟨a, ha, hret⟩ := hb.retained_allocate (hks k List.mem_cons_self)
    obtain ⟨c, hc, hclosed, hlinked, hslot⟩ :=
      ih hret.closed fun j hj => hks j (List.mem_cons_of_mem k hj)
    refine ⟨c, bind_eq_ok_iff.2 ⟨a, ha, hc⟩, hclosed, fun x y => ?_, fun x q hq => ?_⟩
    · exact (hlinked x y).trans (hret.linked_iff x y)
    · exact hslot x q (hret.slot_kept x q hq)

/-- **Slots given by one allocation are apart.**  Whatever allocations come before and after it, all
succeed, instructions keep the slots that this one gives them, and two of these instructions in
different variables of the body in the end have different slots. -/
theorem Closed.slot_ne_allocateAll {b : Body} (hb : b.Closed) (before : List Nat) (k : Nat)
    (after : List Nat) (hks : ∀ j ∈ before ++ k :: after, 1 ≤ j) :
    ∃ b₁ a c s, b.allocateAll before = .ok b₁ ∧ b₁.allocate k = .ok a ∧
      b.allocateAll (before ++ k :: after) = .ok c ∧ Storage.ofBody c = .ok s ∧
      ∀ x q, b₁.slot? x = none → a.body.slot? x = some q →
        q < a.allocation.slots ∧ c.slot? x = some q ∧
        ∀ y q', b₁.slot? y = none → a.body.slot? y = some q' → s.var? x ≠ s.var? y → q ≠ q' := by
  obtain ⟨b₁, hb₁, hclosed₁, -⟩ :=
    hb.exists_allocateAll fun j hj => hks j (List.mem_append_left _ hj)
  obtain ⟨a, ha, hret⟩ :=
    hclosed₁.retained_allocate (hks k (List.mem_append_right _ List.mem_cons_self))
  obtain ⟨c, hc, hclosed, hlinked, hslot⟩ := hret.closed.exists_allocateAll
    fun j hj => hks j (List.mem_append_right _ (List.mem_cons_of_mem k hj))
  obtain ⟨s, hs, hdesc⟩ := hclosed.exists_storage
  refine ⟨b₁, a, c, s, hb₁, ha, ?_, hs, fun x q hx hxq => ?_⟩
  · rw [allocateAll_append, hb₁]
    show (b₁.allocate k >>= fun a => a.body.allocateAll after) = .ok c
    exact bind_eq_ok_iff.2 ⟨a, ha, hc⟩
  · refine ⟨(hret.slot_given x q hx hxq).2.1, hslot x q hxq, ?_⟩
    rintro y q' hy hyq hne rfl
    -- one slot is one class, and classes stay
    have hlink := hret.slot_linked x y q hx hy hxq hyq
    refine hne (hdesc.var?_eq_of_linked hclosed ((hlinked x y).2 ?_))
    exact (hret.linked_iff x y).2 hlink

/-- With one register, two of the three values go to the stack, and the next allocation leaves them
there. -/
theorem slot_ne_three_values :
    threeValues.Closed ∧ ∃ c q q', threeValues.allocateAll [1, 2] = .ok c ∧
      c.slot? 0 = some q ∧ c.slot? 2 = some q' ∧ q ≠ q' := by
  have hclosed : threeValues.Closed := by decide
  obtain ⟨b₁, a, c, s, hb₁, ha, hc, hs, h⟩ :=
    Closed.slot_ne_allocateAll hclosed [] 1 [2] (by decide)
  obtain rfl : threeValues = b₁ := Except.ok.inj hb₁
  obtain ⟨a', ha', htest⟩ : ∃ a, threeValues.allocate 1 = .ok a ∧
      decide (a.body.slot? 0 = some 0 ∧ a.body.slot? 2 = some 1) = true :=
    exists_ok_of_any (by decide +kernel)
  obtain rfl : a = a' := Except.ok.inj (ha.symm.trans ha')
  obtain ⟨h0, h2⟩ := of_decide_eq_true htest
  obtain ⟨c', hc', hvars⟩ : ∃ c, threeValues.allocateAll [1, 2] = .ok c ∧
      (Storage.ofBody c).toOption.any (fun s => decide (s.var? 0 ≠ s.var? 2)) = true :=
    exists_ok_of_any (by decide +kernel)
  obtain rfl : c = c' := Except.ok.inj (hc.symm.trans hc')
  obtain ⟨s', hs', hne⟩ := exists_ok_of_any hvars
  obtain rfl : s = s' := Except.ok.inj (hs.symm.trans hs')
  obtain ⟨-, hc0, hapart⟩ := h 0 0 (by decide) h0
  obtain ⟨-, hc2, -⟩ := h 2 1 (by decide) h2
  exact ⟨hclosed, c, 0, 1, hc, hc0, hc2, hapart 2 1 (by decide) h2 (of_decide_eq_true hne)⟩

/-- **Slots of different allocations collide.**  The second allocation gives the slot of the first
one again, to another variable. -/
theorem slots_collide_three_values :
    threeValues.Closed ∧ threeValues.Plain ∧ ∃ c s, threeValues.allocateAll [2, 1] = .ok c ∧
      Storage.ofBody c = .ok s ∧ c.slot? 0 = some 0 ∧ c.slot? 2 = some 0 ∧
      s.var? 0 ≠ s.var? 2 := by
  obtain ⟨c, hc, h⟩ : ∃ c, threeValues.allocateAll [2, 1] = .ok c ∧
      (Storage.ofBody c).toOption.any (fun s => decide (c.slot? 0 = some 0 ∧ c.slot? 2 = some 0 ∧
        s.var? 0 ≠ s.var? 2)) = true :=
    exists_ok_of_any (by decide +kernel)
  obtain ⟨s, hs, h⟩ := exists_ok_of_any h
  exact ⟨by decide, by decide, c, s, hc, hs, of_decide_eq_true h⟩

end Body

end Backend
