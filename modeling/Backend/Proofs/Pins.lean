/-
# Pins

A pin asks for a register for one instruction, but registers go to variables.  A variable is pinned
where its first pinned member is, and either gets that register or is spilled; it is spilled only if
a younger variable with the same pin is live together with it and has the register
(`Interference.exists_rival`).  So an instruction has the register it asks for, unless another
pinned member of its variable asks for a different one (`Body.Closed.register_of_pin`,
`Body.pin_lost_join`).
-/
import Mathlib
import Backend.Proofs.Rewriting

namespace Backend

/-! ## Lost pins -/

namespace Coloring

namespace Selection

variable {g : Interference} {k : Nat} {s : Selection}

/-- Giving a register to a node concerns no other node. -/
theorem colorOf_assign_of_ne {id x : Nat} (h : x ≠ id) (r : Nat) :
    (s.assign id r).colorOf x = s.colorOf x := by
  rw [colorOf, colorOf, assign, Array.getElem?_setIfInBounds_ne (Ne.symm h)]

theorem colorOf_placePinned_of_ne {p : Nat × Nat} {x : Nat} (h : x ≠ p.1) :
    (s.placePinned g p).colorOf x = s.colorOf x := by
  unfold placePinned
  split
  · rfl
  · exact colorOf_assign_of_ne h p.2

theorem colorOf_placeFree_of_ne {reserved : List Nat} {id x : Nat} (h : x ≠ id) :
    (s.placeFree g k reserved id).colorOf x = s.colorOf x := by
  unfold placeFree
  split
  · exact colorOf_assign_of_ne h _
  · rfl

theorem colorOf_foldl_placePinned {ps : List (Nat × Nat)} {x : Nat} (h : ∀ p ∈ ps, x ≠ p.1) :
    (ps.foldl (placePinned g) s).colorOf x = s.colorOf x := by
  induction ps generalizing s with
  | nil => rfl
  | cons p ps ih =>
    rw [List.foldl_cons, ih fun q hq => h q (List.mem_cons_of_mem p hq)]
    exact colorOf_placePinned_of_ne (h p List.mem_cons_self)

/-- Placing other nodes changes neither the register of a node nor whether it is spilled. -/
theorem foldl_placeFree_of_notMem {reserved ids : List Nat} {x : Nat} (h : x ∉ ids) :
    (ids.foldl (placeFree g k reserved) s).colorOf x = s.colorOf x ∧
      (x ∈ (ids.foldl (placeFree g k reserved) s).spilled ↔ x ∈ s.spilled) := by
  induction ids generalizing s with
  | nil => exact ⟨rfl, Iff.rfl⟩
  | cons id ids ih =>
    rw [List.mem_cons, not_or] at h
    obtain ⟨hne, hnot⟩ := h
    obtain ⟨hcolor, hspilled⟩ := @ih (s.placeFree g k reserved id) hnot
    refine ⟨hcolor.trans (colorOf_placeFree_of_ne hne), hspilled.trans ?_⟩
    unfold placeFree
    split
    · exact Iff.rfl
    · exact List.mem_cons.trans (or_iff_right hne)

/-- **Run lemma.**  Pinned nodes are placed from the youngest to the oldest, so that one that is
spilled has a younger neighbour with its register. -/
theorem exists_rival_of_mem_spilled {ps : List (Nat × Nat)}
    (hps : ps.Pairwise fun p q => q.1 < p.1)
    (hs : ∀ y r, s.colorOf y = some r → ∀ p ∈ ps, p.1 < y) {id : Nat}
    (hid : id ∈ (ps.foldl (placePinned g) s).spilled) (hnot : id ∉ s.spilled) :
    ∃ r, (id, r) ∈ ps ∧
      ∃ y ∈ g.adj id, id < y ∧ (ps.foldl (placePinned g) s).colorOf y = some r := by
  induction ps generalizing s with
  | nil => exact absurd hid hnot
  | cons p ps ih =>
    obtain ⟨hp, hps'⟩ := List.pairwise_cons.1 hps
    rw [List.foldl_cons] at hid ⊢
    by_cases hself : id ∈ (s.placePinned g p).spilled
    · -- the node is spilled here, because a neighbour that came before has its register
      unfold placePinned at hself
      split at hself
      · rename_i hused
        obtain rfl : id = p.1 := (List.mem_cons.1 hself).resolve_right hnot
        obtain ⟨y, hadj, hy⟩ := mem_usedAround.1 hused
        have hlt := hs y p.2 hy
        refine ⟨p.2, List.mem_cons_self, y, hadj, hlt p List.mem_cons_self, ?_⟩
        rw [colorOf_foldl_placePinned fun q hq =>
          ne_of_gt (hlt q (List.mem_cons_of_mem p hq)),
          colorOf_placePinned_of_ne (ne_of_gt (hlt p List.mem_cons_self))]
        exact hy
      · exact absurd hself hnot
    · have hs' : ∀ y r, (s.placePinned g p).colorOf y = some r → ∀ q ∈ ps, q.1 < y := by
        intro y r hy q hq
        by_cases hyp : y = p.1
        · rw [hyp]
          exact hp q hq
        · rw [colorOf_placePinned_of_ne hyp] at hy
          exact hs y r hy q (List.mem_cons_of_mem p hq)
      obtain ⟨r, hr, hrival⟩ := ih hps' hs' hid hself
      exact ⟨r, List.mem_cons_of_mem p hr, hrival⟩

end Selection

/-- The pinned nodes are listed in increasing order. -/
theorem pairwise_pins (g : Interference) (k : Nat) : (pins g k).Pairwise fun p q => p.1 < q.1 := by
  refine List.pairwise_filterMap.2 (List.pairwise_lt_range.imp ?_)
  intro x y hxy p hp q hq
  obtain ⟨-, -, rfl⟩ := Option.map_eq_some_iff.1 hp
  obtain ⟨-, -, rfl⟩ := Option.map_eq_some_iff.1 hq
  exact hxy

/-- **A spilled pinned node has a younger neighbour that keeps the register.** -/
theorem exists_rival_select {g : Interference} {k : Nat} (hsym : g.Symmetric)
    (hirr : g.Irreflexive) {w : Working} {id r : Nat} (hpin : pinOf g k id = some r)
    (hid : id ∈ (select g k w).spilled) :
    ∃ y ∈ g.adj id, id < y ∧ pinOf g k y = some r ∧ (select g k w).colorOf y = some r := by
  obtain ⟨hsane, -, -⟩ := sane_start.foldl_placePinned hsym hirr (pins g k).reverse
    fun p hp => List.mem_reverse.1 hp
  have hsorted : (pins g k).reverse.Pairwise fun p q => q.1 < p.1 :=
    List.pairwise_reverse.2 (pairwise_pins g k)
  have hfree : ∀ {x q : Nat}, pinOf g k x = some q → x ∉ freeOrder g k w := by
    intro x q hx hmem
    rw [(mem_freeOrder.1 hmem).2] at hx
    exact absurd hx (by simp)
  -- pinned nodes are left alone by the second pass
  have hid' := (Selection.foldl_placeFree_of_notMem (hfree hpin)).2.1 hid
  obtain ⟨r', hr', y, hadj, hlt, hy⟩ := Selection.exists_rival_of_mem_spilled hsorted
    (fun y r hy => absurd ((colorOf_start g.size y).symm.trans hy) (by simp)) hid' List.not_mem_nil
  obtain rfl : r' = r := by
    have h := (Selection.mem_pins (List.mem_reverse.1 hr')).2
    exact Option.some.inj (h.symm.trans hpin)
  have hypin : pinOf g k y = some r' :=
    (hsane.honest y r' hy).resolve_right fun h => h.2 id hpin
  refine ⟨y, hadj, hlt, hypin, ?_⟩
  exact (Selection.foldl_placeFree_of_notMem (hfree hypin)).1.trans hy

end Coloring

namespace Interference

/-- **Who takes a pin away.**  A pinned variable is spilled only if a younger one with the same pin
is live together with it and has the register. -/
theorem exists_rival {f : FlowGraph} {cs : Candidates} {k r : Nat} {d : Candidate}
    (hd : d ∈ cs.toList) (hpin : d.effectivePin k = some r)
    (hspill : d.var ∈ ((build f cs).color k).spills) :
    ∃ e ∈ cs.toList, d.var < e.var ∧ e.effectivePin k = some r ∧
      ((build f cs).color k).register? e.var = some r ∧
      ∃ live ∈ liveSets f, d.var ∈ live ∧ e.var ∈ live := by
  obtain ⟨id, hid⟩ := List.getElem?_of_mem hd
  obtain ⟨id', hvar, hspilled⟩ := mem_spills_color.1 hspill
  obtain rfl : id' = id := var?_injective hvar (var?_build_eq_some.2 ⟨d, hid, rfl⟩)
  obtain ⟨y, hadj, hlt, hypin, hy⟩ := Coloring.exists_rival_select (symmetric_build f cs)
    (irreflexive_build f cs) (by rw [pinOf_build hid, hpin]) hspilled
  obtain ⟨-, c, e, hc, he, live, hlive, hdl, hel⟩ := mem_adj_build.1 hadj
  obtain rfl : d = c := Option.some.inj (hid.symm.trans hc)
  obtain ⟨hidlt, hdget⟩ := List.getElem?_eq_some_iff.1 hid
  obtain ⟨hylt, heget⟩ := List.getElem?_eq_some_iff.1 he
  refine ⟨e, List.mem_of_getElem? he, ?_, by rw [← pinOf_build he, hypin],
    register?_color.2 ⟨y, var?_build_eq_some.2 ⟨e, he, rfl⟩, hy⟩, live, hlive, hdl, hel⟩
  have hsorted := List.pairwise_iff_getElem.1 cs.sorted id' y hidlt hylt hlt
  rwa [hdget, heget] at hsorted

end Interference

/-! ## Pins and registers -/

/-- A pin counts if there is such a register. -/
theorem Candidate.effectivePin_of_lt {d : Candidate} {k p : Nat} (hpin : d.pin = some p)
    (hp : p < k) : d.effectivePin k = some p :=
  Option.filter_eq_some_iff.2 ⟨hpin, decide_eq_true hp⟩

/-- A pinned variable that is not spilled has its register. -/
theorem Coloring.Fits.register?_of_effectivePin {c : Coloring} {k p : Nat} {cs : Candidates}
    {sets : List IdSet} (h : c.Fits k cs sets) {d : Candidate} (hd : d ∈ cs.toList)
    (hpin : d.effectivePin k = some p) (hspill : d.var ∉ c.spills) :
    c.register? d.var = some p := by
  obtain ⟨q, hq⟩ := (h.complete d hd).resolve_right hspill
  rcases h.honest d hd q hq with hpin' | ⟨hnone, -⟩
  · rw [hq, ← hpin', hpin]
  · rw [hpin] at hnone
    exact absurd hnone (by simp)

namespace Body

variable {b c : Body}

/-- The pin of a pinned instruction's variable exists, and is that of a member. -/
theorem exists_pin? {s : Storage} (hs : s.Valid b) {x v r : Nat} {i : Instr}
    (hxv : s.var? x = some v) (hi : b.store[x]? = some i) (hpin : i.pin = some r) :
    ∃ p, b.pin? s v = some p := by
  cases hp : b.pin? s v with
  | some p => exact ⟨p, rfl⟩
  | none =>
    have hall := List.findSome?_eq_none_iff.1 hp x ((hs.mem_members v x).2 hxv)
    rw [hi, Option.bind_some, hpin] at hall
    exact absurd hall (by simp)

theorem exists_of_pin? {s : Storage} (hs : s.Valid b) {v p : Nat} (hp : b.pin? s v = some p) :
    ∃ x i, s.var? x = some v ∧ b.store[x]? = some i ∧ i.pin = some p := by
  obtain ⟨x, hx, hpin⟩ := List.exists_of_findSome?_eq_some hp
  obtain ⟨i, hi, hpin⟩ := Option.bind_eq_some_iff.1 hpin
  exact ⟨x, i, (hs.mem_members v x).1 hx, hi, hpin⟩

/-- Rounds keep the pins of variables. -/
theorem Retained.pin?_eq {lo hi : Nat} (h : b.Retained c lo hi) {s t : Storage}
    (hs : Storage.ofBody b = .ok s) (ht : Storage.ofBody c = .ok t) {x v w : Nat}
    (hlt : x < b.store.size) (hv : v < b.size) (hxv : s.var? x = some v)
    (hxw : t.var? x = some w) : c.pin? t w = b.pin? s v := by
  obtain ⟨f, -, hst⟩ := h.renames s t hs ht
  have hw : f v = w := by
    have hmap := hst.var?_eq x hlt
    rw [hxv, hxw] at hmap
    exact (Option.some.inj hmap).symm
  rw [← hw]
  refine hst.pin?_eq (fun y hy => ?_) hv
  obtain ⟨i, hi⟩ := exists_instr hy
  obtain ⟨j, -, hj, -, hpin⟩ := h.old y i hi
  rw [hi, hj, Option.bind_some, Option.bind_some, hpin]

/-- What is pinned after rounds was there, with its pin, before them. -/
theorem Retained.exists_old_of_pin {lo hi : Nat} (h : b.Retained c lo hi) {x r : Nat} {j : Instr}
    (hj : c.store[x]? = some j) (hpin : j.pin = some r) :
    ∃ i f, b.store[x]? = some i ∧ j.op = i.op.mapOperands f ∧ i.pin = some r := by
  have hlt : x < b.store.size := by
    by_contra hge
    rw [(h.new x j hj (not_lt.1 hge)).2.1] at hpin
    exact absurd hpin (by simp)
  obtain ⟨i, hi⟩ := exists_instr hlt
  obtain ⟨j', f, hj', hop, hpin'⟩ := h.old x i hi
  obtain rfl : j = j' := Option.some.inj (hj.symm.trans hj')
  exact ⟨i, f, hi, hop, hpin' ▸ hpin⟩

/-- **What becomes of a pin.**  After allocation, a pinned instruction whose value is not on the
stack has the register that the first pinned member of its variable asks for, if there is such a
register, and else any; so it has the register it asks for itself if no member of its variable asks
for another one. -/
theorem Closed.register_of_pin {b : Body} (hb : b.Closed) (hplain : b.Plain) {k : Nat}
    {a : Allocated} (ha : b.allocate k = .ok a) :
    ∃ s, Storage.ofBody b = .ok s ∧ ∀ (x r : Nat) (j : Instr), a.body.store[x]? = some j →
      j.op.definesValue = true → j.slot = none → j.pin = some r → r < k →
      ∃ v p, s.var? x = some v ∧ b.pin? s v = some p ∧ (p < k → j.register = some p) ∧
        (k ≤ p → ∃ q < k, j.register = some q) ∧
        ((∀ (y q : Nat) (i : Instr), s.var? y = some v → b.store[y]? = some i → i.pin = some q →
          q = r) → j.register = some r) := by
  have hk : 1 ≤ k := by
    by_contra hk
    rw [allocate, if_pos (by omega)] at ha
    exact absurd ha (by simp)
  obtain ⟨s, hs, hdesc⟩ := hb.exists_storage
  obtain ⟨a', c, n, rd, ha', hrounds, hrun, hspills, hbody, -⟩ := hb.exists_rewritesTo hk
  obtain rfl : a = a' := Except.ok.inj (ha.symm.trans ha')
  have hret := hrounds.retained hb
  have hc := (hrounds.spillRounds (hb.tidy hplain 0)).2
  have hr := hc.toClosed.describes_of_round hrun
  refine ⟨s, hs, fun x r j hj hdef hslot hpin hrk => ?_⟩
  rw [hbody] at hj
  obtain ⟨i, hi, hop, hpin', hslot', hreg⟩ := cases_assignRegisters hj
  rw [hop] at hdef
  rw [hpin'] at hpin
  -- an instruction with a pin is one of the body, and no load
  obtain ⟨i₀, f, hi₀, hop', hpin₀⟩ := hret.exists_old_of_pin hi hpin
  have hlt := lt_size_of_getElem? hi₀
  have hload : ∀ q, i.op ≠ .load q := by
    intro q hq
    have hacc := (Instr.isSpillCode_eq_false.1 (hplain x i₀ hi₀)).2
    rw [← Op.accessesSlot_mapOperands f, ← hop', hq] at hacc
    exact absurd hacc (by simp [Op.accessesSlot])
  obtain ⟨v, hxv⟩ := hdesc.total x hlt
  obtain ⟨w, hxw⟩ := hr.storage.total x (lt_size_of_getElem? hi)
  obtain ⟨p, hp⟩ := exists_pin? hdesc.toValid hxv hi₀ hpin₀
  have hpw : c.pin? rd.storage w = some p := by
    rw [hret.pin?_eq hs hr.storage_eq hlt (hdesc.var_lt_size hxv) hxv hxw, hp]
  have hcomp := competes_of_slot_eq_none hc hr hi hxw hdef hload (hslot' ▸ hslot)
  have hd : (⟨w, some p⟩ : Candidate) ∈ rd.candidates.toList := by
    rw [hr.candidates]
    exact (mem_candidates hr.storage.toValid).2 ⟨hcomp, hpw.symm⟩
  -- a candidate of the last round has a register
  have hnot : w ∉ rd.coloring.spills := by rw [hspills]; exact List.not_mem_nil
  obtain ⟨q, hq⟩ := (hr.fits.complete _ hd).resolve_right hnot
  have hjq : j.register = some q := by
    rw [hreg, if_pos hdef, hxw, Option.bind_some, hq]
  have hpq : p < k → j.register = some p := by
    intro hpk
    have heff := Candidate.effectivePin_of_lt (d := ⟨w, some p⟩) rfl hpk
    rw [hjq, ← hq]
    exact hr.fits.register?_of_effectivePin hd heff hnot
  refine ⟨v, p, hxv, hp, hpq, fun _ => ⟨q, hr.fits.bound w q hq, hjq⟩, fun hall => ?_⟩
  obtain ⟨y, iy, hyv, hiy, hypin⟩ := exists_of_pin? hdesc.toValid hp
  rw [← hall y p iy hyv hiy hypin]
  exact hpq (by rw [hall y p iy hyv hiy hypin]; exact hrk)

/-- A body in which two values are joined and the first one is pinned where `first` says and the
second one to register 1. -/
def joinPinned (first : Nat) : Body :=
  ofStore #[{ op := .int 1, pin := some first }, { op := .int 2, pin := some 1 },
    { op := .unify 0 1 }, { op := .print 2 }]

/-- Joined values that are pinned alike get their register. -/
theorem register_of_pin_join :
    (joinPinned 1).Closed ∧ (joinPinned 1).Plain ∧ ∃ a j, (joinPinned 1).allocate 2 = .ok a ∧
      a.body.store[1]? = some j ∧ j.pin = some 1 ∧ j.slot = none ∧ j.register = some 1 := by
  have hclosed : (joinPinned 1).Closed := by decide
  have hplain : (joinPinned 1).Plain := by decide
  have hpins : ∀ (x : Nat) (i : Instr), (joinPinned 1).store[x]? = some i →
      i.pin = none ∨ i.pin = some 1 := forall_mem_store.1 (by decide)
  have hrun : ((joinPinned 1).allocate 2).toOption.any (fun a =>
      decide (a.body.store[1]?.map (fun j => (j.op, j.slot, j.pin)) =
        some (.int 2, none, some 1))) = true := by decide +kernel
  obtain ⟨a, ha, htest⟩ := exists_ok_of_any hrun
  obtain ⟨j, hj, he⟩ := Option.map_eq_some_iff.1 (of_decide_eq_true htest)
  obtain ⟨hop, hslot, hpin⟩ : j.op = .int 2 ∧ j.slot = none ∧ j.pin = some 1 := by simpa using he
  obtain ⟨s, -, h⟩ := Closed.register_of_pin hclosed hplain ha
  obtain ⟨v, p, -, -, -, -, hreg⟩ := h 1 1 j hj (by rw [hop]; rfl) hslot hpin (by decide)
  refine ⟨hclosed, hplain, a, j, ha, hj, hpin, hslot, hreg fun y q i _ hi hq => ?_⟩
  rcases hpins y i hi with h | h
  · exact absurd (h.symm.trans hq) (by simp)
  · exact (Option.some.inj (h.symm.trans hq)).symm

/-- **A pin is lost in a join.**  The first value asks for a register that there is not, and the
second one, which asks for a register that nobody else wants, gets another one. -/
theorem pin_lost_join :
    (joinPinned 7).Closed ∧ (joinPinned 7).Plain ∧ ∃ a j, (joinPinned 7).allocate 2 = .ok a ∧
      a.body.store[1]? = some j ∧ j.op.definesValue = true ∧ j.pin = some 1 ∧ j.slot = none ∧
      j.register = some 0 := by
  have hrun : ((joinPinned 7).allocate 2).toOption.any (fun a =>
      decide (a.body.store[1]? = some { op := .int 2, pin := some 1, register := some 0 })) =
        true := by decide +kernel
  obtain ⟨a, ha, htest⟩ := exists_ok_of_any hrun
  exact ⟨by decide, by decide, a, _, ha, of_decide_eq_true htest, rfl, rfl, rfl, rfl⟩

end Body

end Backend
