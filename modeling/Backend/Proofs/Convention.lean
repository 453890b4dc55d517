/-
# Calling conventions through allocation

In a `Body.Conventional` body the parameters and arguments are pinned to the registers that carry
them, and they come into each other's way only where a parameter and an argument with the same index
are live together.  Then the argument keeps the register and the parameter yields: it moves to the
stack, and its store stands right behind it (`Body.Conventional.cases_allocate`).
-/
import Mathlib
import Backend.RegisterFile
import Backend.Proofs.Pins

namespace Backend

/-! ## Registers that carry arguments -/

namespace RegisterFile

variable {f : RegisterFile} {n m r : Nat}

theorem argRegister_lt (h : f.argRegister n = some r) : r < f.free :=
  of_decide_eq_true (Option.filter_eq_some_iff.1 h).2

/-- Different arguments are carried by different registers. -/
theorem argRegister_injective (hf : f.args.Nodup) (hn : f.argRegister n = some r)
    (hm : f.argRegister m = some r) : n = m := by
  have hn' := (Option.filter_eq_some_iff.1 hn).1
  have hm' := (Option.filter_eq_some_iff.1 hm).1
  exact (List.getElem?_inj (List.getElem?_eq_some_iff.1 hn').1 hf).1 (hn'.trans hm'.symm)

end RegisterFile

/-- An operation with an argument index is a parameter or an argument. -/
theorem Op.argIndex_eq_some {op : Op} {n : Nat} (h : op.argIndex = some n) :
    op = .parameter n ∨ ∃ v, op = .arg v n := by
  cases op with
  | parameter i => exact Or.inl (congrArg Op.parameter (Option.some.inj h))
  | arg v i => exact Or.inr ⟨v, congrArg (Op.arg v) (Option.some.inj h)⟩
  | _ => cases h

namespace Body

/-! ## Stores right behind what they store -/

/-- The instruction is followed by the store of its value to a slot. -/
def StoredBehind (b : Body) (x q : Nat) : Prop :=
  ∃ p i y j, b.toList[p]? = some (x, i) ∧ b.toList[p + 1]? = some (y, j) ∧ j.op = .store x q

theorem SameOps.storedBehind {b c : Body} (h : b.SameOps c) {x q : Nat} (hx : b.StoredBehind x q) :
    c.StoredBehind x q := by
  obtain ⟨p, i, y, j, hp, hp', hop⟩ := hx
  obtain ⟨i', hi', -⟩ := h.getElem?_toList hp
  obtain ⟨j', hj', hop'⟩ := h.getElem?_toList hp'
  exact ⟨p, i', y, j', hi', hj', hop'.trans hop⟩

section

variable {b c : Body} {slots : SlotMap} {start fresh : Nat → Nat}
  (hx : b.Expands c slots start fresh)

include hx

/-- What moves to the stack is followed by its store. -/
theorem Expands.storedBehind_given {x p q : Nat} {i : Instr} (hp : b.toList[p]? = some (x, i))
    (hdef : i.op.definesValue = true) (hunify : i.op.isUnify = false)
    (hq : slots.slotOf x = some q) : c.StoredBehind x q :=
  ⟨_, _, _, _, hx.getElem?_main hp,
    hx.getElem?_store hp (SlotMap.toStore_eq_some.2 ⟨hdef, hunify, hq⟩), rfl⟩

/-- Nothing comes between an instruction and its store. -/
theorem Expands.getElem?_store_kept {p x y q : Nat} {i j : Instr}
    (hp : b.toList[p]? = some (x, i)) (hp' : b.toList[p + 1]? = some (y, j))
    (hop : j.op = .store x q) (hnone : slots.slotOf x = none) :
    ∃ p' j', c.toList[p']? = some (x, Expands.written slots (fresh p) x i) ∧
      c.toList[p' + 1]? = some (y, j') ∧ j'.op = .store x q := by
  have hsave : slots.toStore x i.op = none := by
    rw [Option.eq_none_iff_forall_ne_some]
    intro s hs
    rw [(SlotMap.toStore_eq_some.1 hs).2.2] at hnone
    cases hnone
  have hload : slots.toLoad y j.op = [] := by
    rw [hop, SlotMap.toLoad]
    simp [Op.isUnify, Op.operands, hnone]
  have hnext : start (p + 1) = start p + (slots.toLoad x i.op).length + 1 := by
    rw [hx.start_succ p x i hp, SlotMap.extra, hsave]
    rfl
  have hmain := hx.getElem?_main hp'
  rw [hload, List.length_nil, Nat.add_zero, hnext] at hmain
  refine ⟨_, _, hx.getElem?_main hp, hmain, ?_⟩
  rw [Expands.op_written, Op.mapOperands_eq_self, hop]
  intro o ho
  rw [hop] at ho
  obtain rfl : o = x := List.mem_singleton.1 ho
  rw [SlotMap.redirect, hnone]
  rfl

theorem Expands.storedBehind_kept {x q : Nat} (h : b.StoredBehind x q)
    (hnone : slots.slotOf x = none) : c.StoredBehind x q := by
  obtain ⟨p, i, y, j, hp, hp', hop⟩ := h
  obtain ⟨p', j', hmain, hstore, hop'⟩ := hx.getElem?_store_kept hp hp' hop hnone
  exact ⟨p', _, y, j', hmain, hstore, hop'⟩

end

/-! ## Conventional bodies -/

/-- The instruction is live together with an argument with the index `n`. -/
def MeetsArg (b : Body) (x n : Nat) : Prop :=
  ∃ y j v, b.store[y]? = some j ∧ j.op = .arg v n ∧ b.LiveTogether x y

/-- A closed body without spill code in which parameters and arguments, and nothing else, are pinned
to the registers that carry them. -/
structure Conventional (f : RegisterFile) (b : Body) : Prop extends b.Closed where
  plain : b.Plain
  pins : ∀ (x : Nat) (i : Instr), b.store[x]? = some i → i.pin = i.op.argIndex.bind f.argRegister
  /-- No two of them share a variable. -/
  alone : ∀ (x y : Nat) (i j : Instr), b.store[x]? = some i → b.store[y]? = some j →
    i.op.argIndex.isSome → j.op.argIndex.isSome → b.Linked x y → x = y
  parameters : ∀ (x y : Nat) (i j : Instr) (n : Nat), b.store[x]? = some i → b.store[y]? = some j →
    i.op = .parameter n → j.op = .parameter n → x = y
  /-- Arguments with the same index are not in each other's way. -/
  args : ∀ (x y : Nat) (i j : Instr) (u v n : Nat), b.store[x]? = some i → b.store[y]? = some j →
    i.op = .arg u n → j.op = .arg v n → x ≠ y → ¬ b.Together x y
  /-- Parameters are older than arguments. -/
  older : ∀ (s : Storage) (x y : Nat) (i j : Instr) (n u m v w : Nat), Storage.ofBody b = .ok s →
    b.store[x]? = some i → b.store[y]? = some j → i.op = .parameter n → j.op = .arg u m →
    s.var? x = some v → s.var? y = some w → v < w

section

variable {f : RegisterFile} {b : Body} (h : b.Conventional f) {x q : Nat} {i : Instr}
  (hi : b.store[x]? = some i) (hpin : i.pin = some q)

include h hi hpin

/-- What is pinned is a parameter or an argument. -/
theorem Conventional.exists_argIndex : ∃ n, i.op.argIndex = some n ∧ f.argRegister n = some q := by
  rw [h.pins x i hi] at hpin
  exact Option.bind_eq_some_iff.1 hpin

theorem Conventional.definesValue : i.op.definesValue = true ∧ i.op.isUnify = false := by
  obtain ⟨n, hn, -⟩ := h.exists_argIndex hi hpin
  rcases Op.argIndex_eq_some hn with hop | ⟨v, hop⟩ <;> rw [hop] <;> exact ⟨rfl, rfl⟩

/-- The variable of a pinned instruction has its pin. -/
theorem Conventional.pin?_eq {s : Storage} (hs : s.Describes b) {v : Nat}
    (hxv : s.var? x = some v) : b.pin? s v = some q := by
  obtain ⟨p, hp⟩ := exists_pin? hs.toValid hxv hi hpin
  obtain ⟨y, j, hyv, hj, hjp⟩ := exists_of_pin? hs.toValid hp
  have hxy : b.Linked x y :=
    (hs.var?_eq_iff (hs.lt_size hxv) (hs.lt_size hyv)).1 (hxv.trans hyv.symm)
  obtain ⟨n, hn, -⟩ := h.exists_argIndex hi hpin
  obtain ⟨m, hm, -⟩ := h.exists_argIndex hj hjp
  obtain rfl := h.alone x y i j hi hj (by rw [hn]; rfl) (by rw [hm]; rfl) hxy
  obtain rfl : i = j := Option.some.inj (hi.symm.trans hj)
  rw [hp, ← hjp, hpin]

end

/-! ## One round -/

theorem coloring_of_round {b : Body} {k : Nat} {r : Round} (h : b.round k = .ok r) :
    r.coloring = (Interference.build r.flow r.candidates).color k := by
  obtain ⟨s, -, h⟩ := bind_eq_ok_iff.1 h
  obtain ⟨g, -, h⟩ := bind_eq_ok_iff.1 h
  cases h
  rfl

section

variable {f : RegisterFile} {b c : Body} {lo hi : Nat} (h : b.Conventional f)
  (hret : b.Retained c lo hi) {r : Round} (hrun : c.round f.free = .ok r) {x q w : Nat} {i : Instr}
  (hx : b.store[x]? = some i) (hpin : i.pin = some q) (hxw : r.storage.var? x = some w)

include h hret hrun hx hpin hxw

/-- A pinned instruction's variable competes with its pin. -/
theorem Conventional.mem_candidates (hcomp : c.Competes r.storage w) :
    (⟨w, some q⟩ : Candidate) ∈ r.candidates.toList ∧
      (⟨w, some q⟩ : Candidate).effectivePin f.free = some q := by
  have hr := hret.closed.describes_of_round hrun
  obtain ⟨s, hs, hdesc⟩ := h.exists_storage
  obtain ⟨v, hxv⟩ := hdesc.total x (lt_size_of_getElem? hx)
  have hpin' : c.pin? r.storage w = some q := by
    rw [hret.pin?_eq hs hr.storage_eq (lt_size_of_getElem? hx) (hdesc.var_lt_size hxv) hxv hxw]
    exact h.pin?_eq hx hpin hdesc hxv
  obtain ⟨n, -, hn⟩ := h.exists_argIndex hx hpin
  refine ⟨?_, Candidate.effectivePin_of_lt rfl (RegisterFile.argRegister_lt hn)⟩
  rw [hr.candidates]
  exact (Body.mem_candidates hr.storage.toValid).2 ⟨hcomp, hpin'.symm⟩

/-- What competes and is not spilled gets the register that it is pinned to. -/
theorem Conventional.register?_eq (hcomp : c.Competes r.storage w)
    (hspill : w ∉ r.coloring.spills) : r.coloring.register? w = some q := by
  obtain ⟨hd, heff⟩ := h.mem_candidates hret hrun hx hpin hxw hcomp
  exact (hret.closed.describes_of_round hrun).fits.register?_of_effectivePin hd heff hspill

/-- **Who yields.**  Only a parameter that meets an argument with its index is spilled. -/
theorem Conventional.exists_meetsArg (hf : f.args.Nodup) (hspill : w ∈ r.coloring.spills) :
    ∃ n, i.op = .parameter n ∧ b.MeetsArg x n := by
  have hr := hret.closed.describes_of_round hrun
  obtain ⟨n, hn, hreg⟩ := h.exists_argIndex hx hpin
  obtain ⟨hd, heff⟩ :=
    h.mem_candidates hret hrun hx hpin hxw (hr.competes_of_mem_spills hspill)
  rw [coloring_of_round hrun] at hspill
  obtain ⟨e, he, hlt, heff', -, hlive⟩ := Interference.exists_rival hd heff hspill
  -- the rival is a pinned instruction with the same index
  rw [hr.candidates] at he
  obtain ⟨y, j', hyw, hj', hjpin'⟩ := exists_of_pin? hr.storage.toValid
    (((Body.mem_candidates hr.storage.toValid).1 he).2 ▸ (Option.filter_eq_some_iff.1 heff').1)
  obtain ⟨j, -, hj, -, hjpin⟩ := hret.exists_old_of_pin hj' hjpin'
  have hylt := lt_size_of_getElem? hj
  obtain ⟨m, hm, hreg'⟩ := h.exists_argIndex hj hjpin
  obtain rfl := RegisterFile.argRegister_injective hf hreg hreg'
  have htogether : b.Together x y :=
    hret.together x y (lt_size_of_getElem? hx) hylt ((hr.together_iff hret.closed hxw hyw).1 hlive)
  have hne : x ≠ y := by
    rintro rfl
    rw [hxw] at hyw
    exact absurd hlt (by simp [Option.some.inj hyw])
  rcases Op.argIndex_eq_some hn with hop | ⟨u, hop⟩
  · rcases Op.argIndex_eq_some hm with hop' | ⟨v, hop'⟩
    · exact absurd (h.parameters x y i j n hx hj hop hop') hne
    · have hlive := (h.liveTogether_iff (lt_size_of_getElem? hx) hylt).2 htogether
      exact ⟨n, hop, y, j, v, hj, hop', hlive⟩
  · rcases Op.argIndex_eq_some hm with hop' | ⟨v, hop'⟩
    · -- a parameter is older than an argument, also under the new numbers
      obtain ⟨s, hs, hdesc⟩ := h.exists_storage
      obtain ⟨v, hxv⟩ := hdesc.total x (lt_size_of_getElem? hx)
      obtain ⟨v', hyv⟩ := hdesc.total y hylt
      have hold := h.older s y x j i n u n v' v hs hj hx hop' hop hyv hxv
      exact absurd hlt (lt_asymm (hret.var_lt hs hr.storage_eq hyv hxv hyw hxw hold))
    · exact absurd htogether (h.args x y i j u v n hx hj hop hop' hne)

end

/-- A variable of a body without spill code competes if it holds a value. -/
theorem Plain.competes {b : Body} (hb : b.Plain) {s : Storage} {x v : Nat} {i : Instr}
    (hi : b.store[x]? = some i) (hxv : s.var? x = some v) (hdef : i.op.definesValue = true) :
    b.Competes s v := ⟨⟨x, i, hxv, hi, hdef⟩, fun y j _ hj => hb y j hj⟩

/-- **A parameter that meets an argument with its index yields in the first round.** -/
theorem Conventional.mem_spills {f : RegisterFile} {b : Body} (h : b.Conventional f)
    (hf : f.args.Nodup) {r : Round} (hrun : b.round f.free = .ok r) {x q w n : Nat} {i : Instr}
    (hx : b.store[x]? = some i) (hpin : i.pin = some q) (hxw : r.storage.var? x = some w)
    (hop : i.op = .parameter n) (hmeets : b.MeetsArg x n) : w ∈ r.coloring.spills := by
  by_contra hspill
  have hr := h.describes_of_round hrun
  have hret := Retained.refl h.toClosed 0
  obtain ⟨y, j, v, hj, hop', hmeet⟩ := hmeets
  obtain ⟨w', hyw⟩ := hr.storage.total y (lt_size_of_getElem? hj)
  have hjpin : j.pin = some q := by
    have hpin' := h.pins x i hx
    rw [hpin, hop] at hpin'
    rw [h.pins y j hj, hop']
    exact hpin'.symm
  -- the argument is not spilled, so both would have the register
  have hspill' : w' ∉ r.coloring.spills := by
    intro hmem
    obtain ⟨m, hparam, -⟩ := h.exists_meetsArg hret hrun hj hjpin hyw hf hmem
    rw [hop'] at hparam
    cases hparam
  have hcomp := h.plain.competes hx hxw (h.definesValue hx hpin).1
  have hcomp' := h.plain.competes hj hyw (h.definesValue hj hjpin).1
  have hreg := h.register?_eq hret hrun hx hpin hxw hcomp hspill
  have hreg' := h.register?_eq hret hrun hj hjpin hyw hcomp' hspill'
  have hne : w ≠ w' := by
    rintro rfl
    have hold := h.older r.storage x y i j n v n w w hr.storage_eq hx hj hop hop' hxw hyw
    exact absurd hold (lt_irrefl w)
  have htogether :=
    (h.liveTogether_iff (lt_size_of_getElem? hx) (lt_size_of_getElem? hj)).1 hmeet
  obtain ⟨live, hlive, hwl, hwl'⟩ := (hr.together_iff h.toClosed hxw hyw).2 htogether
  exact hr.fits.proper live hlive w hwl w' hwl' hne q hreg hreg'

/-! ## All rounds -/

/-- In the body `c` that rounds have made of `b`, no pinned instruction has moved to the stack
except parameters that meet an argument, each with its store behind it. -/
def Yields (b c : Body) : Prop :=
  ∀ (x q : Nat) (i : Instr), b.store[x]? = some i → i.pin = some q → c.slot? x = none ∨
    ∃ n s, i.op = .parameter n ∧ b.MeetsArg x n ∧ c.slot? x = some s ∧ c.StoredBehind x s

/-- In front of the first round nothing has moved. -/
theorem Plain.yields {b : Body} (hb : b.Plain) : b.Yields b :=
  fun x _ _ _ _ => Or.inl (hb.slot?_eq_none x)

section

variable {f : RegisterFile} {b : Body} (h : b.Conventional f) (hf : f.args.Nodup)

include h hf

/-- **Step lemma.** -/
theorem Conventional.yields_step {c : Body} {lo next : Nat} (hret : b.Retained c lo next)
    (hc : b.Yields c) {r : Round} {sp : Spilled} (step : c.Rewrites f.free next r sp) :
    b.Yields sp.body := by
  intro x q i hx hpin
  obtain ⟨hr, -, slots, start, fresh, hgives, hexp⟩ := step.exists_expands hret.closed
  have hlt : x < c.store.size := lt_of_lt_of_le (lt_size_of_getElem? hx) hret.size_le
  obtain ⟨w, hxw⟩ := hr.storage.total x hlt
  have hslot := hexp.slot?_old hret.closed.toWellFormed hlt
  obtain ⟨j, g, hj, hop, -⟩ := hret.old x i hx
  rcases hc x q i hx hpin with hnone | ⟨n, s, hparam, hmeets, hsome, hstored⟩
  · rw [hnone, Option.or_none] at hslot
    cases hof : slots.slotOf x with
    | none => exact Or.inl (hslot.trans hof)
    | some s =>
      have hspill := (hgives.isSome_iff hxw).1 ⟨s, hof⟩
      obtain ⟨n, hparam, hmeets⟩ :=
        h.exists_meetsArg hret step.round_eq hx hpin hxw hf hspill
      obtain ⟨p, hp⟩ := hret.closed.exists_position hj
      obtain ⟨hdef, hunify⟩ := h.definesValue hx hpin
      refine Or.inr ⟨n, s, hparam, hmeets, hslot.trans hof, hexp.storedBehind_given hp ?_ ?_ hof⟩
      · rw [hop, Op.definesValue_mapOperands, hdef]
      · rw [hop, Op.isUnify_mapOperands, hunify]
  · -- what is on the stack does not compete, so it gets no other slot
    have hof : slots.slotOf x = none := by
      rw [Option.eq_none_iff_forall_ne_some]
      intro s' hs'
      have hspill := (hgives.isSome_iff hxw).1 ⟨s', hs'⟩
      have hcode := (hr.competes_of_mem_spills hspill).2 x j hxw hj
      rw [slot?_eq hj, (Instr.isSpillCode_eq_false.1 hcode).1] at hsome
      cases hsome
    refine Or.inr ⟨n, s, hparam, hmeets, ?_, hexp.storedBehind_kept hstored hof⟩
    rw [hslot, hof, Option.none_or, hsome]

/-- **Run lemma.** -/
theorem Conventional.yields {n : Nat} {c d : Body} {next last : Nat}
    (hrounds : RewritesTo f.free n c next d last) (hret : b.Retained c 0 next)
    (hc : b.Yields c) : b.Yields d := by
  induction hrounds with
  | done => exact hc
  | more step _ ih =>
    exact ih (hret.trans (step.retained hret.closed)) (h.yields_step hf hret hc step)

/-- A parameter that meets an argument with its index has moved to the stack in the end. -/
theorem Conventional.exists_slot {k : Nat} {d : Body} {last : Nat} {r : Round}
    (hrounds : RewritesTo f.free k b 0 d last) (hrun : d.round f.free = .ok r)
    (hspills : r.coloring.spills = []) {x q n : Nat} {i : Instr} (hx : b.store[x]? = some i)
    (hpin : i.pin = some q) (hop : i.op = .parameter n) (hmeets : b.MeetsArg x n) :
    ∃ s, d.slot? x = some s := by
  cases hrounds with
  | done =>
    obtain ⟨w, hxw⟩ := (h.describes_of_round hrun).storage.total x (lt_size_of_getElem? hx)
    have hspill := h.mem_spills hf hrun hx hpin hxw hop hmeets
    rw [hspills] at hspill
    cases hspill
  | more step rest =>
    obtain ⟨hr, -, slots, start, fresh, hgives, hexp⟩ := step.exists_expands h.toClosed
    obtain ⟨w, hxw⟩ := hr.storage.total x (lt_size_of_getElem? hx)
    have hspill := h.mem_spills hf step.round_eq hx hpin hxw hop hmeets
    obtain ⟨s, hs⟩ := (hgives.isSome_iff hxw).2 hspill
    refine ⟨s, (rest.retained (step.closed h.toClosed)).slot_kept x s ?_⟩
    rw [hexp.slot?_old h.toWellFormed (lt_size_of_getElem? hx), hs, Option.some_or]

section

variable {k : Nat} {c : Body} {last : Nat} {r : Round} (hrounds : RewritesTo f.free k b 0 c last)
  (hrun : c.round f.free = .ok r) (hspills : r.coloring.spills = []) {x q : Nat} {i j : Instr}
  (hx : b.store[x]? = some i) (hpin : i.pin = some q)
  (hj : (c.assignRegisters r.storage r.coloring).store[x]? = some j)

include hrounds hrun hspills hx hpin hj

/-- What happens to a parameter that meets an argument with its index. -/
theorem Conventional.stored_of_meetsArg {n : Nat} (hop : i.op = .parameter n)
    (hmeets : b.MeetsArg x n) : j.register = none ∧
      ∃ s, j.slot = some s ∧ (c.assignRegisters r.storage r.coloring).StoredBehind x s := by
  have hc := (hrounds.spillRounds (h.tidy h.plain 0)).2
  have hr := hc.toClosed.describes_of_round hrun
  obtain ⟨s, hs⟩ := h.exists_slot hf hrounds hrun hspills hx hpin hop hmeets
  obtain ⟨i', hi', -, -, hslot, -⟩ := cases_assignRegisters hj
  have hsome : j.slot = some s := by rw [hslot, ← slot?_eq hi', hs]
  have hvalid := wellAllocated_assignRegisters hc hr hspills
  refine ⟨hvalid.bare x j hj (Or.inr (Or.inl (by rw [hsome]; simp))), s, hsome, ?_⟩
  rcases h.yields hf hrounds (.refl h.toClosed 0) h.plain.yields x q i hx hpin with
    hnone | ⟨-, s', -, -, hs', hstored⟩
  · rw [hs] at hnone
    cases hnone
  · obtain rfl : s = s' := Option.some.inj (hs.symm.trans hs')
    exact (c.sameOps_assignRegisters r.storage r.coloring).storedBehind hstored

/-- What happens to every other pinned instruction. -/
theorem Conventional.register_of_not_meetsArg
    (hnot : ¬ ∃ n, i.op = .parameter n ∧ b.MeetsArg x n) :
    j.register = some q ∧ j.slot = none := by
  have hret := hrounds.retained h.toClosed
  have hc := (hrounds.spillRounds (h.tidy h.plain 0)).2
  have hr := hc.toClosed.describes_of_round hrun
  obtain ⟨i', hi', -, -, hslot, hregister⟩ := cases_assignRegisters hj
  have hnone : i'.slot = none := by
    rw [← slot?_eq hi']
    rcases h.yields hf hrounds (.refl h.toClosed 0) h.plain.yields x q i hx hpin with
      hnone | ⟨m, -, hparam, hmeets, -⟩
    · exact hnone
    · exact absurd ⟨m, hparam, hmeets⟩ hnot
  obtain ⟨w, hxw⟩ := hr.storage.total x (lt_size_of_getElem? hi')
  obtain ⟨i'', g, hi'', hop, -⟩ := hret.old x i hx
  obtain rfl : i' = i'' := Option.some.inj (hi'.symm.trans hi'')
  have hdef : i'.op.definesValue = true := by
    rw [hop, Op.definesValue_mapOperands, (h.definesValue hx hpin).1]
  have hload : ∀ s, i'.op ≠ .load s := by
    intro s hs
    obtain ⟨n, hn, -⟩ := h.exists_argIndex hx hpin
    rw [hs] at hop
    rw [Op.eq_load_of_mapOperands hop.symm] at hn
    cases hn
  have hcomp := competes_of_slot_eq_none hc hr hi' hxw hdef hload hnone
  have hcolor := h.register?_eq hret hrun hx hpin hxw hcomp
    (by rw [hspills]; exact List.not_mem_nil)
  refine ⟨?_, hslot.trans hnone⟩
  rw [hregister, if_pos hdef, hxw, Option.bind_some, hcolor]

end

/-- **Allocation keeps the calling convention.**  A pinned instruction has its register in the end,
unless it is a parameter that meets an argument with its index; such a parameter is on the stack. -/
theorem Conventional.cases_allocate {a : Allocated} (ha : b.allocate f.free = .ok a) {x q : Nat}
    {i j : Instr} (hx : b.store[x]? = some i) (hpin : i.pin = some q)
    (hj : a.body.store[x]? = some j) :
    ((∃ n, i.op = .parameter n ∧ b.MeetsArg x n) → j.register = none ∧
      ∃ s, j.slot = some s ∧ a.body.StoredBehind x s) ∧
    ((¬ ∃ n, i.op = .parameter n ∧ b.MeetsArg x n) → j.register = some q ∧ j.slot = none) := by
  obtain ⟨n, -, hreg⟩ := h.exists_argIndex hx hpin
  have hk : 1 ≤ f.free := Nat.one_le_of_lt (RegisterFile.argRegister_lt hreg)
  obtain ⟨a', c, rounds, r, ha', hrounds, hrun, hspills, hbody, -⟩ := h.exists_rewritesTo hk
  obtain rfl : a = a' := Except.ok.inj (ha.symm.trans ha')
  rw [hbody] at hj ⊢
  constructor
  · rintro ⟨m, hop, hmeets⟩
    exact h.stored_of_meetsArg hf hrounds hrun hspills hx hpin hj hop hmeets
  · exact h.register_of_not_meetsArg hf hrounds hrun hspills hx hpin hj

end

end Body

end Backend
