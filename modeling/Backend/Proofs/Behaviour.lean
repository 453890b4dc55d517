/-
# Allocation preserves behaviour

Two simulations make up the argument.  With one cell for each register a body runs as it does with
one cell for each variable, because no value is overwritten while it is live
(`Body.WellAllocated.follows`).  A body with spill code runs as the body it was made from, because
the slot of a spilled class holds its value while that is live (`Body.Expands.follows`).  What is
compared are the instructions of the original body, in the order in which they are executed, with
the values they read, their results and the world they leave.
-/
import Mathlib
import Backend.Proofs.SpilledRun
import Backend.Proofs.Validity

namespace Backend

variable {Val World : Type} {m : Meaning Val World}

/-! ## Registers in the place of variables -/

namespace Body

theorem holds_of_registerOf {b : Body} {s : Storage} (hs : s.Valid b) {v r : Nat}
    (h : b.registerOf s v = some r) : b.Holds s v r := by
  obtain ⟨x, hx, hr⟩ := List.exists_of_findSome?_eq_some h
  obtain ⟨i, hi, hr⟩ := Option.bind_eq_some_iff.1 hr
  exact ⟨x, i, (hs.mem_members v x).1 hx, hi, hr⟩

/-- Different variables have the same place only if they have the same register. -/
theorem holds_of_place_eq {b : Body} {s : Storage} (hs : s.Valid b) {x y v w : Nat}
    (hx : s.var? x = some v) (hy : s.var? y = some w) (hne : v ≠ w)
    (h : b.place s x = b.place s y) : ∃ r, b.Holds s v r ∧ b.Holds s w r := by
  rw [place, place, hx, hy, Option.bind_some, Option.bind_some] at h
  cases hv : b.registerOf s v with
  | none =>
    cases hw : b.registerOf s w with
    | none =>
      rw [hv, hw] at h
      simp only [Place.own.injEq, Option.some.injEq] at h
      exact absurd h hne
    | some r =>
      rw [hv, hw] at h
      exact absurd h (by simp)
  | some r =>
    cases hw : b.registerOf s w with
    | none =>
      rw [hv, hw] at h
      exact absurd h (by simp)
    | some r' =>
      rw [hv, hw] at h
      obtain rfl : r = r' := by simpa using h
      exact ⟨r, holds_of_registerOf hs hv, holds_of_registerOf hs hw⟩

section Registers

variable {a : Body} {k last : Nat} {s : Storage} {g : FlowGraph}

/-- The machine with registers is where the machine with variables is, and has the same value in the
place of every variable that is live there. -/
structure SameLive (a : Body) (s : Storage) (last : Nat) (σ : Config (Option Nat) Val World)
    (ρ : Config Place Val World) : Prop where
  pc : ρ.pc = σ.pc
  world : ρ.world = σ.world
  slots : ∀ q < last, ρ.slots q = σ.slots q
  cells : ∀ x, a.LiveAt x σ.pc → ρ.cells (a.place s x) = σ.cells (s.var? x)

/-- A value is never written over another one that is live. -/
theorem WellAllocated.place_ne (ha : a.WellAllocated k s g) (hc : a.Closed) (hs : s.Describes a)
    (hg : g.Describes a s) (hsolved : g.Solved) {p q id x : Nat} {i : Instr}
    (hp : a.toList[p]? = some (id, i)) (hdef : i.op.definesValue = true) (hq : a.Passes p q)
    (hx : a.LiveAt x q) (hne : ¬ a.Linked id x) : a.place s x ≠ a.place s id := by
  intro hplace
  obtain ⟨v, hv⟩ := hs.total id (lt_size_of_getElem? (hc.getElem?_toList_eq_some.1 hp).2)
  obtain ⟨w, hw⟩ := hs.total x (hx.lt_size hc)
  have hvw : w ≠ v := by
    rintro rfl
    exact hne ((hs.var?_eq_iff (hs.lt_size hv) (hs.lt_size hw)).1 (by rw [hv, hw]))
  obtain ⟨r, hrw, hrv⟩ := holds_of_place_eq hs.toValid hw hv hvw hplace
  -- both are live on exit from the instruction
  obtain ⟨n, hn, -, hdefines, -⟩ := hg.node p id i hp
  rw [if_pos hdef, hv] at hdefines
  have hout : v ∈ g.liveOut p := (hsolved.liveOut_iff p _).2 ⟨n, hn, Or.inl hdefines⟩
  have hout' : w ∈ g.liveOut p := by
    refine (hsolved.liveOut_iff p _).2 ⟨n, hn, Or.inr ⟨q, (hg.succ_iff p q).2 hq, ?_⟩⟩
    rw [hsolved.liveIn_iff]
    exact (hg.live_iff hc hs hw).2 hx
  exact (ha.apart w v r hvw hrw hrv p).2 ⟨hout', hout⟩

/-- **Registers preserve behaviour.**  A body with valid registers runs in them as it runs with one
cell for each variable. -/
theorem WellAllocated.follows (ha : a.WellAllocated k s g) (hc : a.Closed) (hs : s.Describes a)
    (hg : g.Describes a s) (hsolved : g.Solved)
    (hslot : ∀ (x : Nat) (i : Instr), a.store[x]? = some i → ∀ q, i.op = .load q → q < last)
    {σ : Config (Option Nat) Val World} {ρ : Config Place Val World} (h : SameLive a s last σ ρ) :
    Follows (fun e => e.instr < a.store.size) (m.step a s.var?) (m.step a (a.place s)) σ ρ := by
  refine .of_simulation (SameLive a s last) ?_ ?_ h
  · intro σ ρ h e σ' hstep
    obtain ⟨id, i, hp, rfl, rfl⟩ := Meaning.exists_of_step hstep
    have hi := (hc.getElem?_toList_eq_some.1 hp).2
    have hreads : ρ.reads (a.place s) i.op = σ.reads s.var? i.op :=
      List.map_congr_left fun o ho => h.cells o (liveAt_of_mem_operands hc.toWellFormed hp ho)
    have hact : m.act i.op (σ.reads s.var? i.op) ρ.slots ρ.world =
        m.act i.op (σ.reads s.var? i.op) σ.slots σ.world := by
      rw [h.world]
      exact Meaning.act_congr (fun q hq => h.slots q (hslot id i hi q hq)) _ _
    have hstep' : m.step a (a.place s) ρ = some (m.execute a (a.place s) ρ id i.op) :=
      Meaning.step_eq (by rw [h.pc]; exact hp)
    refine ⟨[(m.execute a (a.place s) ρ id i.op).1], (m.execute a (a.place s) ρ id i.op).2,
      .single hstep', ?_, ?_, ?_, ?_, ?_⟩
    · rw [Meaning.execute_fst_congr hreads hact]
      exact List.filter_cons_of_pos (decide_eq_true (lt_size_of_getElem? hi))
    · simp only [Meaning.execute, hreads, h.pc]
    · simp only [Meaning.execute, hreads, hact]
    · intro q hq
      simp only [Meaning.execute, hreads]
      exact Meaning.save_congr (h.slots q hq)
    · intro x hx
      have hpass := Meaning.passes_of_liveAt hc hp hx
      simp only [Meaning.execute, hreads, hact]
      rcases hx.of_passes hp hpass with ⟨hdef, hunify, hlink⟩ | ⟨hlive, hnot⟩
      · -- the value that has just been written
        have hvar : s.var? x = s.var? id := (hs.var?_eq_of_linked hc hlink).symm
        have hplace : a.place s x = a.place s id := by rw [place, hvar, place]
        obtain ⟨v, hv⟩ := m.exists_result hdef hunify (σ.reads s.var? i.op) σ.slots σ.world
        rw [hv, hplace, hvar, Meaning.write_self hdef, Meaning.write_self hdef]
      · -- a value that was there before and is still needed
        rw [Meaning.write_act_of_ne, Meaning.write_act_of_ne, h.cells x hlive]
        · intro hdef hunify hvar
          exact hnot hdef hunify ((hs.var?_eq_iff (lt_size_of_getElem? hi)
            (hlive.lt_size hc)).1 hvar.symm)
        · intro hdef hunify
          exact ha.place_ne hc hs hg hsolved hp hdef hpass hx (hnot hdef hunify)
  · intro σ ρ h hnone
    rw [Meaning.step_eq_none] at hnone ⊢
    rwa [h.pc]

end Registers

/-! ## Rounds of allocation -/

/-- No variable is live on entry to a body: nothing is read before it is written. -/
def NothingLiveOnEntry (b : Body) : Prop :=
  ∀ s g, Storage.ofBody b = .ok s → FlowGraph.ofBody b s = .ok g → g.analyze.2.liveIn 0 = ∅

instance (b : Body) : Decidable b.NothingLiveOnEntry :=
  match hs : Storage.ofBody b with
  | .error e => isTrue fun s g h => absurd (hs.symm.trans h) (by simp)
  | .ok s =>
    match hg : FlowGraph.ofBody b s with
    | .error e => isTrue fun s' g h h' => by
      obtain rfl : s = s' := Except.ok.inj (hs.symm.trans h)
      exact absurd (hg.symm.trans h') (by simp)
    | .ok g => decidable_of_iff (g.analyze.2.liveIn 0 = ∅) <| by
      constructor
      · intro hempty s' g' h h'
        obtain rfl : s = s' := Except.ok.inj (hs.symm.trans h)
        obtain rfl : g = g' := Except.ok.inj (hg.symm.trans h')
        exact hempty
      · intro h
        exact h s g hs hg

theorem NothingLiveOnEntry.not_liveAt {b : Body} (h : b.NothingLiveOnEntry) (hb : b.Closed)
    (x : Nat) : ¬ b.LiveAt x 0 := by
  intro hx
  obtain ⟨r, -, hr⟩ := hb.exists_round 0
  obtain ⟨g, hg, hflow⟩ := hr.flow_eq
  obtain ⟨v, hv⟩ := hr.storage.total x (hx.lt_size hb)
  have hmem := (hr.liveIn_iff hb hv).2 hx
  rw [hflow, h r.storage g hr.storage_eq hg] at hmem
  exact IdSet.not_mem_empty v hmem

/-- **Run lemma.**  However many rounds spill, the registers of the last one preserve the behaviour
of the first body. -/
theorem SpillRounds.follows {b d : Body} {next last k : Nat} (h : SpillRounds k b next d last)
    (hb : b.Tidy next) (hd : d.Tidy last) {r : Round} (hr : r.Describes d k)
    (hspills : r.coloring.spills = []) (hlive : ∀ x, ¬ b.LiveAt x 0) {s : Storage}
    (hs : Storage.ofBody b = .ok s) {σ : Config (Option Nat) Val World}
    {ρ : Config Place Val World} (hσ : σ.pc = 0) (hρ : ρ.pc = 0) (hworld : ρ.world = σ.world)
    (hslots : ∀ q < next, ρ.slots q = σ.slots q) :
    Follows (fun e => e.instr < b.store.size) (m.step b s.var?)
      (m.step (d.assignRegisters r.storage r.coloring)
        ((d.assignRegisters r.storage r.coloring).place r.storage)) σ ρ := by
  -- induction on the rounds; the machine of the last body stays, the one in front of it changes
  induction h generalizing s σ with
  | done d last =>
    obtain rfl : r.storage = s := Except.ok.inj (hr.storage_eq.symm.trans hs)
    have hops := d.sameOps_assignRegisters r.storage r.coloring
    have hc := hops.closed hd.toClosed
    have hr' := hr.assignRegisters hd.toClosed
    have hslot : ∀ (x : Nat) (i : Instr),
        (d.assignRegisters r.storage r.coloring).store[x]? = some i →
          ∀ q, i.op = .load q → q < last := by
      intro x i hi q hq
      obtain ⟨j, hj, hop, -⟩ := cases_assignRegisters hi
      exact hd.slot_lt x j hj q (Or.inr (Or.inl (hop.symm.trans hq)))
    rw [Meaning.step_congr hops, hops.size_store]
    refine (wellAllocated_assignRegisters hd hr hspills).follows hc hr'.storage hr'.flow hr'.solved
      hslot ⟨by rw [hσ, hρ], hworld, hslots, fun x hx => ?_⟩
    rw [hσ] at hx
    obtain ⟨v, hv⟩ := hr'.storage.total x (hx.lt_size hc)
    exact absurd ((hr.liveIn_iff hd.toClosed hv).1 ((hr'.liveIn_iff hc hv).2 hx)) (hlive x)
  | @more b c d next last r' slots start fresh hb' hr' hgives hx rest ih =>
    obtain ⟨t, ht, ht'⟩ := (hx.closed hb.toClosed).exists_storage
    obtain rfl : r'.storage = s := Except.ok.inj (hr'.storage_eq.symm.trans hs)
    have hc := hx.tidy hr'.storage hgives (fun v hv => hr'.competes_of_mem_spills hv) hb
    have hu := hgives.uniform hb.toClosed hr'.storage
    -- the body in between starts with the slots of the last one, and with any cells
    let τ : Config (Option Nat) Val World := ⟨0, fun _ => σ.cells none, ρ.slots, σ.world⟩
    have hsame : Expands.SameValues b slots start r'.storage t next σ τ := by
      refine ⟨?_, by omega, rfl, fun x hx' => ?_, fun x q hx' => ?_, hslots⟩
      · rw [hσ, hx.start_zero]
      · rw [hσ] at hx'
        exact absurd hx' (hlive x)
      · rw [hσ] at hx'
        exact absurd hx' (hlive x)
    have hfirst := hx.follows (m := m) hb hr'.storage ht' hgives hsame
    have hrest := ih hc hd hr (hx.not_liveAt_zero hb.toClosed hu hlive) ht (σ := τ) rfl hworld
      fun q _ => rfl
    refine hfirst.trans hrest fun e he => ?_
    rw [decide_eq_true_eq] at he ⊢
    exact lt_of_lt_of_le he hx.size_le

/-- **Allocation preserves behaviour.**  On a closed body without spill code and with nothing live
on entry, allocation with at least one register succeeds.  From any two states at the beginning with
the same world, the allocated body in registers runs through the instructions of the body as the
body itself does with one cell for each variable: in the same order, with the same operand values,
results and worlds, and to the same end if there is one. -/
theorem Closed.follows_allocate (m : Meaning Val World) {b : Body} (hb : b.Closed)
    (hplain : b.Plain) (hentry : b.NothingLiveOnEntry) {k : Nat} (hk : 1 ≤ k) :
    ∃ a s t, b.allocate k = .ok a ∧ Storage.ofBody b = .ok s ∧ Storage.ofBody a.body = .ok t ∧
      ∀ (σ : Config (Option Nat) Val World) (ρ : Config Place Val World), σ.pc = 0 → ρ.pc = 0 →
        ρ.world = σ.world → Follows (fun e => e.instr < b.store.size) (m.step b s.var?)
          (m.step a.body (a.body.place t)) σ ρ := by
  obtain ⟨a, d, last, r, ha, hrounds, hd, hr, hspills, hbody⟩ := hb.exists_allocate hplain hk
  obtain ⟨s, hs, -⟩ := hb.exists_storage
  refine ⟨a, s, r.storage, ha, hs, ?_, fun σ ρ hσ hρ hworld => ?_⟩
  · rw [hbody]
    exact (hr.assignRegisters hd.toClosed).storage_eq
  · rw [hbody]
    exact hrounds.follows (hb.tidy hplain 0) hd hr hspills (hentry.not_liveAt hb) hs hσ hρ hworld
      fun q hq => absurd hq (Nat.not_lt_zero q)

/-- Three values run in two registers and a stack slot. -/
theorem follows_three_values :
    ∃ a s t, threeValues.allocate 2 = .ok a ∧ Storage.ofBody threeValues = .ok s ∧
      Storage.ofBody a.body = .ok t ∧
      ∀ (σ : Config (Option Nat) Nat Nat) (ρ : Config Place Nat Nat), σ.pc = 0 → ρ.pc = 0 →
        ρ.world = σ.world → Follows (fun e => e.instr < threeValues.store.size)
          (Meaning.step ⟨fun _ reads w => (reads.sum, w + 1), fun v => v != 0⟩ threeValues s.var?)
          (Meaning.step ⟨fun _ reads w => (reads.sum, w + 1), fun v => v != 0⟩ a.body
            (a.body.place t)) σ ρ :=
  Closed.follows_allocate ⟨fun _ reads w => (reads.sum, w + 1), fun v => v != 0⟩ (by decide)
    (by decide) (by decide +kernel) (by decide)

end Body

end Backend
