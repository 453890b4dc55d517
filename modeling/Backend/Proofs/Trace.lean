/-
# Traces of deterministic machines

A machine takes steps, each of which shows something, until it halts.  One machine follows another
(`Follows`) if it shows the same, up to steps that are not looked at.  It is enough to simulate each
step of the other machine by a path (`Follows.of_simulation`).
-/
import Mathlib

namespace Backend

variable {E S T U : Type}

/-- What a machine shows in its first `n` steps. -/
def events (step : S → Option (E × S)) : Nat → S → List E
  | 0, _ => []
  | n + 1, σ =>
    match step σ with
    | none => []
    | some (e, τ) => e :: events step n τ

/-- The machine takes fewer than `n` steps. -/
def Halted (step : S → Option (E × S)) (n : Nat) (σ : S) : Prop := (events step n σ).length < n

/-- Steps that lead from one state to another, with what they show. -/
inductive Path (step : S → Option (E × S)) : List E → S → S → Prop
  | nil (σ : S) : Path step [] σ σ
  | cons {σ τ υ : S} {e : E} {es : List E} (h : step σ = some (e, τ)) (hp : Path step es τ υ) :
      Path step (e :: es) σ υ

section

variable {step : S → Option (E × S)} {σ τ υ : S}

theorem Path.append {es fs : List E} (h : Path step es σ τ) (h' : Path step fs τ υ) :
    Path step (es ++ fs) σ υ := by
  induction h with
  | nil σ => exact h'
  | cons h _ ih => exact .cons h (ih h')

theorem Path.single {e : E} (h : step σ = some (e, τ)) : Path step [e] σ τ := .cons h (.nil τ)

/-- A path is the beginning of every longer run. -/
theorem Path.events_add {es : List E} (h : Path step es σ τ) (n : Nat) :
    events step (es.length + n) σ = es ++ events step n τ := by
  induction h with
  | nil σ => rw [List.length_nil, Nat.zero_add, List.nil_append]
  | cons h _ ih =>
    rw [List.length_cons, Nat.add_right_comm, events, h]
    exact congrArg _ ih

theorem length_events_le (n : Nat) (σ : S) : (events step n σ).length ≤ n := by
  induction n generalizing σ with
  | zero => exact le_refl 0
  | succ n ih =>
    rw [events]
    split
    · exact Nat.zero_le _
    · exact Nat.succ_le_succ (ih _)

/-- A shorter run is a beginning of a longer one. -/
theorem events_eq_take {n m : Nat} (h : n ≤ m) (σ : S) :
    events step n σ = (events step m σ).take n := by
  induction n generalizing m σ with
  | zero => rfl
  | succ n ih =>
    obtain ⟨m, rfl⟩ : ∃ m', m = m' + 1 := ⟨m - 1, by omega⟩
    rw [events, events]
    split
    · rfl
    · rw [List.take_succ_cons, ih (Nat.le_of_succ_le_succ h)]

theorem events_prefix {n m : Nat} (h : n ≤ m) (σ : S) : events step n σ <+: events step m σ := by
  rw [events_eq_take h]
  exact List.take_prefix n _

/-- Every beginning of a run is a run. -/
theorem eq_events_of_prefix {n : Nat} {es : List E} (h : es <+: events step n σ) :
    es = events step es.length σ := by
  have hle : es.length ≤ n := le_trans h.length_le (length_events_le n σ)
  rw [events_eq_take hle]
  exact List.prefix_iff_eq_take.1 h

/-- A machine that has halted shows nothing more. -/
theorem Halted.events_eq {n m : Nat} (h : Halted step n σ) (hle : n ≤ m) :
    events step m σ = events step n σ := by
  have hlt : (events step m σ).length < n := by
    have hlen : ((events step m σ).take n).length < n := by
      rw [← events_eq_take hle]
      exact h
    rw [List.length_take] at hlen
    omega
  rw [events_eq_take hle, List.take_of_length_le (le_of_lt hlt)]

end

/-! ## Following a machine -/

section

variable {keep keep' : E → Bool} {step : S → Option (E × S)} {step' : T → Option (E × T)}
  {step'' : U → Option (E × U)} {σ : S} {τ : T} {υ : U}

/-- A second machine follows a first one: up to what is not kept it shows the same, however long it
runs, and it halts if and only if the first one does. -/
structure Follows (keep : E → Bool) (step : S → Option (E × S)) (step' : T → Option (E × T))
    (σ : S) (τ : T) : Prop where
  forth : ∀ n, ∃ m, (events step' m τ).filter keep = events step n σ ∧
    (Halted step n σ → Halted step' m τ)
  back : ∀ m, ∃ n, (events step' m τ).filter keep = events step n σ ∧
    (Halted step' m τ → Halted step n σ)

/-- Since machines are deterministic, one direction is enough. -/
theorem Follows.of_forth (h : ∀ n, ∃ m, (events step' m τ).filter keep = events step n σ ∧
    (Halted step n σ → Halted step' m τ)) : Follows keep step step' σ τ := by
  refine ⟨h, fun m => ?_⟩
  obtain ⟨M, hM, hhalt⟩ := h m
  have hlen : (events step m σ).length ≤ (events step' M τ).length := by
    rw [← hM]
    exact List.length_filter_le _ _
  by_cases hm : Halted step' m τ
  · -- the second machine has come to its end, so the first one has, too
    have hprefix : events step' M τ <+: events step' m τ := by
      rcases le_total M m with hle | hle
      · exact events_prefix hle τ
      · rw [hm.events_eq hle]
    have hsource : Halted step m σ := by
      have := hprefix.length_le
      have hm' : (events step' m τ).length < m := hm
      show (events step m σ).length < m
      omega
    refine ⟨m, ?_, fun _ => hsource⟩
    have hM' := hhalt hsource
    rw [← hM]
    rcases le_total M m with hle | hle
    · rw [hM'.events_eq hle]
    · rw [hm.events_eq hle]
  · -- the first `m` steps of the second machine are part of what `M` steps show
    have hprefix : events step' m τ <+: events step' M τ := by
      rcases le_total m M with hle | hle
      · exact events_prefix hle τ
      · by_cases hsource : Halted step m σ
        · rw [(hhalt hsource).events_eq hle]
        · have h1 : (events step' M τ).length ≤ M := length_events_le M τ
          have h2 : m ≤ (events step m σ).length := not_lt.1 hsource
          rw [show M = m by omega]
    have hfilter := hprefix.filter keep
    rw [hM] at hfilter
    exact ⟨_, eq_events_of_prefix hfilter, fun hm' => absurd hm' hm⟩

/-- Following machines one after the other. -/
theorem Follows.trans (h : Follows keep step step' σ τ) (h' : Follows keep' step' step'' τ υ)
    (hk : ∀ e, keep e = true → keep' e = true) : Follows keep step step'' σ υ := by
  refine .of_forth fun n => ?_
  obtain ⟨m, hm, hhalt⟩ := h.forth n
  obtain ⟨j, hj, hhalt'⟩ := h'.forth m
  refine ⟨j, ?_, fun hn => hhalt' (hhalt hn)⟩
  rw [← hm, ← hj, List.filter_filter]
  refine List.filter_congr fun e _ => ?_
  rw [Bool.eq_iff_iff, Bool.and_eq_true]
  exact ⟨fun he => ⟨he, hk e he⟩, And.left⟩

/-- **Simulation.**  A machine follows another if it can match each single step by a path that shows
the same, and halts where the other one halts. -/
theorem Follows.of_simulation (R : S → T → Prop)
    (hstep : ∀ σ τ, R σ τ → ∀ e σ', step σ = some (e, σ') →
      ∃ es τ', Path step' es τ τ' ∧ es.filter keep = [e] ∧ R σ' τ')
    (hhalt : ∀ σ τ, R σ τ → step σ = none → step' τ = none) (hR : R σ τ) :
    Follows keep step step' σ τ := by
  refine .of_forth fun n => ?_
  induction n generalizing σ τ with
  | zero => exact ⟨0, rfl, fun h => absurd h (lt_irrefl 0)⟩
  | succ n ih =>
    cases hσ : step σ with
    | none =>
      refine ⟨1, ?_, fun _ => ?_⟩
      · rw [events, events, hσ, hhalt σ τ hR hσ]
        rfl
      · rw [Halted, events, hhalt σ τ hR hσ]
        exact Nat.zero_lt_one
    | some eσ =>
      obtain ⟨e, σ'⟩ := eσ
      obtain ⟨es, τ', hpath, hes, hR'⟩ := hstep σ τ hR e σ' hσ
      obtain ⟨m, hm, hmhalt⟩ := ih hR'
      refine ⟨es.length + m, ?_, fun h => ?_⟩
      · rw [hpath.events_add, List.filter_append, hes, hm, events, hσ]
        rfl
      · have h' : Halted step n σ' := by
          rw [Halted, events, hσ] at h
          exact Nat.lt_of_succ_lt_succ h
        have hlt : (events step' m τ').length < m := hmhalt h'
        rw [Halted, hpath.events_add, List.length_append]
        omega

end

end Backend
