/-
# The variables of a body with spill code

Variables are numbered by positions, and spill code moves the instructions of a body to other
positions, so every variable gets a new number.  That is all that happens to it: with the increasing
map from old positions to new ones (`Body.Expands.moved`), the old variables are variables of the
expansion, with the same members in the same order (`Body.Expands.renames`).
-/
import Mathlib
import Backend.Proofs.Expansion

namespace Backend

/-! ## Renumbering positions -/

/-- An increasing map from the positions of one body to those of another. -/
structure Body.Renumbers (f : Nat → Nat) (b c : Body) : Prop where
  lt : ∀ {v w : Nat}, v < w → w < b.size → f v < f w
  lt_size : ∀ {v : Nat}, v < b.size → f v < c.size

namespace Body.Renumbers

variable {f : Nat → Nat} {b c : Body} (hf : Renumbers f b c) {v w : Nat}

include hf

/-- Renumbering keeps the order of instructions. -/
theorem le (h : v ≤ w) (hw : w < b.size) : f v ≤ f w := by
  rcases Nat.lt_or_eq_of_le h with h | rfl
  · exact le_of_lt (hf.lt h hw)
  · exact le_refl _

/-- Different instructions get different numbers. -/
theorem eq_iff (hv : v < b.size) (hw : w < b.size) : f v = f w ↔ v = w := by
  refine ⟨fun h => ?_, congrArg f⟩
  rcases Nat.lt_trichotomy v w with hlt | rfl | hlt
  · exact absurd h (ne_of_lt (hf.lt hlt hw))
  · rfl
  · exact absurd h (ne_of_gt (hf.lt hlt hv))

/-- The first of two instructions stays the first. -/
theorem map_min (hv : v < b.size) (hw : w < b.size) : f (min v w) = min (f v) (f w) := by
  rcases le_total v w with h | h
  · rw [min_eq_left h, min_eq_left (hf.le h hw)]
  · rw [min_eq_right h, min_eq_right (hf.le h hv)]

/-- The last of two instructions stays the last. -/
theorem map_max (hv : v < b.size) (hw : w < b.size) : f (max v w) = max (f v) (f w) := by
  rcases le_total v w with h | h
  · rw [max_eq_right h, max_eq_right (hf.le h hw)]
  · rw [max_eq_left h, max_eq_left (hf.le h hv)]

omit hf in
theorem refl (b : Body) : Renumbers id b b := ⟨fun h _ => h, fun h => h⟩

/-- Renumbering twice is renumbering once. -/
theorem trans {g : Nat → Nat} {d : Body} (hg : Renumbers g c d) : Renumbers (g ∘ f) b d :=
  ⟨fun h hw => hg.lt (hf.lt h hw) (hf.lt_size hw), fun hv => hg.lt_size (hf.lt_size hv)⟩

end Body.Renumbers

/-! ## Renamed variables -/

namespace Storage

/-- The variables of the division `s` of `b` are variables of the division `t` of `c`, under the
numbers that `f` gives them and with the same members. -/
structure Renames (f : Nat → Nat) (b c : Body) (s t : Storage) : Prop where
  source : s.Valid b
  target : t.Valid c
  var?_eq : ∀ x < b.store.size, t.var? x = (s.var? x).map f
  members_eq : ∀ v < b.size, t.members.getD (f v) [] = s.members.getD v []

namespace Renames

variable {f : Nat → Nat} {b c : Body} {s t : Storage} (hf : Body.Renumbers f b c)
  (h : Renames f b c s t)

omit hf in
/-- Every valid table of storage classes is a renaming of itself. -/
theorem refl (hs : s.Valid b) : Renames id b b s s :=
  ⟨hs, hs, fun x _ => by rw [Option.map_id]; rfl, fun _ _ => rfl⟩

include hf h

/-- Renaming twice is renaming once. -/
theorem trans {g : Nat → Nat} {d : Body} {u : Storage} (hle : b.store.size ≤ c.store.size)
    (h' : Renames g c d t u) : Renames (g ∘ f) b d s u where
  source := h.source
  target := h'.target
  var?_eq x hx := by
    rw [h'.var?_eq x (lt_of_lt_of_le hx hle), h.var?_eq x hx, Option.map_map]
  members_eq v hv := by
    show u.members.getD (g (f v)) [] = _
    rw [h'.members_eq (f v) (hf.lt_size hv), h.members_eq v hv]

/-- Letting a variable swallow another commutes with renaming. -/
theorem absorb {keep gone : Nat} (hkeep : keep < b.size) (hgone : gone < b.size)
    (hne : keep ≠ gone) : Renames f b c (s.absorb keep gone) (t.absorb (f keep) (f gone)) := by
  have hk : keep < s.members.size := by rwa [h.source.size_members]
  have hk' : f keep < t.members.size := by
    rw [h.target.size_members]
    exact hf.lt_size hkeep
  have hne' : f keep ≠ f gone := by rwa [Ne, hf.eq_iff hkeep hgone]
  refine ⟨h.source.absorb hk hne, h.target.absorb hk' hne', fun x hx => ?_, fun v hv => ?_⟩
  · rw [h.target.var?_absorb, h.source.var?_absorb, h.var?_eq x hx]
    cases hxv : s.var? x with
    | none => rfl
    | some u =>
      have hu := hf.eq_iff (h.source.var_lt_size hxv) hgone
      simp only [Option.map_some, Option.some_inj, hu]
      split <;> rfl
  · rw [getD_members_absorb t hk' hne', getD_members_absorb s hk hne, h.members_eq v hv,
      h.members_eq keep hkeep, h.members_eq gone hgone]
    simp only [hf.eq_iff hv hkeep, hf.eq_iff hv hgone]

/-- Merging two classes goes the same way on both sides. -/
theorem merge {x y : Nat} (hx : x < b.store.size) (hy : y < b.store.size) :
    ∃ s' t', s.merge x y = .ok s' ∧ t.merge x y = .ok t' ∧ Renames f b c s' t' := by
  obtain ⟨v, hv⟩ := h.source.total x hx
  obtain ⟨w, hw⟩ := h.source.total y hy
  have hv' : t.var? x = some (f v) := by rw [h.var?_eq x hx, hv]; rfl
  have hw' : t.var? y = some (f w) := by rw [h.var?_eq y hy, hw]; rfl
  have hvlt := h.source.var_lt_size hv
  have hwlt := h.source.var_lt_size hw
  refine ⟨_, _, merge_eq_ok hv hw, merge_eq_ok hv' hw', ?_⟩
  rw [← hf.map_min hvlt hwlt, ← hf.map_max hvlt hwlt]
  simp only [hf.eq_iff hvlt hwlt]
  by_cases hvw : v = w
  · rw [if_pos hvw, if_pos hvw]
    exact h
  · rw [if_neg hvw, if_neg hvw]
    exact h.absorb hf (by omega) (by omega) (by omega)

end Renames

/-- An instruction that joins nothing leaves the classes as they are. -/
theorem tie_of_isUnify_eq_false {s : Storage} {e : Nat × Instr} (h : e.2.op.isUnify = false) :
    s.tie e = .ok s := by
  rw [tie]
  split
  · rename_i hop
    rw [hop] at h
    exact absurd h (by simp [Op.isUnify])
  · rfl

theorem foldlM_tie_of_isUnify_eq_false {s : Storage} {es : List (Nat × Instr)}
    (h : ∀ e ∈ es, e.2.op.isUnify = false) : es.foldlM tie s = .ok s := by
  induction es with
  | nil => rfl
  | cons e es ih =>
    rw [List.foldlM_cons, tie_of_isUnify_eq_false (h e List.mem_cons_self)]
    exact ih fun e' he' => h e' (List.mem_cons_of_mem e he')

/-- **Step lemma.**  Tying an instruction on both sides keeps the renaming. -/
theorem Renames.tie {f : Nat → Nat} {b c : Body} {s t : Storage} (hf : Body.Renumbers f b c)
    (h : Renames f b c s t) {id : Nat} {i j : Instr} (hid : id < b.store.size)
    (ho : ∀ o ∈ i.op.operands, o < b.store.size) (hunify : j.op.isUnify = i.op.isUnify)
    (hop : i.op.isUnify = true → j.op = i.op) :
    ∃ s' t', s.tie (id, i) = .ok s' ∧ t.tie (id, j) = .ok t' ∧ Renames f b c s' t' := by
  by_cases hu : ∃ l r, i.op = .unify l r
  · obtain ⟨l, r, hlr⟩ := hu
    have hjlr : j.op = .unify l r := by
      rw [hop (by rw [hlr]; rfl), hlr]
    rw [hlr] at ho
    obtain ⟨s₁, t₁, hs₁, ht₁, h₁⟩ := h.merge hf hid (ho l (by simp [Op.operands]))
    obtain ⟨s₂, t₂, hs₂, ht₂, h₂⟩ := h₁.merge hf hid (ho r (by simp [Op.operands]))
    refine ⟨s₂, t₂, ?_, ?_, h₂⟩
    · rw [Storage.tie, hlr]
      exact bind_eq_ok_iff.2 ⟨s₁, hs₁, hs₂⟩
    · rw [Storage.tie, hjlr]
      exact bind_eq_ok_iff.2 ⟨t₁, ht₁, ht₂⟩
  · have hfalse : i.op.isUnify = false := by
      cases hi : i.op with
      | unify l r => exact absurd ⟨l, r, hi⟩ hu
      | _ => rfl
    refine ⟨s, t, tie_of_isUnify_eq_false hfalse, tie_of_isUnify_eq_false ?_, h⟩
    rw [hunify]
    exact hfalse

end Storage

/-! ## The variables of an expansion -/

namespace Body.Expands

variable {b c : Body} {slots : SlotMap} {start fresh : Nat → Nat}

/-- The new position of the instruction at a position: behind its loads. -/
def moved (b : Body) (slots : SlotMap) (start : Nat → Nat) (p : Nat) : Nat :=
  start p + (b.toList[p]?.elim 0 fun e => (slots.toLoad e.1 e.2.op).length)

/-- Where an instruction ends up: behind the loads that are written for it. -/
theorem moved_eq {p id : Nat} {i : Instr} (hp : b.toList[p]? = some (id, i)) :
    moved b slots start p = start p + (slots.toLoad id i.op).length := by
  rw [moved, hp]
  rfl

/-- Loads and stores tie nothing, so of an instruction with its spill code only the instruction
counts. -/
theorem foldlM_tie_around (t : Storage) (first id : Nat) (i : Instr) :
    (slots.around first id (slots.mark id i)).foldlM Storage.tie t =
      t.tie (id, written slots first id i) := by
  have hloads : ∀ e ∈ ((slots.toLoad id (slots.mark id i).op).mapIdx fun n s =>
      (first + n, ({ op := .load s, span := (slots.mark id i).span } : Instr))),
      e.2.op.isUnify = false := by
    intro e he
    obtain ⟨n, hn, rfl⟩ := List.mem_mapIdx.1 he
    rfl
  have hstore : ∀ e ∈ ((slots.toStore id (slots.mark id i).op).toList.map fun s =>
      (first + (slots.toLoad id (slots.mark id i).op).length,
        ({ op := .store id s, span := (slots.mark id i).span } : Instr))),
      e.2.op.isUnify = false := by
    intro e he
    obtain ⟨s, -, rfl⟩ := List.mem_map.1 he
    rfl
  rw [SlotMap.around, List.foldlM_append, Storage.foldlM_tie_of_isUnify_eq_false hloads]
  show (t.tie (id, written slots first id i) >>= fun s => List.foldlM Storage.tie s _) = _
  cases t.tie (id, written slots first id i) with
  | error e => rfl
  | ok t' => exact Storage.foldlM_tie_of_isUnify_eq_false hstore

section

variable (hx : b.Expands c slots start fresh) (hb : b.WellFormed)

include hx hb

/-- Spill code keeps the order of the instructions it stands between. -/
theorem renumbers : Renumbers (moved b slots start) b c where
  lt {v w} hvw hw := by
    have hlen : v < b.toList.length := by
      rw [hb.length_toList]
      exact lt_trans hvw hw
    obtain ⟨id, i⟩ := b.toList[v]
    have hv : b.toList[v]? = some b.toList[v] := List.getElem?_eq_getElem hlen
    have hsucc := hx.start_succ v _ _ hv
    have hle : start (v + 1) ≤ start w := (hx.start_le_iff hb (by omega) (le_of_lt hw)).2 hvw
    have hge : start w ≤ moved b slots start w := Nat.le_add_right _ _
    have hmoved : moved b slots start v = start v + _ := moved_eq hv
    rw [SlotMap.extra] at hsucc
    omega
  lt_size {v} hv := by
    have hlen : v < b.toList.length := by rwa [hb.length_toList]
    have hentry : b.toList[v]? = some b.toList[v] := List.getElem?_eq_getElem hlen
    have hmain := hx.getElem?_main hentry
    rw [← hx.wellFormed.length_toList, moved_eq hentry]
    exact (List.getElem?_eq_some_iff.1 hmain).1

/-- The entries of the expansion up to the end of one instruction and its spill code. -/
theorem take_start_succ {p id : Nat} {i : Instr} (hp : b.toList[p]? = some (id, i)) :
    c.toList.take (start (p + 1)) =
      c.toList.take (start p) ++ slots.around (fresh p) id (slots.mark id i) := by
  have hsucc := hx.start_succ p id i hp
  have haround := slots.length_around (fresh p) id (slots.mark id i)
  rw [SlotMap.op_mark] at haround
  have hle : start (p + 1) ≤ c.toList.length := by
    have hp' : p + 1 ≤ b.size := by
      rw [← hb.length_toList]
      exact (List.getElem?_eq_some_iff.1 hp).1
    rw [hx.wellFormed.length_toList, hx.size_eq]
    exact (hx.start_le_iff hb hp' (le_refl _)).2 hp'
  have hlen : (c.toList.take (start p)).length = start p := by
    rw [List.length_take]
    omega
  apply List.ext_getElem?
  intro q
  rcases Nat.lt_or_ge q (start p) with hq | hq
  · rw [List.getElem?_append_left (by omega), List.getElem?_take_of_lt (by omega),
      List.getElem?_take_of_lt hq]
  · rw [List.getElem?_append_right (by omega), hlen]
    rcases Nat.lt_or_ge q (start (p + 1)) with hq' | hq'
    · have hn : q - start p < (slots.around (fresh p) id (slots.mark id i)).length := by omega
      rw [List.getElem?_take_of_lt hq', List.getElem?_eq_getElem hn]
      refine (hx.getElem?_iff q _).2 ⟨p, q - start p, id, i, hp, by omega, ?_⟩
      exact List.getElem?_eq_getElem hn
    · rw [List.getElem?_take_eq_none hq', List.getElem?_eq_none (by omega)]

end

variable (hx : b.Expands c slots start fresh) (hb : b.Closed) (hslots : slots.Uniform b)

include hx hb

/-- Before any merge, an instruction is alone in the variable of its new position. -/
theorem renames_singletons : Storage.Renames (moved b slots start) b c (Storage.singletons b)
    (Storage.singletons c) where
  source := Storage.valid_singletons hb.toWellFormed
  target := Storage.valid_singletons hx.wellFormed
  var?_eq x hlt := by
    obtain ⟨i, hi⟩ := exists_instr hlt
    obtain ⟨p, hp⟩ := hb.exists_position hi
    have hold : (Storage.singletons b).var? x = some p :=
      (Storage.var?_singletons hb.toWellFormed).2 (hb.getElem?_toList_eq_some.1 hp).1
    have hnew := (hx.wellFormed.getElem?_toList_eq_some.1 (hx.getElem?_main hp)).1
    rw [hold, Option.map_some, moved_eq hp]
    exact (Storage.var?_singletons hx.wellFormed).2 hnew
  members_eq v hv := by
    have hlen : v < b.toList.length := by rwa [hb.length_toList]
    have hentry : b.toList[v]? = some b.toList[v] := List.getElem?_eq_getElem hlen
    have hold := (hb.getElem?_toList_eq_some.1 hentry).1
    have hnew := (hx.wellFormed.getElem?_toList_eq_some.1 (hx.getElem?_main hentry)).1
    have hmembers : ∀ {b : Body} {v id : Nat}, b.order[v]? = some id →
        (Storage.singletons b).members.getD v [] = [id] := by
      intro b v id h
      show ((b.order.map fun id => [id]).toArray).getD v [] = [id]
      rw [Array.getD_eq_getD_getElem?, List.getElem?_toArray, List.getElem?_map, h]
      rfl
    rw [moved_eq hentry, hmembers hold, hmembers hnew]

include hslots

/-- **Run lemma.**  The variables after a first part of a body are, renamed, those after what this
part has become. -/
theorem renames_take {p : Nat} (hp : p ≤ b.size) :
    ∃ s t, (b.toList.take p).foldlM Storage.tie (Storage.singletons b) = .ok s ∧
      (c.toList.take (start p)).foldlM Storage.tie (Storage.singletons c) = .ok t ∧
      Storage.Renames (moved b slots start) b c s t := by
  induction p with
  | zero =>
    rw [hx.start_zero]
    exact ⟨_, _, rfl, rfl, hx.renames_singletons hb⟩
  | succ p ih =>
    obtain ⟨s, t, hs, ht, h⟩ := ih (by omega)
    have hlt : p < b.toList.length := by
      rw [hb.length_toList]
      exact hp
    obtain ⟨⟨id, i⟩, hentry⟩ : ∃ e, b.toList[p]? = some e := ⟨_, List.getElem?_eq_getElem hlt⟩
    have hi := (hb.getElem?_toList_eq_some.1 hentry).2
    obtain ⟨s', t', hs', ht', h'⟩ := h.tie (hx.renumbers hb.toWellFormed) (i := i)
      (j := written slots (fresh p) id i) (lt_size_of_getElem? hi) (hb.operands id i hi)
      (by rw [op_written, Op.isUnify_mapOperands]) fun hu => hslots.op_written_unify hi hu _
    refine ⟨s', t', ?_, ?_, h'⟩
    · rw [List.take_add_one, hentry, List.foldlM_append, hs]
      show ([(id, i)] : List (Nat × Instr)).foldlM Storage.tie s = _
      rw [List.foldlM_cons, hs']
      rfl
    · rw [hx.take_start_succ hb.toWellFormed hentry, List.foldlM_append, ht]
      show (slots.around (fresh p) id (slots.mark id i)).foldlM Storage.tie t = _
      rw [foldlM_tie_around, ht']

/-- **Spill code renames the variables of a body** and leaves their members as they are. -/
theorem renames {s t : Storage} (hs : Storage.ofBody b = .ok s) (ht : Storage.ofBody c = .ok t) :
    Storage.Renames (moved b slots start) b c s t := by
  obtain ⟨s', t', hs', ht', h⟩ := hx.renames_take hb hslots (le_refl _)
  rw [← hb.length_toList, List.take_length] at hs'
  rw [← hx.size_eq, ← hx.wellFormed.length_toList, List.take_length] at ht'
  obtain rfl : s = s' := Except.ok.inj (hs.symm.trans hs')
  obtain rfl : t = t' := Except.ok.inj (ht.symm.trans ht')
  exact h

end Body.Expands

end Backend
