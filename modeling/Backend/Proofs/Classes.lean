/-
# Storage classes are the closure of `unify`

`Storage.ofBody` divides the instructions of a body into variables by merging classes one `unify`
after the other.  On a closed body it succeeds (`Body.Closed.exists_storage`), and two instructions
end up in one variable exactly when a chain of `unify`s ties them together
(`Storage.Describes.same_iff`), whatever the order of the merges.
-/
import Mathlib
import Backend.Proofs.Body

namespace Backend

/-! ## Writing pairs into an array -/

/-- Places that no pair names keep their entry. -/
theorem getElem?_foldl_setPairs_of_notMem {α : Type} (ps : List (Nat × α)) (t : Array (Option α))
    (i : Nat) (h : i ∉ ps.map (·.1)) :
    (ps.foldl (fun t p => t.setIfInBounds p.1 (some p.2)) t)[i]? = t[i]? := by
  induction ps generalizing t with
  | nil => rfl
  | cons p ps ih =>
    rw [List.map_cons, List.mem_cons, not_or] at h
    rw [List.foldl_cons, ih _ h.2, Array.getElem?_setIfInBounds_ne (Ne.symm h.1)]

/-- A place that one pair names gets that pair's entry. -/
theorem getElem?_foldl_setPairs_of_mem {α : Type} {ps : List (Nat × α)} (hd : (ps.map (·.1)).Nodup)
    (t : Array (Option α)) {i : Nat} {a : α} (h : (i, a) ∈ ps) (hi : i < t.size) :
    (ps.foldl (fun t p => t.setIfInBounds p.1 (some p.2)) t)[i]? = some (some a) := by
  induction ps generalizing t with
  | nil => exact absurd h List.not_mem_nil
  | cons p ps ih =>
    rw [List.map_cons, List.nodup_cons] at hd
    rw [List.foldl_cons]
    rcases List.mem_cons.1 h with rfl | h
    · rw [getElem?_foldl_setPairs_of_notMem ps _ i hd.1, Array.getElem?_setIfInBounds_self_of_lt hi]
    · exact ih hd.2 _ h (by rw [Array.size_setIfInBounds]; exact hi)

theorem size_foldl_setPairs {α : Type} (ps : List (Nat × α)) (t : Array (Option α)) :
    (ps.foldl (fun t p => t.setIfInBounds p.1 (some p.2)) t).size = t.size := by
  induction ps generalizing t with
  | nil => rfl
  | cons p ps ih => rw [List.foldl_cons, ih, Array.size_setIfInBounds]

namespace Storage

/-! ## Divisions of a body -/

/-- Two instructions share a variable. -/
def Same (s : Storage) (a c : Nat) : Prop := ∃ v, s.var? a = some v ∧ s.var? c = some v

/-- A division of the instructions of a body: the two tables of a storage agree, and every
instruction has a variable. -/
structure Valid (s : Storage) (b : Body) : Prop where
  size_varOf : s.varOf.size = b.store.size
  size_members : s.members.size = b.size
  mem_members : ∀ v id, id ∈ s.members.getD v [] ↔ s.var? id = some v
  total : ∀ id < b.store.size, ∃ v, s.var? id = some v

theorem var_eq_ok {s : Storage} {id v : Nat} : s.var id = .ok v ↔ s.var? id = some v := by
  unfold var
  cases s.var? id with
  | none => simp
  | some w => simp

theorem lt_size_of_var? {s : Storage} {id v : Nat} (h : s.var? id = some v) :
    id < s.varOf.size := by
  by_contra hlt
  rw [var?, Array.getElem?_eq_none (not_lt.1 hlt)] at h
  exact absurd h (by simp)

namespace Valid

variable {s : Storage} {b : Body}

/-- Only instructions of the body have variables. -/
theorem lt_size (hs : s.Valid b) {id v : Nat} (h : s.var? id = some v) : id < b.store.size := by
  rw [← hs.size_varOf]
  exact lt_size_of_var? h

/-- Variables are numbered by positions of the body. -/
theorem var_lt_size (hs : s.Valid b) {id v : Nat} (h : s.var? id = some v) : v < b.size := by
  rw [← hs.size_members]
  by_contra hlt
  have hm := (hs.mem_members v id).2 h
  rw [Array.getD_eq_getD_getElem?, Array.getElem?_eq_none (not_lt.1 hlt)] at hm
  exact absurd hm List.not_mem_nil

/-- On instructions of the body, sharing a variable is having the same one. -/
theorem same_iff_var?_eq (hs : s.Valid b) {a c : Nat} (ha : a < b.store.size) :
    s.Same a c ↔ s.var? a = s.var? c := by
  obtain ⟨v, hv⟩ := hs.total a ha
  constructor
  · rintro ⟨w, hw, hw'⟩
    rw [hw, hw']
  · intro h
    exact ⟨v, hv, h ▸ hv⟩

end Valid

/-! ## Merging two classes -/

section Merge

variable {s : Storage} {b : Body}

/-- In a division the swallowed instructions are those of the variable that is gone. -/
theorem Valid.var?_absorb (hs : s.Valid b) (keep gone id : Nat) :
    (s.absorb keep gone).var? id = if s.var? id = some gone then some keep else s.var? id := by
  rw [Storage.var?_absorb]
  by_cases h : s.var? id = some gone
  · rw [if_pos h, if_pos ⟨(hs.mem_members gone id).2 h, lt_size_of_var? h⟩]
  · rw [if_neg h, if_neg fun h' => h ((hs.mem_members gone id).1 h'.1)]

/-- The members of each variable after one has swallowed another. -/
theorem getD_members_absorb (s : Storage) {keep gone : Nat} (hk : keep < s.members.size)
    (hne : keep ≠ gone) (v : Nat) :
    (s.absorb keep gone).members.getD v [] =
      if v = keep then s.members.getD keep [] ++ s.members.getD gone []
      else if v = gone then [] else s.members.getD v [] := by
  show (((s.members.setIfInBounds gone []).modify keep (· ++ s.members.getD gone []))).getD v [] = _
  rw [Array.getD_eq_getD_getElem?, Array.getElem?_modify]
  by_cases hv : v = keep
  · subst hv
    have hget : s.members.getD v [] = s.members[v] := by
      rw [Array.getD_eq_getD_getElem?, Array.getElem?_eq_getElem hk, Option.getD_some]
    rw [if_pos rfl, if_pos rfl, Array.getElem?_setIfInBounds_ne hne.symm,
      Array.getElem?_eq_getElem hk, hget]
    rfl
  · rw [if_neg (Ne.symm hv), if_neg hv]
    by_cases hg : v = gone
    · subst hg
      rw [if_pos rfl]
      by_cases hlt : v < s.members.size
      · rw [Array.getElem?_setIfInBounds_self_of_lt hlt]
        rfl
      · rw [Array.getElem?_eq_none (by rw [Array.size_setIfInBounds]; omega)]
        rfl
    · rw [if_neg hg, Array.getElem?_setIfInBounds_ne (Ne.symm hg), Array.getD_eq_getD_getElem?]

theorem Valid.absorb (hs : s.Valid b) {keep gone : Nat} (hk : keep < s.members.size)
    (hne : keep ≠ gone) : (s.absorb keep gone).Valid b where
  size_varOf := by
    rw [← hs.size_varOf]
    show (List.foldl _ s.varOf (s.members.getD gone [])).size = s.varOf.size
    generalize s.members.getD gone [] = ids
    induction ids using List.reverseRecOn with
    | nil => rfl
    | append_singleton ids id ih =>
      rw [List.foldl_append, List.foldl_cons, List.foldl_nil, Array.size_setIfInBounds, ih]
  size_members := by
    rw [← hs.size_members]
    show (((s.members.setIfInBounds gone []).modify keep _)).size = s.members.size
    rw [Array.size_modify, Array.size_setIfInBounds]
  mem_members v id := by
    rw [getD_members_absorb s hk hne, hs.var?_absorb]
    by_cases hv : v = keep
    · subst hv
      rw [if_pos rfl, List.mem_append, hs.mem_members, hs.mem_members]
      by_cases hg : s.var? id = some gone
      · rw [if_pos hg]
        exact iff_of_true (Or.inr hg) rfl
      · rw [if_neg hg]
        exact or_iff_left hg
    · rw [if_neg hv]
      by_cases hvg : v = gone
      · subst hvg
        rw [if_pos rfl]
        refine iff_of_false List.not_mem_nil ?_
        split
        · intro h
          exact hne (Option.some.inj h)
        · assumption
      · rw [if_neg hvg, hs.mem_members]
        by_cases hg : s.var? id = some gone
        · rw [if_pos hg, hg]
          exact iff_of_false (fun h => hvg (Option.some.inj h).symm)
            (fun h => hv (Option.some.inj h).symm)
        · rw [if_neg hg]
  total id hid := by
    obtain ⟨v, hv⟩ := hs.total id hid
    rw [hs.var?_absorb]
    split
    · exact ⟨keep, rfl⟩
    · exact ⟨v, hv⟩

theorem merge_eq_ok {a c v w : Nat} (ha : s.var? a = some v) (hc : s.var? c = some w) :
    s.merge a c = .ok (if v = w then s else s.absorb (min v w) (max v w)) := by
  rw [Storage.merge, var_eq_ok.2 ha, var_eq_ok.2 hc]
  rfl

/-- **Merging** renames the larger of the two variables to the smaller one. -/
theorem Valid.merge (hs : s.Valid b) {a c v w : Nat} (ha : s.var? a = some v)
    (hc : s.var? c = some w) :
    ∃ s', s.merge a c = .ok s' ∧ s'.Valid b ∧
      ∀ id, s'.var? id = (s.var? id).map fun u => if u = max v w then min v w else u := by
  refine ⟨_, merge_eq_ok ha hc, ?_⟩
  by_cases hvw : v = w
  · subst hvw
    rw [if_pos rfl]
    refine ⟨hs, fun id => ?_⟩
    cases s.var? id with
    | none => rfl
    | some u =>
      rw [Option.map_some, max_self, min_self]
      split
      · subst u
        rfl
      · rfl
  · rw [if_neg hvw]
    have hmin : min v w < s.members.size := by
      have h := hs.var_lt_size ha
      rw [hs.size_members]
      omega
    refine ⟨hs.absorb hmin (by omega), fun id => ?_⟩
    rw [hs.var?_absorb]
    cases s.var? id with
    | none => rfl
    | some u =>
      rw [Option.map_some]
      by_cases hu : u = max v w
      · rw [if_pos (by rw [hu]), if_pos hu]
      · rw [if_neg fun h => hu (Option.some.inj h), if_neg hu]

/-- Merging keeps classes together. -/
theorem Same.of_merge {s s' : Storage} {f : Nat → Nat}
    (h : ∀ id, s'.var? id = (s.var? id).map f) {x y : Nat} (hxy : s.Same x y) : s'.Same x y := by
  obtain ⟨v, hx, hy⟩ := hxy
  exact ⟨f v, by rw [h, hx]; rfl, by rw [h, hy]; rfl⟩

/-- Merging puts the two classes together. -/
theorem same_of_merge {s s' : Storage} {a c v w : Nat} (ha : s.var? a = some v)
    (hc : s.var? c = some w)
    (h : ∀ id, s'.var? id = (s.var? id).map fun u => if u = max v w then min v w else u) :
    s'.Same a c := by
  refine ⟨min v w, ?_, ?_⟩
  · rw [h, ha, Option.map_some]
    congr 1
    split_ifs <;> omega
  · rw [h, hc, Option.map_some]
    congr 1
    split_ifs <;> omega

/-- Merging puts nothing together but the two classes. -/
theorem rel_of_same_merge {s s' : Storage} {a c v w : Nat} (ha : s.var? a = some v)
    (hc : s.var? c = some w)
    (h : ∀ id, s'.var? id = (s.var? id).map fun u => if u = max v w then min v w else u)
    {R : Nat → Nat → Prop} (hR : Equivalence R) (hs : ∀ x y, s.Same x y → R x y) (hac : R a c)
    {x y : Nat} (hxy : s'.Same x y) : R x y := by
  obtain ⟨u, hx, hy⟩ := hxy
  rw [h] at hx hy
  obtain ⟨p, hp, hpu⟩ := Option.map_eq_some_iff.1 hx
  obtain ⟨q, hq, hqu⟩ := Option.map_eq_some_iff.1 hy
  have hnear : ∀ {z r : Nat}, s.var? z = some r → r = v ∨ r = w → R z a := by
    rintro z r hz (rfl | rfl)
    · exact hs z a ⟨r, hz, ha⟩
    · exact hR.trans (hs z c ⟨r, hz, hc⟩) (hR.symm hac)
  by_cases hpq : p = q
  · exact hs x y ⟨p, hp, hpq ▸ hq⟩
  · -- different before and equal now: one is the larger of the two variables, the other the smaller
    have hboth : (p = v ∨ p = w) ∧ (q = v ∨ q = w) := by
      split_ifs at hpu hqu <;> omega
    exact hR.trans (hnear hp hboth.1) (hR.symm (hnear hq hboth.2))

end Merge

/-! ## Merging along a list of instructions -/

/-- A list of instructions whose `unify`s stay within a body. -/
def TiesWithin (b : Body) (es : List (Nat × Instr)) : Prop :=
  ∀ e ∈ es, e.1 < b.store.size ∧ ∀ o ∈ e.2.op.operands, o < b.store.size

/-- What one instruction says about storage holds in a relation. -/
def Respects (R : Nat → Nat → Prop) (e : Nat × Instr) : Prop :=
  ∀ l r, e.2.op = .unify l r → R e.1 l ∧ R e.1 r

section Tie

variable {b : Body}

/-- **Step lemma.**  Tying one instruction succeeds, keeps classes together, joins what the
instruction says, and joins nothing else. -/
theorem Valid.tie {s : Storage} (hs : s.Valid b) {e : Nat × Instr} (he : e.1 < b.store.size)
    (ho : ∀ o ∈ e.2.op.operands, o < b.store.size) :
    ∃ s', s.tie e = .ok s' ∧ s'.Valid b ∧ (∀ x y, s.Same x y → s'.Same x y) ∧
      Respects s'.Same e ∧
      ∀ R : Nat → Nat → Prop, Equivalence R → (∀ x y, s.Same x y → R x y) → Respects R e →
        ∀ x y, s'.Same x y → R x y := by
  by_cases hu : ∃ l r, e.2.op = .unify l r
  · obtain ⟨l, r, hop⟩ := hu
    rw [hop] at ho
    obtain ⟨v, hv⟩ := hs.total e.1 he
    obtain ⟨w, hw⟩ := hs.total l (ho l (by simp [Op.operands]))
    obtain ⟨s₁, hrun₁, hs₁, hmap₁⟩ := hs.merge hv hw
    -- the first merge may have renamed the variables that the second one looks up
    obtain ⟨v', hv'⟩ := hs₁.total e.1 he
    obtain ⟨w', hw'⟩ := hs₁.total r (ho r (by simp [Op.operands]))
    obtain ⟨s₂, hrun₂, hs₂, hmap₂⟩ := hs₁.merge hv' hw'
    refine ⟨s₂, ?_, hs₂, ?_, ?_, ?_⟩
    · rw [Storage.tie, hop]
      exact bind_eq_ok_iff.2 ⟨s₁, hrun₁, hrun₂⟩
    · intro x y hxy
      exact (hxy.of_merge hmap₁).of_merge hmap₂
    · intro l' r' hop'
      rw [hop] at hop'
      obtain ⟨rfl, rfl⟩ := Op.unify.inj hop'
      exact ⟨(same_of_merge hv hw hmap₁).of_merge hmap₂, same_of_merge hv' hw' hmap₂⟩
    · intro R hR hsR hre x y hxy
      have hR₁ : ∀ x y, s₁.Same x y → R x y := fun x y h =>
        rel_of_same_merge hv hw hmap₁ hR hsR (hre l r hop).1 h
      exact rel_of_same_merge hv' hw' hmap₂ hR hR₁ (hre l r hop).2 hxy
  · refine ⟨s, ?_, hs, fun _ _ h => h, fun l r hop => absurd ⟨l, r, hop⟩ hu,
      fun R _ hsR _ x y h => hsR x y h⟩
    rw [Storage.tie]
    split
    · exact absurd ⟨_, _, ‹_›⟩ hu
    · rfl

/-- **Run lemma.**  Tying a list of instructions joins what they say and nothing else. -/
theorem Valid.foldlM_tie {s : Storage} (hs : s.Valid b) {es : List (Nat × Instr)}
    (hes : TiesWithin b es) :
    ∃ s', es.foldlM Storage.tie s = .ok s' ∧ s'.Valid b ∧ (∀ x y, s.Same x y → s'.Same x y) ∧
      (∀ e ∈ es, Respects s'.Same e) ∧
      ∀ R : Nat → Nat → Prop, Equivalence R → (∀ x y, s.Same x y → R x y) →
        (∀ e ∈ es, Respects R e) → ∀ x y, s'.Same x y → R x y := by
  induction es generalizing s with
  | nil =>
    exact ⟨s, rfl, hs, fun _ _ h => h, fun e he => absurd he List.not_mem_nil,
      fun R _ hsR _ x y h => hsR x y h⟩
  | cons e es ih =>
    have he := hes e List.mem_cons_self
    obtain ⟨s₁, hrun₁, hs₁, hmono₁, hre₁, hleast₁⟩ := hs.tie he.1 he.2
    obtain ⟨s₂, hrun₂, hs₂, hmono₂, hre₂, hleast₂⟩ :=
      ih hs₁ fun e' he' => hes e' (List.mem_cons_of_mem e he')
    refine ⟨s₂, ?_, hs₂, fun x y h => hmono₂ x y (hmono₁ x y h), ?_, ?_⟩
    · rw [List.foldlM_cons]
      exact bind_eq_ok_iff.2 ⟨s₁, hrun₁, hrun₂⟩
    · intro e' he' l r hop
      rcases List.mem_cons.1 he' with rfl | he'
      · exact ⟨hmono₂ _ _ (hre₁ l r hop).1, hmono₂ _ _ (hre₁ l r hop).2⟩
      · exact hre₂ e' he' l r hop
    · intro R hR hsR hre x y h
      refine hleast₂ R hR (fun x y h => ?_)
        (fun e' he' => hre e' (List.mem_cons_of_mem e he')) x y h
      exact hleast₁ R hR hsR (hre e List.mem_cons_self) x y h

end Tie

/-! ## The variables of a body -/

/-- The variable of an instruction before any merge is its position. -/
theorem var?_singletons {b : Body} (hb : b.WellFormed) {id v : Nat} :
    (singletons b).var? id = some v ↔ b.order[v]? = some id := by
  have hkeys : (b.order.zipIdx.map (·.1)).Nodup := by
    rw [List.zipIdx_map_fst]
    exact hb.nodup
  rw [var?, singletons]
  by_cases hid : id ∈ b.order
  · obtain ⟨p, hp⟩ := List.mem_iff_getElem?.1 hid
    have hlt : id < (Array.replicate b.store.size (none : Option Nat)).size := by
      rw [Array.size_replicate]
      exact (hb.mem_order id).1 hid
    have hmem : (id, p) ∈ b.order.zipIdx := by
      rw [List.mk_mem_zipIdx_iff_getElem?]
      exact hp
    rw [getElem?_foldl_setPairs_of_mem hkeys _ hmem hlt]
    constructor
    · intro h
      obtain rfl : p = v := Option.some.inj h
      exact hp
    · intro h
      have hpv : p = v := (List.getElem?_inj (List.getElem?_eq_some_iff.1 hp).1 hb.nodup).1
        (hp.trans h.symm)
      rw [hpv]
      rfl
  · have hnone : id ∉ b.order.zipIdx.map (·.1) := by
      rw [List.zipIdx_map_fst]
      exact hid
    rw [getElem?_foldl_setPairs_of_notMem _ _ _ hnone, Array.getElem?_replicate]
    refine iff_of_false ?_ fun h => hid (List.mem_of_getElem? h)
    split <;> simp

theorem valid_singletons {b : Body} (hb : b.WellFormed) : (singletons b).Valid b where
  size_varOf := by rw [singletons, size_foldl_setPairs, Array.size_replicate]
  size_members := by
    show ((b.order.map fun id => [id]).toArray).size = b.order.length
    rw [List.size_toArray, List.length_map]
  mem_members v id := by
    rw [var?_singletons hb]
    show id ∈ ((b.order.map fun id => [id]).toArray).getD v [] ↔ _
    rw [Array.getD_eq_getD_getElem?, List.getElem?_toArray, List.getElem?_map]
    cases b.order[v]? with
    | none => simp
    | some id' => simp [eq_comm]
  total id hid := by
    obtain ⟨p, hp⟩ := List.mem_iff_getElem?.1 ((hb.mem_order id).2 hid)
    exact ⟨p, (var?_singletons hb).2 hp⟩

end Storage

namespace Body

/-- An instruction joins definitions, another one among them. -/
def Ties (b : Body) (a c : Nat) : Prop :=
  ∃ (i : Instr) (l r : Nat), b.store[a]? = some i ∧ i.op = .unify l r ∧ (c = l ∨ c = r)

/-- A chain of joins ties two instructions together. -/
def Linked (b : Body) : Nat → Nat → Prop := Relation.EqvGen b.Ties

theorem linked_equivalence (b : Body) : Equivalence b.Linked :=
  Relation.EqvGen.is_equivalence b.Ties

/-- Tied instructions are linked. -/
theorem linked_of_unify {b : Body} {id l r : Nat} {i : Instr} (hi : b.store[id]? = some i)
    (hop : i.op = .unify l r) : b.Linked id l ∧ b.Linked id r :=
  ⟨.rel _ _ ⟨i, l, r, hi, hop, Or.inl rfl⟩, .rel _ _ ⟨i, l, r, hi, hop, Or.inr rfl⟩⟩

/-- What all joins preserve is the same along every chain of joins. -/
theorem Linked.congr {b : Body} {α : Type} (f : Nat → α)
    (h : ∀ (id : Nat) (i : Instr) (l r : Nat), b.store[id]? = some i → i.op = .unify l r →
      f id = f l ∧ f id = f r) {x y : Nat} (hxy : b.Linked x y) : f x = f y := by
  induction hxy with
  | rel x y hxy =>
    obtain ⟨i, l, r, hi, hop, rfl | rfl⟩ := hxy
    · exact (h x i y r hi hop).1
    · exact (h x i l y hi hop).2
  | refl x => rfl
  | symm x y _ ih => exact ih.symm
  | trans x y z _ _ ih₁ ih₂ => exact ih₁.trans ih₂

/-- Numbers outside a closed body are linked to nothing. -/
theorem Linked.eq_of_le {b : Body} (hb : b.Closed) {x y : Nat} (h : b.Linked x y)
    (hx : b.store.size ≤ x) : x = y := by
  have hsame := h.congr (fun id => if id < b.store.size then none else some id)
    fun id i l r hi hop => by
      have ho : ∀ o ∈ [l, r], o < b.store.size := by
        have := hb.operands id i hi
        rwa [hop] at this
      rw [if_pos (lt_size_of_getElem? hi), if_pos (ho l (by simp)), if_pos (ho r (by simp))]
      exact ⟨rfl, rfl⟩
  rw [if_neg (not_lt.2 hx)] at hsame
  split at hsame
  · exact absurd hsame (by simp)
  · exact Option.some.inj hsame

end Body

namespace Storage

/-- A storage that describes a body: a division of its instructions into the classes that chains of
joins tie together. -/
structure Describes (s : Storage) (b : Body) : Prop extends s.Valid b where
  same_iff : ∀ x y, x < b.store.size → y < b.store.size → (s.Same x y ↔ b.Linked x y)

/-- On instructions of the body, equal variables are linked instructions. -/
theorem Describes.var?_eq_iff {s : Storage} {b : Body} (hs : s.Describes b) {x y : Nat}
    (hx : x < b.store.size) (hy : y < b.store.size) : s.var? x = s.var? y ↔ b.Linked x y := by
  rw [← hs.same_iff x y hx hy, hs.same_iff_var?_eq hx]

/-- Linked instructions have the same variable. -/
theorem Describes.var?_eq_of_linked {s : Storage} {b : Body} (hs : s.Describes b) (hb : b.Closed)
    {x y : Nat} (h : b.Linked x y) : s.var? x = s.var? y := by
  refine h.congr s.var? fun id i l r hi hop => ?_
  have hid : id < b.store.size := Body.lt_size_of_getElem? hi
  have ho : ∀ o ∈ [l, r], o < b.store.size := by
    have := hb.operands id i hi
    rwa [hop] at this
  obtain ⟨hl, hr⟩ := Body.linked_of_unify hi hop
  exact ⟨(hs.var?_eq_iff hid (ho l (by simp))).2 hl, (hs.var?_eq_iff hid (ho r (by simp))).2 hr⟩

end Storage

/-- **Storage classes are the closure of `unify`.**  The variables of a closed body exist and are
the classes of instructions that chains of joins tie together. -/
theorem Body.Closed.exists_storage {b : Body} (hb : b.Closed) :
    ∃ s, Storage.ofBody b = .ok s ∧ s.Describes b := by
  have hes : Storage.TiesWithin b b.toList := by
    intro e he
    have hi := hb.mem_toList.1 he
    exact ⟨Body.lt_size_of_getElem? hi, hb.operands e.1 e.2 hi⟩
  obtain ⟨s, hrun, hs, -, hre, hleast⟩ :=
    (Storage.valid_singletons hb.toWellFormed).foldlM_tie hes
  refine ⟨s, hrun, hs, fun x y hx hy => ⟨fun h => ?_, fun h => ?_⟩⟩
  · refine hleast b.Linked b.linked_equivalence ?_ ?_ x y h
    · rintro x y ⟨v, hx, hy⟩
      rw [Storage.var?_singletons hb.toWellFormed] at hx hy
      obtain rfl : x = y := Option.some.inj (hx.symm.trans hy)
      exact .refl x
    · intro e he l r hop
      exact Body.linked_of_unify (hb.mem_toList.1 he) hop
  · rw [hs.same_iff_var?_eq hx]
    apply h.congr
    intro id i l r hi hop
    have hid := Body.lt_size_of_getElem? hi
    have hr := hre (id, i) (hb.mem_toList.2 hi) l r hop
    exact ⟨(hs.same_iff_var?_eq hid).1 hr.1, (hs.same_iff_var?_eq hid).1 hr.2⟩

theorem Storage.describes_of_ofBody {b : Body} (hb : b.Closed) {s : Storage}
    (h : Storage.ofBody b = .ok s) : s.Describes b := by
  obtain ⟨s', h', hs'⟩ := hb.exists_storage
  obtain rfl : s = s' := Except.ok.inj (h.symm.trans h')
  exact hs'

/-- Bodies with the same operations have the same variables. -/
theorem Storage.ofBody_congr {b c : Body} (h : b.SameOps c) :
    Storage.ofBody b = Storage.ofBody c := by
  have hfold : ∀ (es : List (Nat × Instr)) (s : Storage), es.foldlM Storage.tie s =
      (es.map fun e => (e.1, e.2.op)).foldlM (fun s e => s.tie (e.1, { op := e.2 })) s := by
    intro es s
    rw [List.foldlM_map]
    rfl
  have hstart : Storage.singletons b = Storage.singletons c := by
    rw [Storage.singletons, Storage.singletons, h.order, h.size_store]
  rw [Storage.ofBody, Storage.ofBody, hfold, hfold, h.toList_map, hstart]

/-! ## The number of a variable -/

namespace Storage

/-- Variables are numbered by the first position that they hold. -/
structure Least (s : Storage) (b : Body) : Prop where
  le : ∀ x v p, s.var? x = some v → b.order[p]? = some x → v ≤ p
  held : ∀ x v, s.var? x = some v → ∃ y, b.order[v]? = some y ∧ s.var? y = some v

theorem least_singletons {b : Body} (hb : b.WellFormed) : (singletons b).Least b := by
  constructor
  · intro x v p hx hp
    rw [var?_singletons hb] at hx
    have hlt := (List.getElem?_eq_some_iff.1 hx).1
    exact le_of_eq ((List.getElem?_inj hlt hb.nodup).1 (hx.trans hp.symm))
  · intro x v hx
    exact ⟨x, (var?_singletons hb).1 hx, hx⟩

/-- The smaller of the two numbers survives, and it still is the first position. -/
theorem Least.of_merge {s s' : Storage} {b : Body} (h : s.Least b) {a c v w : Nat}
    (ha : s.var? a = some v) (hc : s.var? c = some w)
    (hmap : ∀ id, s'.var? id = (s.var? id).map fun u => if u = max v w then min v w else u) :
    s'.Least b := by
  constructor
  · intro x u p hx hp
    rw [hmap] at hx
    obtain ⟨u', hu', rfl⟩ := Option.map_eq_some_iff.1 hx
    have hle := h.le x u' p hu' hp
    split <;> omega
  · intro x u hx
    rw [hmap] at hx
    obtain ⟨u', hu', rfl⟩ := Option.map_eq_some_iff.1 hx
    have hheld : ∃ z, s.var? z = some (if u' = max v w then min v w else u') := by
      split
      · rcases min_choice v w with hmin | hmin
        · exact ⟨a, by rw [hmin, ha]⟩
        · exact ⟨c, by rw [hmin, hc]⟩
      · exact ⟨x, hu'⟩
    obtain ⟨z, hz⟩ := hheld
    obtain ⟨y, hy, hyz⟩ := h.held z _ hz
    refine ⟨y, hy, ?_⟩
    rw [hmap, hyz, Option.map_some]
    split_ifs <;> rfl

theorem Least.merge {s s' : Storage} {b : Body} (h : s.Least b) (hs : s.Valid b) {a c : Nat}
    (hrun : s.merge a c = .ok s') : s'.Least b ∧ s'.Valid b := by
  obtain ⟨v, hv, hrest⟩ := bind_eq_ok_iff.1 hrun
  obtain ⟨w, hw, -⟩ := bind_eq_ok_iff.1 hrest
  rw [var_eq_ok] at hv hw
  obtain ⟨t, ht, hvalid, hmap⟩ := hs.merge hv hw
  obtain rfl : s' = t := Except.ok.inj (hrun.symm.trans ht)
  exact ⟨h.of_merge hv hw hmap, hvalid⟩

theorem Least.foldlM_tie {s s' : Storage} {b : Body} (h : s.Least b) (hs : s.Valid b)
    {es : List (Nat × Instr)} (hrun : es.foldlM tie s = .ok s') : s'.Least b := by
  induction es generalizing s with
  | nil =>
    obtain rfl : s = s' := Except.ok.inj hrun
    exact h
  | cons e es ih =>
    rw [List.foldlM_cons] at hrun
    obtain ⟨t, ht, hrest⟩ := bind_eq_ok_iff.1 hrun
    rw [tie] at ht
    split at ht
    · obtain ⟨u, hu, ht⟩ := bind_eq_ok_iff.1 ht
      obtain ⟨hleast, hvalid⟩ := h.merge hs hu
      obtain ⟨hleast', hvalid'⟩ := hleast.merge hvalid ht
      exact ih hleast' hvalid' hrest
    · obtain rfl : s = t := Except.ok.inj ht
      exact ih h hs hrest

/-- **Variables are numbered by the first position that they hold.** -/
theorem least_of_ofBody {b : Body} (hb : b.WellFormed) {s : Storage}
    (hrun : Storage.ofBody b = .ok s) : s.Least b :=
  (least_singletons hb).foldlM_tie (valid_singletons hb) hrun

end Storage

end Backend
