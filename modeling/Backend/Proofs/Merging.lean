/-
# Variables do not depend on the order of merges

The variables of a body come from merges, two for each join (`Body.merges`), that begin with every
instruction alone.  Merges keep a division of the body in good order (`Storage.Merged`): classes are
numbered by the first position that they hold, list their members once, and tie together what a
chain of merges does.  These facts determine the variable of every instruction
(`Storage.Merged.var?_eq`), so the order of the merges and repetitions among them do not matter, and
the variables of a body are the closure of its joins (`Body.WellFormed.closure_ofBody`).
-/
import Mathlib
import Backend.Proofs.Classes

namespace Backend

namespace Storage

/-! ## Merges one after the other -/

/-- Merge the listed pairs of instructions, one after the other. -/
def mergeAll (s : Storage) (ms : List (Nat × Nat)) : Except Fault Storage :=
  ms.foldlM (fun s m => s.merge m.1 m.2) s

/-- A chain of merges, each in one direction or the other, leads from one instruction to
another. -/
def Chained (ms : List (Nat × Nat)) : Nat → Nat → Prop :=
  Relation.EqvGen fun a c => (a, c) ∈ ms

theorem chained_equivalence (ms : List (Nat × Nat)) : Equivalence (Chained ms) :=
  Relation.EqvGen.is_equivalence _

/-- More merges make more chains. -/
theorem Chained.append {ms : List (Nat × Nat)} {x y : Nat} (h : Chained ms x y)
    (ms' : List (Nat × Nat)) : Chained (ms ++ ms') x y :=
  h.mono fun _ _ hm => List.mem_append_left ms' hm

/-- What merging the listed pairs makes of the instructions of a body, each of them alone at
first. -/
structure Merged (s : Storage) (b : Body) (ms : List (Nat × Nat)) : Prop
    extends s.Valid b, s.Least b where
  nodup : ∀ v, (s.members.getD v []).Nodup
  joined : ∀ m ∈ ms, s.var? m.1 = s.var? m.2
  chained : ∀ x y, s.Same x y → Chained ms x y

theorem merged_singletons {b : Body} (hb : b.WellFormed) : (singletons b).Merged b [] where
  toValid := valid_singletons hb
  toLeast := least_singletons hb
  nodup v := by
    show (((b.order.map fun id => [id]).toArray).getD v []).Nodup
    rw [Array.getD_eq_getD_getElem?, List.getElem?_toArray, List.getElem?_map]
    cases b.order[v]? with
    | none => exact List.nodup_nil
    | some id => exact List.nodup_singleton id
  joined _ hm := absurd hm List.not_mem_nil
  chained x y h := by
    obtain ⟨v, hx, hy⟩ := h
    rw [var?_singletons hb] at hx hy
    rw [Option.some.inj (hx.symm.trans hy)]
    exact .refl y

/-- The members of two classes are listed once after one has swallowed the other. -/
theorem Valid.nodup_absorb {s : Storage} {b : Body} (hs : s.Valid b)
    (hnodup : ∀ v, (s.members.getD v []).Nodup) {keep gone : Nat} (hk : keep < s.members.size)
    (hne : keep ≠ gone) (v : Nat) : ((s.absorb keep gone).members.getD v []).Nodup := by
  have hdisjoint : (s.members.getD keep [] ++ s.members.getD gone []).Nodup := by
    refine List.nodup_append.2 ⟨hnodup keep, hnodup gone, ?_⟩
    rintro x hx y hy rfl
    exact hne (Option.some.inj
      (((hs.mem_members keep x).1 hx).symm.trans ((hs.mem_members gone x).1 hy)))
  rw [getD_members_absorb s hk hne]
  by_cases hv : v = keep
  · rwa [if_pos hv]
  · rw [if_neg hv]
    by_cases hv' : v = gone
    · rw [if_pos hv']
      exact List.nodup_nil
    · rw [if_neg hv']
      exact hnodup v

namespace Merged

variable {s t : Storage} {b : Body} {ms ms' : List (Nat × Nat)}

/-- **Step lemma.**  One more merge. -/
theorem merge (h : s.Merged b ms) {a c : Nat} (ha : a < b.store.size) (hc : c < b.store.size) :
    ∃ s', s.merge a c = .ok s' ∧ s'.Merged b (ms ++ [(a, c)]) := by
  obtain ⟨v, hv⟩ := h.total a ha
  obtain ⟨w, hw⟩ := h.total c hc
  obtain ⟨s', hrun, hvalid, hmap⟩ := h.toValid.merge hv hw
  have hlast : Chained (ms ++ [(a, c)]) a c :=
    .rel _ _ (List.mem_append_right ms List.mem_cons_self)
  refine ⟨s', hrun, hvalid, h.toLeast.of_merge hv hw hmap, ?_, fun m hm => ?_, fun x y hxy => ?_⟩
  · rw [merge_eq_ok hv hw] at hrun
    obtain rfl := Except.ok.inj hrun
    split
    · exact h.nodup
    · have hmin : min v w < s.members.size := by
        rw [h.size_members]
        exact lt_of_le_of_lt (min_le_left v w) (h.var_lt_size hv)
      exact h.toValid.nodup_absorb h.nodup hmin (by omega)
  · rcases List.mem_append.1 hm with hm | hm
    · rw [hmap, hmap, h.joined m hm]
    · obtain rfl := List.mem_singleton.1 hm
      obtain ⟨u, hx, hy⟩ := same_of_merge hv hw hmap
      rw [hx, hy]
  · exact rel_of_same_merge hv hw hmap (chained_equivalence _)
      (fun x y h' => (h.chained x y h').append _) hlast hxy

/-- **Run lemma.**  Any number of further merges. -/
theorem mergeAll (h : s.Merged b ms) (hms : ∀ m ∈ ms', m.1 < b.store.size ∧ m.2 < b.store.size) :
    ∃ s', s.mergeAll ms' = .ok s' ∧ s'.Merged b (ms ++ ms') := by
  induction ms' generalizing s ms with
  | nil => exact ⟨s, rfl, by rwa [List.append_nil]⟩
  | cons m ms' ih =>
    obtain ⟨ha, hc⟩ := hms m List.mem_cons_self
    obtain ⟨s₁, hrun₁, h₁⟩ := h.merge ha hc
    obtain ⟨s₂, hrun₂, h₂⟩ := ih h₁ fun m' hm' => hms m' (List.mem_cons_of_mem m hm')
    rw [List.append_assoc, List.singleton_append] at h₂
    exact ⟨s₂, bind_eq_ok_iff.2 ⟨s₁, hrun₁, hrun₂⟩, h₂⟩

/-- What a chain of merges ties together has one variable. -/
theorem var?_eq_of_chained (h : s.Merged b ms) {x y : Nat} (hxy : Chained ms x y) :
    s.var? x = s.var? y := by
  induction hxy with
  | rel x y hm => exact h.joined (x, y) hm
  | refl x => rfl
  | symm x y _ ih => exact ih.symm
  | trans x y z _ _ ih₁ ih₂ => exact ih₁.trans ih₂

theorem var?_eq_iff (h : s.Merged b ms) {x y : Nat} (hx : x < b.store.size) :
    s.var? x = s.var? y ↔ Chained ms x y :=
  ⟨fun heq => h.chained x y ((h.same_iff_var?_eq hx).2 heq), h.var?_eq_of_chained⟩

/-- The variable of an instruction after merges is at most the one after others that chain less
together. -/
theorem var_le (h : s.Merged b ms) (h' : t.Merged b ms')
    (hsub : ∀ x y, Chained ms' x y → Chained ms x y) {x v w : Nat} (hv : s.var? x = some v)
    (hw : t.var? x = some w) : v ≤ w := by
  obtain ⟨y, hy, hyw⟩ := h'.held x w hw
  have hxy := h.var?_eq_of_chained (hsub x y (h'.chained x y ⟨w, hw, hyw⟩))
  exact h.le y v w (hxy ▸ hv) hy

/-- **Chains determine variables.**  Merges that chain the same instructions together give every
instruction the same variable. -/
theorem var?_eq (h : s.Merged b ms) (h' : t.Merged b ms')
    (hiff : ∀ x y, Chained ms x y ↔ Chained ms' x y) (x : Nat) : s.var? x = t.var? x := by
  by_cases hx : x < b.store.size
  · obtain ⟨v, hv⟩ := h.total x hx
    obtain ⟨w, hw⟩ := h'.total x hx
    rw [hv, hw, le_antisymm (h.var_le h' (fun x y => (hiff x y).2) hv hw)
      (h'.var_le h (fun x y => (hiff x y).1) hw hv)]
  · have hnone : ∀ {u : Storage}, u.Valid b → u.var? x = none := fun hu =>
      Option.eq_none_iff_forall_ne_some.2 fun v hv => hx (hu.lt_size hv)
    rw [hnone h.toValid, hnone h'.toValid]

end Merged

/-- The same pairs, in either direction, chain the same instructions together. -/
theorem chained_congr {ms ms' : List (Nat × Nat)}
    (h : ∀ a c, (a, c) ∈ ms ∨ (c, a) ∈ ms ↔ (a, c) ∈ ms' ∨ (c, a) ∈ ms') (x y : Nat) :
    Chained ms x y ↔ Chained ms' x y := by
  have hsub : ∀ {ns ns' : List (Nat × Nat)},
      (∀ a c, (a, c) ∈ ns → (a, c) ∈ ns' ∨ (c, a) ∈ ns') → Chained ns x y → Chained ns' x y := by
    intro ns ns' hns hxy
    induction hxy with
    | rel a c hm =>
      rcases hns a c hm with h | h
      · exact .rel a c h
      · exact .symm c a (.rel c a h)
    | refl a => exact .refl a
    | symm a c _ ih => exact .symm a c ih
    | trans a c d _ _ ih₁ ih₂ => exact .trans a c d ih₁ ih₂
  exact ⟨hsub fun a c hm => (h a c).1 (Or.inl hm), hsub fun a c hm => (h a c).2 (Or.inl hm)⟩

/-! ## Divisions into classes -/

/-- The classes of a division list the instructions of the body, each of them once. -/
theorem Valid.perm_flatten {s : Storage} {b : Body} (hs : s.Valid b) (hb : b.WellFormed)
    (hnodup : ∀ v, (s.members.getD v []).Nodup) : s.members.toList.flatten.Perm b.order := by
  have hget : ∀ {v : Nat} (hv : v < s.members.toList.length),
      s.members.toList[v] = s.members.getD v [] := by
    intro v hv
    rw [Array.getElem_toList, Array.getD_eq_getD_getElem?, Array.getElem?_eq_getElem,
      Option.getD_some]
  have hmem : ∀ x, x ∈ s.members.toList.flatten ↔ ∃ v, s.var? x = some v := by
    intro x
    rw [List.mem_flatten]
    constructor
    · rintro ⟨ids, hids, hx⟩
      obtain ⟨v, hv, rfl⟩ := List.mem_iff_getElem.1 hids
      exact ⟨v, (hs.mem_members v x).1 (hget hv ▸ hx)⟩
    · rintro ⟨v, hx⟩
      have hv : v < s.members.toList.length := by
        rw [Array.length_toList, hs.size_members]
        exact hs.var_lt_size hx
      exact ⟨_, List.getElem_mem hv, hget hv ▸ (hs.mem_members v x).2 hx⟩
  refine (List.perm_ext_iff_of_nodup ?_ hb.nodup).2 fun x => ?_
  · refine List.nodup_flatten.2 ⟨fun ids hids => ?_, List.pairwise_iff_getElem.2 ?_⟩
    · obtain ⟨v, hv, rfl⟩ := List.mem_iff_getElem.1 hids
      exact hget hv ▸ hnodup v
    · intro v w hv hw hlt x hx hx'
      rw [hget, hs.mem_members] at hx hx'
      exact absurd (Option.some.inj (hx.symm.trans hx')) (ne_of_lt hlt)
  · rw [hmem, hb.mem_order]
    exact ⟨fun ⟨v, hx⟩ => hs.lt_size hx, hs.total x⟩

/-- The division of a body into the classes that its joins tie together. -/
structure Closure (s : Storage) (b : Body) : Prop where
  /-- Two instructions have one variable just if a chain of joins leads from one to the other. -/
  var?_eq_iff : ∀ x ∈ b.order, ∀ y ∈ b.order, s.var? x = s.var? y ↔ b.Linked x y
  /-- A variable is the smallest position of an instruction that has it. -/
  isLeast : ∀ x v, s.var? x = some v →
    IsLeast {p | ∃ y, b.order[p]? = some y ∧ s.var? y = some v} v
  size_members : s.members.size = b.size
  mem_members : ∀ v x, x ∈ s.members.getD v [] ↔ s.var? x = some v
  /-- The lists of members divide the body. -/
  perm_members : s.members.toList.flatten.Perm b.order
  /-- Nothing is left to a variable just if the instruction that had it first has another one. -/
  members_eq_nil_iff : ∀ v x, b.order[v]? = some x →
    (s.members.getD v [] = [] ↔ s.var? x ≠ some v)

end Storage

namespace Body

/-- The joins of a body name instructions of the body. -/
def JoinsWithin (b : Body) : Prop :=
  ∀ (id : Nat) (i : Instr) (l r : Nat), b.store[id]? = some i → i.op = .unify l r →
    l ∈ b.order ∧ r ∈ b.order

/-- The merges that an instruction asks for. -/
def mergesOf (e : Nat × Instr) : List (Nat × Nat) :=
  match e.2.op with
  | .unify l r => [(e.1, l), (e.1, r)]
  | _ => []

/-- The merges that the joins of a body ask for. -/
def merges (b : Body) : List (Nat × Nat) := b.toList.flatMap mergesOf

theorem mem_mergesOf {e : Nat × Instr} {a c : Nat} :
    (a, c) ∈ mergesOf e ↔ a = e.1 ∧ ∃ l r, e.2.op = .unify l r ∧ (c = l ∨ c = r) := by
  unfold mergesOf
  split
  · rename_i l r hop
    rw [hop]
    simp only [List.mem_cons, Prod.mk.injEq, List.not_mem_nil, or_false]
    constructor
    · rintro (⟨rfl, rfl⟩ | ⟨rfl, rfl⟩)
      · exact ⟨rfl, _, _, rfl, Or.inl rfl⟩
      · exact ⟨rfl, _, _, rfl, Or.inr rfl⟩
    · rintro ⟨rfl, l', r', heq, h⟩
      obtain ⟨rfl, rfl⟩ := Op.unify.inj heq
      exact h.imp (fun h => ⟨rfl, h⟩) fun h => ⟨rfl, h⟩
  · rename_i hnone
    refine iff_of_false List.not_mem_nil ?_
    rintro ⟨-, l, r, hop, -⟩
    exact hnone l r hop

/-- The merges of a body are its joins with what they join. -/
theorem WellFormed.mem_merges {b : Body} (hb : b.WellFormed) {a c : Nat} :
    (a, c) ∈ b.merges ↔ b.Ties a c := by
  rw [merges, List.mem_flatMap]
  constructor
  · rintro ⟨⟨x, i⟩, he, hm⟩
    obtain ⟨rfl, l, r, hop, hc⟩ := mem_mergesOf.1 hm
    exact ⟨i, l, r, hb.mem_toList.1 he, hop, hc⟩
  · rintro ⟨i, l, r, hi, hop, hc⟩
    exact ⟨(a, i), hb.mem_toList.2 hi, mem_mergesOf.2 ⟨rfl, l, r, hop, hc⟩⟩

end Body

namespace Storage

/-- The variables of a body come from the merges of its joins. -/
theorem ofBody_eq_mergeAll (b : Body) : ofBody b = (singletons b).mergeAll b.merges := by
  have htie : ∀ (s : Storage) (e : Nat × Instr), s.tie e = s.mergeAll (Body.mergesOf e) := by
    intro s e
    unfold tie Body.mergesOf
    cases e.2.op with
    | unify l r => exact bind_congr fun s' => (bind_pure _).symm
    | _ => rfl
  have hrun : ∀ (es : List (Nat × Instr)) (s : Storage),
      es.foldlM tie s = s.mergeAll (es.flatMap Body.mergesOf) := by
    intro es
    induction es with
    | nil => exact fun s => rfl
    | cons e es ih =>
      intro s
      rw [List.foldlM_cons, htie, List.flatMap_cons, mergeAll, mergeAll, List.foldlM_append]
      exact bind_congr fun s' => ih s'
  exact hrun b.toList (singletons b)

/-- A division that the merges of a body have made is the closure of its joins. -/
theorem Merged.closure {s : Storage} {b : Body} (hb : b.WellFormed) (h : s.Merged b b.merges) :
    s.Closure b where
  var?_eq_iff x hx y _ := by
    have hlinked : Chained b.merges = b.Linked := by
      unfold Chained Body.Linked
      congr 1
      funext a c
      exact propext hb.mem_merges
    rw [h.var?_eq_iff ((hb.mem_order x).1 hx), hlinked]
  isLeast x v hx :=
    ⟨h.held x v hx, fun p ⟨y, hy, hyv⟩ => h.le y v p hyv hy⟩
  size_members := h.size_members
  mem_members := h.mem_members
  perm_members := h.toValid.perm_flatten hb h.nodup
  members_eq_nil_iff v x hx := by
    constructor
    · intro hnil hxv
      have hmem := (h.mem_members v x).2 hxv
      rw [hnil] at hmem
      exact List.not_mem_nil hmem
    · -- a variable that holds anything holds the instruction at its position
      intro hne
      refine List.eq_nil_iff_forall_not_mem.2 fun y hy => hne ?_
      obtain ⟨z, hz, hzv⟩ := h.held y v ((h.mem_members v y).1 hy)
      rw [Option.some.inj (hx.symm.trans hz), hzv]

end Storage

namespace Body

/-- **Variables are the closure of joins**, however the merges are arranged.  The variables of a
body are found whatever its joins name, be it before, behind or at the join itself; and any list of
merges gives the same variables as any other one that consists of the same merges. -/
theorem WellFormed.closure_ofBody {b : Body} (hb : b.WellFormed) (hjoins : b.JoinsWithin) :
    (∃ s, Storage.ofBody b = .ok s ∧ (Storage.singletons b).mergeAll b.merges = .ok s ∧
      s.Closure b) ∧
    ∀ ms ms' : List (Nat × Nat), (∀ m ∈ ms, m.1 ∈ b.order ∧ m.2 ∈ b.order) →
      (∀ a c, (a, c) ∈ ms ∨ (c, a) ∈ ms ↔ (a, c) ∈ ms' ∨ (c, a) ∈ ms') →
      ∃ s s', (Storage.singletons b).mergeAll ms = .ok s ∧
        (Storage.singletons b).mergeAll ms' = .ok s' ∧ ∀ x, s.var? x = s'.var? x := by
  have hstart := Storage.merged_singletons hb
  have hrun : ∀ ms : List (Nat × Nat), (∀ m ∈ ms, m.1 ∈ b.order ∧ m.2 ∈ b.order) →
      ∃ s, (Storage.singletons b).mergeAll ms = .ok s ∧ s.Merged b ms := by
    intro ms hms
    exact hstart.mergeAll fun m hm =>
      ⟨(hb.mem_order _).1 (hms m hm).1, (hb.mem_order _).1 (hms m hm).2⟩
  constructor
  · obtain ⟨s, hs, hmerged⟩ := hrun b.merges fun m hm => by
      obtain ⟨i, l, r, hi, hop, hc⟩ := hb.mem_merges.1 hm
      obtain ⟨hl, hr⟩ := hjoins _ i l r hi hop
      refine ⟨(hb.mem_order _).2 (lt_size_of_getElem? hi), ?_⟩
      rcases hc with hc | hc
      · rwa [hc]
      · rwa [hc]
    exact ⟨s, (Storage.ofBody_eq_mergeAll b).trans hs, hs, hmerged.closure hb⟩
  · intro ms ms' hms hsame
    have hms' : ∀ m ∈ ms', m.1 ∈ b.order ∧ m.2 ∈ b.order := by
      intro m hm
      rcases (hsame m.1 m.2).2 (Or.inl hm) with h | h
      · exact hms _ h
      · exact (hms _ h).symm
    obtain ⟨s, hs, hmerged⟩ := hrun ms hms
    obtain ⟨s', hs', hmerged'⟩ := hrun ms' hms'
    exact ⟨s, s', hs, hs', hmerged.var?_eq hmerged' (Storage.chained_congr hsame)⟩

/-- Joins of what comes behind them and of themselves. -/
def knot : Body := .ofOps [.unify 2 0, .int 1, .int 2, .unify 4 3, .unify 2 2, .print 1]

/-- The joins tie four instructions together, and merging them backwards, some of them twice and
some the other way round, comes to the same. -/
theorem closure_knot :
    knot.WellFormed ∧ knot.JoinsWithin ∧ ∃ s s', Storage.ofBody knot = .ok s ∧ s.Closure knot ∧
      s.var? 4 = some 0 ∧ s.var? 1 = some 1 ∧ s.members.getD 3 [] = [] ∧
      (Storage.singletons knot).mergeAll [(2, 4), (3, 4), (3, 3), (2, 4), (0, 0), (2, 0)] = .ok s' ∧
      ∀ x, s'.var? x = s.var? x := by
  have hb : knot.WellFormed := (built_ofOps _).wellFormed
  have hjoins : knot.JoinsWithin := by
    have hall : ∀ i ∈ knot.store.toList, ∀ o ∈ i.op.operands, o ∈ knot.order := by decide
    intro id i l r hi hop
    have hmem := forall_mem_store.1 hall id i hi
    rw [hop] at hmem
    exact ⟨hmem l List.mem_cons_self, hmem r (List.mem_cons_of_mem l List.mem_cons_self)⟩
  obtain ⟨⟨s, hs, hmerges, hclosure⟩, hany⟩ := hb.closure_ofBody hjoins
  obtain ⟨s₁, hs₁, htest⟩ : ∃ s, Storage.ofBody knot = .ok s ∧ decide (s.var? 4 = some 0 ∧
      s.var? 1 = some 1 ∧ s.members.getD 3 [] = []) = true := exists_ok_of_any (by decide +kernel)
  obtain rfl : s = s₁ := Except.ok.inj (hs.symm.trans hs₁)
  obtain ⟨h4, h1, h3⟩ := of_decide_eq_true htest
  have hto : ∀ m ∈ [(2, 4), (3, 4), (3, 3), (2, 4), (0, 0), (2, 0)],
      m ∈ knot.merges ∨ m.swap ∈ knot.merges := by decide
  have hfrom : ∀ m ∈ knot.merges, m ∈ [(2, 4), (3, 4), (3, 3), (2, 4), (0, 0), (2, 0)] ∨
      m.swap ∈ [(2, 4), (3, 4), (3, 3), (2, 4), (0, 0), (2, 0)] := by decide
  obtain ⟨s', s₂, hs', hs₂, hvar⟩ := hany _ knot.merges (by decide) fun a c =>
    ⟨fun h => h.elim (hto (a, c)) fun h => (hto (c, a) h).symm,
      fun h => h.elim (hfrom (a, c)) fun h => (hfrom (c, a) h).symm⟩
  obtain rfl : s = s₂ := Except.ok.inj (hmerges.symm.trans hs₂)
  exact ⟨hb, hjoins, s, s', hs, hclosure, h4, h1, h3, hs', hvar⟩

end Body

end Backend
