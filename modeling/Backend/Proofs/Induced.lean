/-
# Spilling takes nodes out of the interference graph

The interference graph of a body with spill code is computed anew, from new variables, a new flow
graph and new live sets.  Still it is the old graph without the nodes of the spilled variables
(`Body.Closed.interference_spill`): a value that stays in its variable is live where it was
(`Body.Expands.together_iff`), and spill code has no candidates of its own.
-/
import Mathlib
import Backend.Proofs.Rewriting

namespace Backend

/-! ## Induced subgraphs -/

namespace Digraph

variable {α : Type}

/-- The vertices whose values are kept. -/
def idsWhere (g : Digraph α) (keep : α → Bool) : IdSet :=
  .below g.size fun id => (g.val? id).any keep

/-- The subgraph on the vertices whose values are kept, in their order and numbered anew. -/
def induce (g : Digraph α) (keep : α → Bool) : Digraph α :=
  let kept := g.idsWhere keep
  ⟨((kept.toList.filterMap (g.vertices[·]?)).map fun v =>
    { v with succ := kept.placesOf v.succ, pred := kept.placesOf v.pred }).toArray⟩

variable {vals : List α} {rel : Nat → Nat → Bool}

/-- A vertex of a graph that is given by a relation. -/
def relVertex (n : Nat) (rel : Nat → Nat → Bool) (x : Nat) (val : α) : Vertex α :=
  { val, succ := IdSet.below n (rel x ·), pred := IdSet.below n (rel · x) }

/-- The vertices of a graph that is given by a relation. -/
theorem getElem?_ofRel (x : Nat) :
    (ofRel vals rel).vertices[x]? = vals[x]?.map (relVertex vals.length rel x) := by
  rw [ofRel, Array.getElem?_mapIdx, List.getElem?_toArray]
  rfl

theorem eq_ofRel {g : Digraph α}
    (h : ∀ x, g.vertices[x]? = vals[x]?.map (relVertex vals.length rel x)) :
    g = ofRel vals rel :=
  congrArg Digraph.mk (Array.ext_getElem? fun x => (h x).trans (getElem?_ofRel x).symm)

/-- Only what the relation says about the vertices matters. -/
theorem ofRel_congr {rel' : Nat → Nat → Bool}
    (h : ∀ x y, x < vals.length → y < vals.length → rel x y = rel' x y) :
    ofRel vals rel = ofRel vals rel' := by
  refine eq_ofRel fun x => ?_
  rw [getElem?_ofRel]
  refine Option.map_congr fun val hval => ?_
  have hx := (List.getElem?_eq_some_iff.1 hval).1
  have hsucc : IdSet.below vals.length (rel x ·) = IdSet.below vals.length (rel' x ·) := by
    apply IdSet.ext
    intro y
    rw [IdSet.mem_below, IdSet.mem_below]
    exact and_congr_right fun hy => by rw [h x y hx hy]
  have hpred : IdSet.below vals.length (rel · x) = IdSet.below vals.length (rel' · x) := by
    apply IdSet.ext
    intro y
    rw [IdSet.mem_below, IdSet.mem_below]
    exact and_congr_right fun hy => by rw [h y x hy hx]
  rw [relVertex, relVertex, hsucc, hpred]

/-- Changing the values keeps the relation. -/
theorem mapVals_ofRel (f : α → α) : (ofRel vals rel).mapVals f = ofRel (vals.map f) rel := by
  refine eq_ofRel fun x => ?_
  rw [mapVals, Array.getElem?_map, getElem?_ofRel, List.getElem?_map, List.length_map,
    Option.map_map, Option.map_map]
  rfl

theorem lt_length_of_mem_idsWhere {keep : α → Bool} {x : Nat}
    (h : x ∈ (ofRel vals rel).idsWhere keep) : x < vals.length := by
  have hlt := (IdSet.mem_below.1 h).1
  rwa [size_ofRel] at hlt

/-- The values that are kept, by the vertices that are kept. -/
theorem filterMap_idsWhere (rel : Nat → Nat → Bool) (keep : α → Bool) :
    ((ofRel vals rel).idsWhere keep).toList.filterMap (vals[·]?) = vals.filter keep := by
  have hvals : (List.range vals.length).map (vals[·]?) = vals.map some := by
    apply List.ext_getElem?
    intro x
    rw [List.getElem?_map, List.getElem?_map]
    by_cases hx : x < vals.length
    · rw [List.getElem?_range hx, Option.map_some, List.getElem?_eq_getElem hx, Option.map_some]
    · rw [List.getElem?_eq_none (by rw [List.length_range]; omega), Option.map_none,
        List.getElem?_eq_none (by omega), Option.map_none]
  calc ((ofRel vals rel).idsWhere keep).toList.filterMap (vals[·]?)
    _ = ((List.range vals.length).filter fun x => (vals[x]?).any keep).filterMap (vals[·]?) := by
      rw [idsWhere, size_ofRel]
      simp only [val?_ofRel]
      rfl
    _ = ((List.range vals.length).map (vals[·]?)).filterMap (Option.filter keep) := by
      rw [List.filterMap_filter, List.filterMap_map]
      apply List.filterMap_congr
      intro x _
      show _ = (vals[x]?).filter keep
      cases vals[x]? <;> rfl
    _ = vals.filter keep := by
      rw [hvals, List.filterMap_map, ← List.filterMap_eq_filter]
      rfl

theorem getElem?_filter_idsWhere (rel : Nat → Nat → Bool) (keep : α → Bool) (x : Nat) :
    (vals.filter keep)[x]? = ((ofRel vals rel).idsWhere keep).toList[x]?.bind (vals[·]?) := by
  rw [← filterMap_idsWhere rel, getElem?_filterMap_of_isSome]
  intro y hy
  rw [List.getElem?_eq_getElem (lt_length_of_mem_idsWhere hy)]
  rfl

/-- The places of numbers that are picked from the kept ones. -/
theorem placesOf_below {kept : IdSet} {n : Nat} (hkept : ∀ y ∈ kept, y < n) (p : Nat → Bool) :
    kept.placesOf (.below n p) = .below kept.size fun y => p (kept.toList.getD y 0) := by
  apply IdSet.ext
  intro y
  rw [IdSet.mem_placesOf, IdSet.mem_below, List.getD_eq_getElem?_getD]
  constructor
  · rintro ⟨z, hz, hmem⟩
    rw [hz]
    exact ⟨(List.getElem?_eq_some_iff.1 hz).1, (IdSet.mem_below.1 hmem).2⟩
  · rintro ⟨hy, hp⟩
    have hz := List.getElem?_eq_getElem hy
    rw [hz] at hp
    exact ⟨_, hz, IdSet.mem_below.2 ⟨hkept _ (List.getElem_mem hy), hp⟩⟩

/-- **An induced subgraph is given by the relation between the vertices that are kept.** -/
theorem induce_ofRel (keep : α → Bool) : (ofRel vals rel).induce keep =
    ofRel (vals.filter keep) fun x y =>
      rel (((ofRel vals rel).idsWhere keep).toList.getD x 0)
        (((ofRel vals rel).idsWhere keep).toList.getD y 0) := by
  set kept := (ofRel vals rel).idsWhere keep with hkept
  have hlt : ∀ x ∈ kept, x < vals.length := fun x hx => lt_length_of_mem_idsWhere hx
  have hsome : ∀ x ∈ kept.toList, (vals[x]?).isSome := by
    intro x hx
    rw [List.getElem?_eq_getElem (hlt x hx)]
    rfl
  have hlength : (vals.filter keep).length = kept.size := by
    rw [← filterMap_idsWhere rel]
    exact List.filterMap_length_eq_length.2 hsome
  refine eq_ofRel fun x => ?_
  rw [getElem?_filter_idsWhere rel, ← hkept, induce, ← hkept, List.getElem?_toArray,
    List.getElem?_map, getElem?_filterMap_of_isSome]
  · cases hx : kept.toList[x]? with
    | none => rfl
    | some a =>
      rw [Option.bind_some, Option.bind_some, getElem?_ofRel, Option.map_map]
      refine Option.map_congr fun val _ => ?_
      have ha : kept.toList.getD x 0 = a := by rw [List.getD_eq_getElem?_getD, hx]; rfl
      simp only [Function.comp, relVertex, placesOf_below hlt, hlength, ha]
  · intro y hy
    rw [getElem?_ofRel, Option.isSome_map]
    exact hsome y hy

end Digraph

/-! ## Liveness of what is not spilled -/

namespace Body.Expands

variable {b c : Body} {slots : SlotMap} {start fresh : Nat → Nat}

/-- An operand without a slot is read as before. -/
theorem mem_reads_written {first id o : Nat} {i : Instr} (ho : o ∈ readsOf id i.op)
    (hnone : slots.slotOf o = none) : o ∈ readsOf id (written slots first id i).op := by
  rw [op_written, readsOf, Op.isUnify_mapOperands]
  rw [readsOf] at ho
  split_ifs at ho ⊢ with hunify
  · exact ho
  · rw [Op.operands_mapOperands, List.mem_map]
    refine ⟨o, ho, ?_⟩
    rw [SlotMap.redirect, hnone]
    rfl

variable (hx : b.Expands c slots start fresh) (hb : b.Closed)

include hx hb

/-- From the last instruction that an old one has become, control goes where the old one led. -/
theorem passes_last {p p' id : Nat} {i : Instr} (hp : b.toList[p]? = some (id, i))
    (h : b.Passes p p') : c.Passes (start p + slots.extra id i.op) (start p') := by
  have hsucc := hx.start_succ p id i hp
  have hop : b.ops[p]? = some i.op := by
    rw [getElem?_ops, hp]
    rfl
  have hmain := hx.getElem?_ops_main hp
  have hextra : slots.toStore id i.op = none →
      slots.extra id i.op = (slots.toLoad id i.op).length := by
    intro hs
    rw [SlotMap.extra, hs]
    rfl
  rcases h with ⟨op, hop', hgoto, rfl, hlt⟩ | ⟨op, l, hop', hl, hpos⟩
  · obtain rfl := Option.some.inj (hop.symm.trans hop')
    have hnext : start (p + 1) < c.size := by
      rw [hx.size_eq]
      exact hx.start_lt hb.toWellFormed hlt (le_refl _)
    have hlast : ∃ op, c.ops[start p + slots.extra id i.op]? = some op ∧ op.isGoto = false := by
      cases hs : slots.toStore id i.op with
      | none =>
        rw [hextra hs]
        exact ⟨_, hmain, by rw [op_written, Op.isGoto_mapOperands, hgoto]⟩
      | some s =>
        refine ⟨.store id s, ?_, rfl⟩
        rw [SlotMap.extra, hs, getElem?_ops, Option.toList_some, List.length_singleton,
          hx.getElem?_store hp hs]
        rfl
    obtain ⟨op, hop, hgoto⟩ := hlast
    exact Or.inl ⟨op, hop, hgoto, by omega, hnext⟩
  · obtain rfl := Option.some.inj (hop.symm.trans hop')
    -- what jumps leaves no value, so nothing is stored behind it
    have hs : slots.toStore id i.op = none := by
      rw [Option.eq_none_iff_forall_ne_some]
      intro s hs
      rw [(Op.target_of_definesValue (SlotMap.toStore_eq_some.1 hs).1).1] at hl
      exact absurd hl (by simp)
    rw [hextra hs]
    exact Or.inr ⟨_, l, hmain, by rw [op_written, Op.target_mapOperands, hl],
      (hx.labelPosition? hb.toWellFormed).2 ⟨p', hpos, rfl⟩⟩

/-- Control goes through the spill code around an instruction. -/
theorem passes_within {p id n : Nat} {i : Instr} (hp : b.toList[p]? = some (id, i))
    (hn : n < slots.extra id i.op) : c.Passes (start p + n) (start p + (n + 1)) := by
  have hsucc := hx.start_succ p id i hp
  have hle : p + 1 ≤ b.size := by
    rw [← hb.length_toList]
    exact (List.getElem?_eq_some_iff.1 hp).1
  have hend : start (p + 1) ≤ c.size := by
    rw [hx.size_eq]
    exact (hx.start_le_iff hb.toWellFormed hle (le_refl _)).2 hle
  have hop : ∃ op, c.ops[start p + n]? = some op ∧ op.isGoto = false := by
    rcases Nat.lt_or_ge n (slots.toLoad id i.op).length with hload | hge
    · refine ⟨.load (slots.toLoad id i.op)[n], ?_, rfl⟩
      rw [getElem?_ops, hx.getElem?_load hp (List.getElem?_eq_getElem hload)]
      rfl
    · -- only the store comes behind the instruction, and only if it leaves a value
      cases hs : slots.toStore id i.op with
      | none =>
        rw [SlotMap.extra, hs, Option.toList_none, List.length_nil] at hn
        omega
      | some s =>
        rw [SlotMap.extra, hs, Option.toList_some, List.length_singleton] at hn
        obtain rfl : n = (slots.toLoad id i.op).length := by omega
        refine ⟨_, hx.getElem?_ops_main hp, ?_⟩
        rw [op_written, Op.isGoto_mapOperands]
        exact (Op.target_of_definesValue (SlotMap.toStore_eq_some.1 hs).1).2
  obtain ⟨op, hop, hgoto⟩ := hop
  exact Or.inl ⟨op, hop, hgoto, rfl, by omega⟩

variable (hslots : slots.Uniform b)

include hslots

/-- What is live in front of an instruction is live in front of its loads. -/
theorem liveAt_loads {x p id : Nat} {i : Instr} (hlt : x < b.store.size)
    (hp : b.toList[p]? = some (id, i))
    (h : c.LiveAt x (start p + (slots.toLoad id i.op).length)) : c.LiveAt x (start p) := by
  have hback : ∀ m n, n + m = (slots.toLoad id i.op).length → c.LiveAt x (start p + n) := by
    intro m
    induction m with
    | zero =>
      rintro n rfl
      exact h
    | succ m ih =>
      intro n hn
      have hload := List.getElem?_eq_getElem (show n < (slots.toLoad id i.op).length by omega)
      refine .pass (hx.getElem?_load hp hload) (fun _ => hx.not_linked_fresh hb hslots hlt p)
        (hx.passes_within hb hp ?_) (ih (n + 1) (by omega))
      rw [SlotMap.extra]
      omega
  exact hback _ 0 (Nat.zero_add _)

/-- What is not written by an instruction, and live behind it and its store, is live in front of its
loads. -/
theorem liveAt_start_of_last {x p q id : Nat} {i : Instr} (hlt : x < b.store.size)
    (hp : b.toList[p]? = some (id, i)) (hd : i.op.definesValue = true → ¬ b.Linked id x)
    (hq : b.Passes p q) (h : c.LiveAt x (start q)) : c.LiveAt x (start p) := by
  apply hx.liveAt_loads hb hslots hlt hp
  have hlast := hx.passes_last hb hp hq
  have hmain : (written slots (fresh p) id i).op.definesValue = true → ¬ c.Linked id x := by
    rw [op_written, Op.definesValue_mapOperands, hx.linked_iff hb.toWellFormed hslots]
    exact hd
  cases hs : slots.toStore id i.op with
  | none =>
    rw [SlotMap.extra, hs, Option.toList_none, List.length_nil, Nat.add_zero] at hlast
    exact .pass (hx.getElem?_main hp) hmain hlast h
  | some s =>
    have hstep := hx.passes_within hb hp (n := (slots.toLoad id i.op).length) (by
      rw [SlotMap.extra, hs]
      exact Nat.lt_succ_self _)
    rw [SlotMap.extra, hs, Option.toList_some, List.length_singleton] at hlast
    refine .pass (hx.getElem?_main hp) hmain hstep (.pass (hx.getElem?_store hp hs) ?_ hlast h)
    intro hdef
    exact absurd hdef (by simp [Op.definesValue])

/-- **A value without a slot is live where it was.**  The induction is on why it was live. -/
theorem liveAt_start_of_liveAt {x p : Nat} (hnone : slots.slotOf x = none) (h : b.LiveAt x p) :
    c.LiveAt x (start p) := by
  have hlt := h.lt_size hb
  induction h with
  | use hp ho hlink =>
    have hslot := (hslots _ x hlink).trans hnone
    exact hx.liveAt_loads hb hslots hlt hp (.use (hx.getElem?_main hp) (mem_reads_written ho hslot)
      ((hx.linked_iff hb.toWellFormed hslots).2 hlink))
  | pass hp hd hq _ ih => exact hx.liveAt_start_of_last hb hslots hlt hp hd hq ih

theorem liveBehind_last {x p id : Nat} {i : Instr} (hnone : slots.slotOf x = none)
    (hp : b.toList[p]? = some (id, i)) (h : b.LiveBehind x p) :
    c.LiveBehind x (start p + slots.extra id i.op) := by
  rcases h with ⟨id', i', hp', hdef, hlink⟩ | ⟨q, hq, hlive⟩
  · obtain ⟨rfl, rfl⟩ := Prod.mk.inj (Option.some.inj (hp.symm.trans hp'))
    have hs : slots.toStore id i.op = none := by
      rw [Option.eq_none_iff_forall_ne_some]
      intro s hs
      have hsome := (SlotMap.toStore_eq_some.1 hs).2.2
      rw [(hslots id x hlink).trans hnone] at hsome
      exact absurd hsome (by simp)
    rw [SlotMap.extra, hs, Option.toList_none, List.length_nil, Nat.add_zero]
    exact Or.inl ⟨id, _, hx.getElem?_main hp, by rw [op_written, Op.definesValue_mapOperands, hdef],
      (hx.linked_iff hb.toWellFormed hslots).2 hlink⟩
  · exact Or.inr ⟨start q, hx.passes_last hb hp hq, hx.liveAt_start_of_liveAt hb hslots hnone hlive⟩

/-- **Values without a slot are live together exactly if they were.** -/
theorem together_iff {x y : Nat} (hxlt : x < b.store.size) (hylt : y < b.store.size)
    (hxnone : slots.slotOf x = none) (hynone : slots.slotOf y = none) :
    c.Together x y ↔ b.Together x y := by
  refine ⟨hx.together_old hb hslots hxlt hylt, ?_⟩
  rintro ⟨p, ⟨hpx, hpy⟩ | ⟨hpx, hpy⟩⟩
  · exact ⟨start p, Or.inl ⟨hx.liveAt_start_of_liveAt hb hslots hxnone hpx,
      hx.liveAt_start_of_liveAt hb hslots hynone hpy⟩⟩
  · obtain ⟨id, i, hp⟩ := hpx.exists_entry
    exact ⟨_, Or.inr ⟨hx.liveBehind_last hb hslots hxnone hp hpx,
      hx.liveBehind_last hb hslots hynone hp hpy⟩⟩

end Body.Expands

/-! ## Interference after spilling -/

namespace Interference

/-- Whether the candidates at two places are different and occur in one live set. -/
def meets (f : FlowGraph) (cs : Candidates) (x y : Nat) : Bool :=
  x != y && marked (together cs.size ((liveSets f).map cs.vars.placesOf)) x y

theorem build_eq_ofRel (f : FlowGraph) (cs : Candidates) :
    build f cs = Digraph.ofRel cs.toList (meets f cs) := rfl

/-- Two candidates meet if both are live at one place. -/
theorem meets_iff {f : FlowGraph} {cs : Candidates} {x y : Nat} {d e : Candidate}
    (hd : cs.toList[x]? = some d) (he : cs.toList[y]? = some e) : meets f cs x y = true ↔
      x ≠ y ∧ ∃ live ∈ liveSets f, d.var ∈ live ∧ e.var ∈ live := by
  rw [meets, Bool.and_eq_true, bne_iff_ne, marked_together]
  refine and_congr_right fun _ => ⟨?_, ?_⟩
  · rintro ⟨-, -, places, hplaces, hx, hy⟩
    obtain ⟨live, hlive, rfl⟩ := List.mem_map.1 hplaces
    obtain ⟨d', hd', hdlive⟩ := mem_placesOf_vars.1 hx
    obtain ⟨e', he', helive⟩ := mem_placesOf_vars.1 hy
    obtain rfl : d = d' := Option.some.inj (hd.symm.trans hd')
    obtain rfl : e = e' := Option.some.inj (he.symm.trans he')
    exact ⟨live, hlive, hdlive, helive⟩
  · rintro ⟨live, hlive, hdlive, helive⟩
    exact ⟨(List.getElem?_eq_some_iff.1 hd).1, (List.getElem?_eq_some_iff.1 he).1, _,
      List.mem_map_of_mem hlive, mem_placesOf_vars.2 ⟨d, hd, hdlive⟩,
      mem_placesOf_vars.2 ⟨e, he, helive⟩⟩

/-- **When one graph is an induced subgraph of another**, up to the numbers of the variables: the
kept candidates are renamed, and they meet exactly where they met before. -/
theorem build_eq_induce {f f' : FlowGraph} {cs cs' : Candidates} {keep : Candidate → Bool}
    {rename : Candidate → Candidate} (hcs : cs'.toList = (cs.toList.filter keep).map rename)
    (hlive : ∀ d ∈ cs.toList, ∀ e ∈ cs.toList, keep d = true → keep e = true →
      ((∃ live ∈ liveSets f', (rename d).var ∈ live ∧ (rename e).var ∈ live) ↔
        ∃ live ∈ liveSets f, d.var ∈ live ∧ e.var ∈ live)) :
    build f' cs' = ((build f cs).induce keep).mapVals rename := by
  rw [build_eq_ofRel, build_eq_ofRel, Digraph.induce_ofRel, Digraph.mapVals_ofRel, hcs]
  set kept := (Digraph.ofRel cs.toList (meets f cs)).idsWhere keep with hkept
  have hget : ∀ {x}, x < (cs.toList.filter keep).length → ∃ a d, kept.toList[x]? = some a ∧
      cs.toList[a]? = some d ∧ keep d = true ∧ cs'.toList[x]? = some (rename d) := by
    intro x hx
    have hfilter := List.getElem?_eq_getElem hx
    rw [Digraph.getElem?_filter_idsWhere (meets f cs), ← hkept] at hfilter
    obtain ⟨a, ha, hd⟩ := Option.bind_eq_some_iff.1 hfilter
    refine ⟨a, _, ha, hd, (List.mem_filter.1 (List.getElem_mem hx)).2, ?_⟩
    rw [hcs, List.getElem?_map, List.getElem?_eq_getElem hx]
    rfl
  refine Digraph.ofRel_congr fun x y hx hy => ?_
  rw [List.length_map] at hx hy
  obtain ⟨a, d, ha, hd, hdkeep, hd'⟩ := hget hx
  obtain ⟨a', e, ha', he, hekeep, he'⟩ := hget hy
  have hne : x ≠ y ↔ a ≠ a' := by
    rw [Ne, Ne, not_iff_not]
    constructor
    · rintro rfl
      exact Option.some.inj (ha.symm.trans ha')
    · rintro rfl
      exact (List.getElem?_inj (List.getElem?_eq_some_iff.1 ha).1 kept.nodup_toList).1
        (ha.trans ha'.symm)
  rw [Bool.eq_iff_iff, meets_iff hd' he', List.getD_eq_getElem?_getD, List.getD_eq_getElem?_getD,
    ha, ha', Option.getD_some, Option.getD_some, meets_iff hd he, hne,
    hlive d (List.mem_of_getElem? hd) e (List.mem_of_getElem? he) hdkeep hekeep]

end Interference

/-- The interference graph of a round. -/
theorem Body.interference_of_round {b : Body} {k : Nat} {r : Round} (h : b.round k = .ok r) :
    r.interference = Interference.build r.flow r.candidates := by
  obtain ⟨s, -, h⟩ := bind_eq_ok_iff.1 h
  obtain ⟨g, -, h⟩ := bind_eq_ok_iff.1 h
  obtain rfl := Except.ok.inj h
  rfl

namespace Body

theorem membersOf_eq_of_renames {f : Nat → Nat} {b c : Body} {s t : Storage}
    (hf : Renumbers f b c) (h : Storage.Renames f b c s t) {v : Nat} (hv : v < b.size) :
    t.membersOf (f v) = s.membersOf v := by
  have hs : v < s.members.size := by rwa [h.source.size_members]
  have ht : f v < t.members.size := by
    rw [h.target.size_members]
    exact hf.lt_size hv
  have hmembers := h.members_eq v hv
  rw [Array.getD_eq_getD_getElem?, Array.getD_eq_getD_getElem?, Array.getElem?_eq_getElem hs,
    Array.getElem?_eq_getElem ht] at hmembers
  rw [Storage.membersOf, Storage.membersOf, Array.getElem?_eq_getElem hs,
    Array.getElem?_eq_getElem ht]
  exact congrArg Except.ok hmembers

/-- **Spilling takes exactly the spilled candidates out of the interference graph.**  Each variable
is found again, under a number `f` gives it, by its members. -/
theorem Closed.interference_spill {b : Body} (hb : b.Closed) {s : Storage}
    (hs : Storage.ofBody b = .ok s) {vars : List Nat} (hnodup : vars.Nodup)
    (hvars : ∀ v ∈ vars, v ∈ (b.candidates s).vars) (next k : Nat) :
    ∃ sp r r', ∃ f : Nat → Nat, b.spill s vars next = .ok sp ∧ b.round k = .ok r ∧
      sp.body.round k = .ok r' ∧
      (∀ v < b.size, r'.storage.membersOf (f v) = r.storage.membersOf v) ∧
      r'.interference = (r.interference.induce fun d => d.var ∉ vars).mapVals
        fun d => { d with var := f d.var } := by
  have hs' := Storage.describes_of_ofBody hb hs
  have hlt : ∀ v ∈ vars, v < b.size := by
    intro v hv
    obtain ⟨d, hd, rfl⟩ := List.mem_map.1 (hvars v hv)
    obtain ⟨⟨x, -, hxv, -⟩, -⟩ := ((mem_candidates hs'.toValid).1 hd).1
    exact hs'.var_lt_size hxv
  obtain ⟨slots, hrun, hgives⟩ := exists_slotMap hs'.toValid next hlt hnodup
  obtain ⟨start, fresh, hx⟩ := hb.exists_expands slots
  have hu := hgives.uniform hb hs'
  obtain ⟨r, hround, hr⟩ := hb.exists_round k
  obtain ⟨r', hround', hr'⟩ := (hx.closed hb).exists_round k
  obtain rfl : s = r.storage := Except.ok.inj (hs.symm.trans hr.storage_eq)
  have hrenames := hx.renames hb hu hs hr'.storage_eq
  refine ⟨_, r, r', Expands.moved b slots start, bind_eq_ok_iff.2 ⟨slots, hrun, rfl⟩, hround,
    hround', fun v hv => membersOf_eq_of_renames (hx.renumbers hb.toWellFormed) hrenames hv, ?_⟩
  rw [interference_of_round hround, interference_of_round hround', hr.candidates, hr'.candidates]
  refine Interference.build_eq_induce
    (hx.toList_candidates hb hs hr'.storage_eq hgives) fun d hd e he hdkeep hekeep => ?_
  -- a member of a kept variable has no slot, and is a member of the variable it is renamed to
  have hmember : ∀ {d : Candidate}, d ∈ (b.candidates r.storage).toList → d.var ∉ vars →
      ∃ x, r.storage.var? x = some d.var ∧ slots.slotOf x = none ∧
        r'.storage.var? x = some (Expands.moved b slots start d.var) := by
    intro d hd hnot
    obtain ⟨⟨x, -, hxv, -⟩, -⟩ := ((mem_candidates hs'.toValid).1 hd).1
    refine ⟨x, hxv, ?_, ?_⟩
    · rw [Option.eq_none_iff_forall_ne_some]
      exact fun q hq => hnot ((hgives.isSome_iff hxv).1 ⟨q, hq⟩)
    · rw [hrenames.var?_eq x (hs'.lt_size hxv), hxv]
      rfl
  obtain ⟨x, hxv, hxnone, hxw⟩ := hmember hd (of_decide_eq_true hdkeep)
  obtain ⟨y, hyv, hynone, hyw⟩ := hmember he (of_decide_eq_true hekeep)
  rw [hr.together_iff hb hxv hyv, hr'.together_iff (hx.closed hb) hxw hyw]
  exact hx.together_iff hb hu (hs'.lt_size hxv) (hs'.lt_size hyv) hxnone hynone

/-- Of five candidates, one is spilled that interferes with three others: it is gone, and its edges
are. -/
theorem interference_spill_three_values :
    threeValues.Closed ∧ ∃ s sp r r', ∃ f : Nat → Nat, Storage.ofBody threeValues = .ok s ∧
      2 ∈ (threeValues.candidates s).vars ∧ threeValues.spill s [2] 7 = .ok sp ∧
      threeValues.round 2 = .ok r ∧ sp.body.round 2 = .ok r' ∧
      (r.interference.size = 5 ∧ r.interference.edgeCount = 4) ∧
      (r'.interference.size = 4 ∧ r'.interference.edgeCount = 1) ∧
      (∀ v < 6, r'.storage.membersOf (f v) = r.storage.membersOf v) ∧
      r'.interference = (r.interference.induce fun d => d.var ∉ [2]).mapVals
        fun d => { d with var := f d.var } := by
  have hclosed : threeValues.Closed := by decide
  obtain ⟨s, hs, htest⟩ : ∃ s, Storage.ofBody threeValues = .ok s ∧
      (decide (2 ∈ (threeValues.candidates s).vars) &&
        (threeValues.spill s [2] 7).toOption.any fun sp => (sp.body.round 2).toOption.any fun r =>
          decide (r.interference.size = 4 ∧ r.interference.edgeCount = 1)) = true :=
    exists_ok_of_any (by decide +kernel)
  obtain ⟨hcand, hafter⟩ := Bool.and_eq_true_iff.1 htest
  have hmem := of_decide_eq_true hcand
  obtain ⟨sp, r, r', f, hsp, hr, hr', hmembers, heq⟩ := hclosed.interference_spill hs
    (List.nodup_singleton 2) (fun v hv => List.mem_singleton.1 hv ▸ hmem) 7 2
  have hbefore : (threeValues.round 2).toOption.any (fun r =>
      decide (r.interference.size = 5 ∧ r.interference.edgeCount = 4)) = true := by decide +kernel
  rw [hr] at hbefore
  rw [hsp] at hafter
  replace hafter : (sp.body.round 2).toOption.any (fun r =>
      decide (r.interference.size = 4 ∧ r.interference.edgeCount = 1)) = true := hafter
  rw [hr'] at hafter
  exact ⟨hclosed, s, sp, r, r', f, hs, hmem, hsp, hr, hr', of_decide_eq_true hbefore,
    of_decide_eq_true hafter, hmembers, heq⟩

end Body

end Backend
