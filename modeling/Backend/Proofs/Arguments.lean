/-
# Where arguments and parameters are live

In the code of a finished orderly draft an argument is alone in its storage class
(`Lowered.eq_of_linked_arg`) and live from where it is handed over to its call and nowhere else, so
that two arguments with the same index are never live together (`Lowered.not_together_args`).
Parameters are older than arguments, and two of them never share a class
(`Lowered.eq_of_linked_parameter`).
-/
import Mathlib
import Backend.Proofs.Methods
import Backend.Proofs.Orderly
import Backend.Proofs.Rewriting

namespace Backend.Lowering

/-! ## Finished code -/

/-- The finished draft `d` of code that declares `decls`, which is what `first` does. -/
structure Lowered (decls : List Name) (first d : Draft) : Prop
    extends d.Finished decls, Orderly first d where
  header : first.Sound decls
  length_decls : decls.length ≤ first.code.size
  declares : ∀ (p : Nat) (op : Op), first.ops[p]? = some op → op = .null ∨ op = .parameter p

/-- A draft with nothing but declarations is orderly. -/
theorem orderly_self {decls : List Name} {first : Draft} (hsound : first.Sound decls)
    (hdeclares : ∀ (p : Nat) (op : Op), first.ops[p]? = some op → op = .null ∨ op = .parameter p)
    (hbare : ∀ i ∈ first.code.toList, i.pin = none ∧ i.slot = none) : Orderly first first where
  ops := List.prefix_rfl
  bare i hi := by
    obtain ⟨hpin, hslot⟩ := hbare i hi
    obtain ⟨p, hp⟩ := List.mem_iff_getElem?.1 (List.mem_map_of_mem (f := (·.op)) hi)
    refine ⟨hpin, Instr.isSpillCode_eq_false.2 ⟨hslot, ?_⟩⟩
    rcases hdeclares p i.op hp with h | h <;> rw [h] <;> rfl
  parameter p n hp := by
    rw [← first.length_ops]
    exact (List.getElem?_eq_some_iff.1 hp).1
  arg p v n hp := by rcases hdeclares p _ hp with h | h <;> cases h
  read x v n y op hx := by rcases hdeclares x _ hx with h | h <;> cases h
  joined p l r hp := by rcases hdeclares p _ hp with h | h <;> cases h
  bound e he := by
    have hlookup := lookup_eq_some_of_mem hsound.scope.nodup (x := e.1) (i := e.2) he
    have hlt := lt_length_of_nameOf (hsound.scope.names e.1 e.2 hlookup)
    refine ⟨⟨_, List.getElem?_eq_getElem hlt, fun v n hop => ?_⟩, fun _ => List.mem_map_of_mem he⟩
    rcases hdeclares e.2 _ (List.getElem?_eq_getElem hlt) with h | h <;> rw [h] at hop <;> cases hop

/-- An instruction is read at a position or behind it. -/
def Draft.ReadFrom (d : Draft) (id p : Nat) : Prop :=
  ∃ (y : Nat) (op : Op), p ≤ y ∧ d.ops[y]? = some op ∧ id ∈ op.operands

namespace Lowered

variable {decls : List Name} {first d : Draft} (h : Lowered decls first d)

theorem getElem?_ops_of_store {x : Nat} {i : Instr} (hi : d.body.store[x]? = some i) :
    d.ops[x]? = some i.op := by
  rw [d.getElem?_ops]
  exact Option.map_eq_some_iff.2 ⟨i, hi, rfl⟩

/-- An instruction of the finished code stands at the position of its number. -/
theorem eq_of_getElem?_toList {p id : Nat} {i : Instr} (hp : d.body.toList[p]? = some (id, i)) :
    id = p ∧ d.ops[p]? = some i.op := by
  obtain ⟨horder, hi⟩ := d.wellFormed_body.getElem?_toList_eq_some.1 hp
  obtain rfl : id = p := by
    obtain ⟨hlt, heq⟩ := List.getElem?_eq_some_iff.1 horder
    rw [← heq]
    exact List.getElem_range hlt
  exact ⟨rfl, getElem?_ops_of_store hi⟩

include h

/-- What stands among the declarations is one. -/
theorem declares_of_lt {x : Nat} {op : Op} (hlt : x < first.code.size)
    (hx : d.ops[x]? = some op) : op = .null ∨ op = .parameter x := by
  rw [← first.length_ops] at hlt
  have hfirst := List.getElem?_eq_getElem hlt
  have hop := getElem?_of_isPrefix h.ops hfirst
  rw [hx] at hop
  rw [Option.some.inj hop]
  exact h.declares x _ hfirst

/-- A parameter stands where its index says. -/
theorem parameter_eq {x n : Nat} (hx : d.ops[x]? = some (.parameter n)) : x = n := by
  rcases h.declares_of_lt (h.parameter x n hx) hx with hop | hop
  · cases hop
  · cases hop
    rfl

/-- An argument binds no name. -/
theorem nameOf_arg {x v n : Nat} (hx : d.ops[x]? = some (.arg v n)) :
    nameOf decls d.ops x = none := by
  rw [nameOf_eq_nextName decls hx]
  show decls[(boundNames decls (d.ops.take x)).length]? = none
  rw [length_boundNames, List.length_take_of_le (le_of_lt (List.getElem?_eq_some_iff.1 hx).1)]
  exact List.getElem?_eq_none (le_trans h.length_decls (h.arg x v n hx))

/-- **An argument is alone in its storage class.** -/
theorem eq_of_linked_arg {x y v n : Nat} (hx : d.ops[x]? = some (.arg v n))
    (hxy : d.body.Linked x y) : x = y := h.eq_of_linked (h.nameOf_arg hx) hxy

/-- What is joined with something else is no hidden declaration. -/
theorem binds_of_linked {x y : Nat} (hxy : d.body.Linked x y) (hne : x ≠ y) : first.Binds x := by
  classical
  by_contra hx
  have hsame := hxy.congr (fun id => if first.Binds id then none else some id)
    fun id i l r hi hop => by
      have hid := getElem?_ops_of_store hi
      rw [hop] at hid
      have hbinds : first.Binds id := by
        intro hlt
        rcases h.declares_of_lt hlt hid with heq | heq <;> cases heq
      obtain ⟨hl, hr⟩ := h.joined id l r hid
      simp only [if_pos hbinds, if_pos hl, if_pos hr, and_self]
  rw [if_neg hx] at hsame
  split at hsame
  · cases hsame
  · exact hne (Option.some.inj hsame)

/-- **A storage class holds at most one parameter.** -/
theorem eq_of_linked_parameter {x y n m : Nat} (hx : d.ops[x]? = some (.parameter n))
    (hy : d.ops[y]? = some (.parameter m)) (hxy : d.body.Linked x y) : x = y := by
  by_contra hne
  -- both still stand for their names, which are the same
  have hlookup : ∀ {z k : Nat}, d.ops[z]? = some (.parameter k) → first.Binds z →
      ∃ name, first.scope.lookup name = some z ∧ nameOf decls d.ops z = some name := by
    intro z k hz hbinds
    obtain ⟨⟨name, z'⟩, hmem, rfl⟩ := List.mem_map.1 (hbinds (h.parameter z k hz))
    have hlook := lookup_eq_some_of_mem h.header.scope.nodup hmem
    have hname := h.header.scope.names name z' hlook
    refine ⟨name, hlook, ?_⟩
    rw [nameOf_of_isPrefix h.ops (lt_length_of_nameOf hname), hname]
  obtain ⟨name, hlx, hnx⟩ := hlookup hx (h.binds_of_linked hxy hne)
  obtain ⟨name', hly, hny⟩ := hlookup hy
    (h.binds_of_linked ((Body.linked_equivalence _).symm hxy) (Ne.symm hne))
  have hnames := h.nameOf_eq_of_linked hxy
  rw [hnx, hny] at hnames
  obtain rfl := Option.some.inj hnames
  exact hne (Option.some.inj (hlx.symm.trans hly))

/-! ## Where arguments are live -/

/-- Between an argument and its last reader control only goes on to the next instruction. -/
theorem eq_succ_of_passes {x v n p q : Nat} (hx : d.ops[x]? = some (.arg v n))
    (hpass : d.body.Passes p q) (hlt : x < q) (hread : d.ReadFrom x q) : q = p + 1 := by
  rcases hpass with ⟨-, -, -, hq, -⟩ | ⟨op, l, -, -, hpos⟩
  · exact hq
  · -- control would go to a label, which is no argument and reads nothing
    obtain ⟨⟨op', hop', hlabel⟩, -⟩ := FlowGraph.labelPosition?_eq_some.1 hpos
    rw [d.ops_body] at hop'
    obtain rfl : op' = .label l := Op.eq_label hlabel
    obtain ⟨y, opy, hle, hy, hxy⟩ := hread
    rcases Nat.eq_or_lt_of_le hle with rfl | hqy
    · rw [hop'] at hy
      cases hy
      cases hxy
    · obtain ⟨w, m, hz, -⟩ := h.read x v n y opy hx hy hxy q hlt hqy
      rw [hop'] at hz
      cases hz

/-- An argument is live only behind where it is handed over and in front of what reads it. -/
theorem readFrom_of_liveAt {x v n p : Nat} (hx : d.ops[x]? = some (.arg v n))
    (hlive : d.body.LiveAt x p) : x < p ∧ d.ReadFrom x p := by
  induction hlive with
  | use hp ho hlink =>
    obtain ⟨rfl, hop⟩ := eq_of_getElem?_toList hp
    obtain rfl := h.eq_of_linked_arg hx ((Body.linked_equivalence _).symm hlink)
    rw [Body.readsOf] at ho
    split at ho
    · -- a join reads itself, and an argument is no join
      rename_i hunify
      obtain rfl := List.mem_singleton.1 ho
      rw [hx] at hop
      rw [← Option.some.inj hop] at hunify
      cases hunify
    · exact ⟨h.code.operands _ _ hop x ho, _, _, le_refl _, hop, ho⟩
  | @pass p q id i hp hd hq _ ih =>
    obtain ⟨rfl, hop⟩ := eq_of_getElem?_toList hp
    obtain ⟨hlt, hread⟩ := ih
    obtain rfl := h.eq_succ_of_passes hx hq hlt hread
    have hne : x ≠ id := by
      rintro rfl
      rw [hx] at hop
      refine hd ?_ (.refl _)
      rw [← Option.some.inj hop]
      rfl
    obtain ⟨y, op, hle, hy, hxy⟩ := hread
    exact ⟨by omega, y, op, by omega, hy, hxy⟩

theorem readFrom_of_liveBehind {x v n p : Nat} (hx : d.ops[x]? = some (.arg v n))
    (hlive : d.body.LiveBehind x p) : x ≤ p ∧ (x = p ∨ d.ReadFrom x (p + 1)) := by
  rcases hlive with ⟨id, i, hp, -, hlink⟩ | ⟨q, hq, hlive⟩
  · obtain rfl := h.eq_of_linked_arg hx ((Body.linked_equivalence _).symm hlink)
    obtain ⟨rfl, -⟩ := eq_of_getElem?_toList hp
    exact ⟨le_refl _, Or.inl rfl⟩
  · obtain ⟨hlt, hread⟩ := h.readFrom_of_liveAt hx hlive
    obtain rfl := h.eq_succ_of_passes hx hq hlt hread
    exact ⟨by omega, Or.inr hread⟩

/-- Until an argument has been read, no second argument with its index is handed over. -/
theorem not_readFrom {x y u v n p : Nat} (hx : d.ops[x]? = some (.arg u n))
    (hy : d.ops[y]? = some (.arg v n)) (hxy : x < y) (hyp : y < p) : ¬ d.ReadFrom x p := by
  rintro ⟨z, op, hle, hz, hxz⟩
  obtain ⟨w, m, hm, hlt⟩ := h.read x u n z op hx hz hxz y hxy (by omega)
  rw [hy] at hm
  cases hm
  exact absurd hlt (lt_irrefl n)

theorem not_together_of_lt {x y u v n : Nat} (hx : d.ops[x]? = some (.arg u n))
    (hy : d.ops[y]? = some (.arg v n)) (hxy : x < y) : ¬ d.body.Together x y := by
  rintro ⟨p, ⟨hpx, hpy⟩ | ⟨hpx, hpy⟩⟩
  · obtain ⟨-, hread⟩ := h.readFrom_of_liveAt hx hpx
    exact h.not_readFrom hx hy hxy (h.readFrom_of_liveAt hy hpy).1 hread
  · obtain ⟨-, heq | hread⟩ := h.readFrom_of_liveBehind hx hpx
    · have hle := (h.readFrom_of_liveBehind hy hpy).1
      omega
    · have hle := (h.readFrom_of_liveBehind hy hpy).1
      exact h.not_readFrom hx hy hxy (Nat.lt_succ_of_le hle) hread

/-- **Two arguments with the same index are never live together.** -/
theorem not_together_args {x y u v n : Nat} (hx : d.ops[x]? = some (.arg u n))
    (hy : d.ops[y]? = some (.arg v n)) (hne : x ≠ y) : ¬ d.body.Together x y := by
  rcases Nat.lt_or_gt_of_ne hne with hlt | hlt
  · exact h.not_together_of_lt hx hy hlt
  · intro hxy
    refine h.not_together_of_lt hy hx hlt ?_
    obtain ⟨p, hp⟩ := hxy
    exact ⟨p, hp.imp And.symm And.symm⟩

/-- The variable of a parameter is older than that of an argument. -/
theorem var_parameter_lt {s : Storage} (hs : Storage.ofBody d.body = .ok s) {x y n u m v w : Nat}
    (hx : d.ops[x]? = some (.parameter n)) (hy : d.ops[y]? = some (.arg u m))
    (hxv : s.var? x = some v) (hyw : s.var? y = some w) : v < w := by
  have hleast := Storage.least_of_ofBody d.wellFormed_body hs
  have hdesc := Storage.describes_of_ofBody h.closed hs
  have horder : ∀ {z : Nat} {op : Op}, d.ops[z]? = some op → d.body.order[z]? = some z := by
    intro z op hz
    obtain ⟨i, hi, -⟩ := d.getElem?_toList_body hz
    exact (d.wellFormed_body.getElem?_toList_eq_some.1 hi).1
  have hle := hleast.le x v x hxv (horder hx)
  -- the variable of an argument is its own position
  obtain ⟨z, hz, hzw⟩ := hleast.held y w hyw
  have hzy : d.body.Linked y z :=
    (hdesc.var?_eq_iff (hdesc.lt_size hyw) (hdesc.lt_size hzw)).1 (hyw.trans hzw.symm)
  obtain rfl := h.eq_of_linked_arg hy hzy
  have hwy : w = y := (List.getElem?_inj (List.getElem?_eq_some_iff.1 hz).1
    d.wellFormed_body.nodup).1 (hz.trans (horder hy).symm)
  have hxlt := h.parameter x n hx
  have hyle := h.arg y u m hy
  omega

end Lowered

/-! ## Methods -/

/-- The declarations of a method stand in order. -/
theorem declares_declaredDraft (m : Source.MethodDecl) (p : Nat) (op : Op)
    (h : (declaredDraft m).ops[p]? = some op) : op = .null ∨ op = .parameter p := by
  rw [declaredDraft, Draft.ops_foldl_declare] at h
  change (m.header.map (·.1))[p]? = some op at h
  rw [Source.MethodDecl.header, List.map_append, List.map_map, List.map_map,
    List.getElem?_append] at h
  split at h
  · rw [List.getElem?_map] at h
    obtain ⟨e, he, rfl⟩ := Option.map_eq_some_iff.1 h
    rw [List.getElem?_zipIdx] at he
    obtain ⟨q, -, rfl⟩ := Option.map_eq_some_iff.1 he
    exact Or.inr (congrArg Op.parameter (Nat.zero_add p))
  · rw [List.getElem?_map] at h
    obtain ⟨e, -, rfl⟩ := Option.map_eq_some_iff.1 h
    exact Or.inl rfl

theorem bare_foldl_declare {es : List (Op × Source.Decl)} {d : Draft}
    (hd : ∀ i ∈ d.code.toList, i.pin = none ∧ i.slot = none) :
    ∀ i ∈ (es.foldl Draft.declare d).code.toList, i.pin = none ∧ i.slot = none := by
  induction es generalizing d with
  | nil => exact hd
  | cons e es ih =>
    refine ih fun i hi => ?_
    rw [Draft.declare, Draft.write, Array.toList_push, List.mem_append, List.mem_singleton] at hi
    rcases hi with hi | rfl
    · exact hd i hi
    · exact ⟨rfl, rfl⟩

/-- **The code of a method.** -/
theorem exists_lowered_method {m : Source.MethodDecl} {t : Traced Code.Method}
    (h : m.lower = .ok t) : ∃ first d, t.value.body = d.body ∧ Lowered m.declared first d := by
  obtain ⟨d₁, d₂, r, h₁, h₂, hrun⟩ := exists_lowerMethod m
  rw [lower_eq hrun] at h
  cases h
  have hdeclares := declares_declaredDraft m
  have hself := orderly_self (sound_declaredDraft m) hdeclares
    (bare_foldl_declare fun _ hi => absurd hi List.not_mem_nil)
  have hc₁ := orderly_lowerStmts m.body h₁ hself
  obtain ⟨hc₂, hr⟩ := orderly_lowerExpr m.result h₂ hc₁.orderly
  have hc₃ := (hc₂.orderly.writeOrdinary (.ret r) m.result.span rfl
    fun _ ho => List.mem_singleton.1 ho ▸ hr.pending).1
  exact ⟨declaredDraft m, _, rfl, finished_of_lowerMethod h₁ h₂, hc₃.orderly,
    sound_declaredDraft m, le_of_eq (size_declaredDraft m).symm, hdeclares⟩

/-- **The code of the method that a program starts with**, which declares nothing. -/
theorem exists_lowered_main {m : Source.MainClass} {t : Traced Code.Method}
    (h : m.lower = .ok t) : ∃ first d, t.value.body = d.body ∧ Lowered [] first d := by
  obtain ⟨body, hbody, h⟩ := bind_eq_ok_iff.1 h
  cases h
  obtain ⟨⟨⟨⟩, d⟩, hd, hbody⟩ := bind_eq_ok_iff.1 hbody
  cases hbody
  have hnone : ∀ (p : Nat) (op : Op), ({} : Draft).ops[p]? = some op →
      op = .null ∨ op = .parameter p := fun p op hp => by cases hp
  have hself := orderly_self (sound_empty []) hnone fun _ hi => absurd hi List.not_mem_nil
  exact ⟨{}, d, rfl, finished_of_lowerStmt hd, (orderly_lowerStmt m.body hd hself).orderly,
    sound_empty [], Nat.zero_le _, hnone⟩

end Backend.Lowering
