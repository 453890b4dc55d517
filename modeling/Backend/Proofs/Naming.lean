/-
# Which variable a storage class belongs to

Lowering reports for which name it joins two bindings.  With these reports every instruction of a
lowered method can be asked which declared name it binds (`Binds`): it declares the name, assigns to
it, or joins two bindings of it.  Storage is shared by bindings of one name only, whatever names the
method declares and hides; everything else has storage of its own (`binds_of_shared`).
-/
import Mathlib
import Backend.Proofs.Arguments
import Backend.Proofs.Steps

namespace Backend

/-- An instruction of a lowered method binds a declared name. -/
inductive Binds (m : Source.MethodDecl) (t : Traced Code.Method) : Nat → Name → Prop
  /-- It is the declaration of a parameter or of a local variable. -/
  | declaration {i : Nat} {op : Op} {v : Source.Decl} (hv : m.header[i]? = some (op, v))
      (hop : t.value.body.ops[i]? = some op) : Binds m t i v.name
  /-- It assigns to the name. -/
  | assignment {i v : Nat} {x : Name} (hx : x ∈ m.declared)
      (hop : t.value.body.ops[i]? = some (.assignVar v x)) : Binds m t i x
  /-- It was written to join two bindings of the name. -/
  | join {i l r : Nat} {x : Name} (hx : .joined x i l r ∈ t.events)
      (hop : t.value.body.ops[i]? = some (.unify l r)) : Binds m t i x

namespace Lowering

/-! ## Reports of joins -/

/-- The events report the joins of the code, each with the name it binds, and only names of `decls`
are bound. -/
structure Recorded (decls : List Name) (ops : List Op) (events : List Event) : Prop where
  joined_iff : ∀ (x : Name) (p l r : Nat), .joined x p l r ∈ events ↔
    ops[p]? = some (.unify l r) ∧ nameOf decls ops p = some x
  declared : ∀ (p : Nat) (x : Name), nameOf decls ops p = some x → x ∈ decls

theorem Recorded.concat {decls : List Name} {ops : List Op} {events : List Event}
    (h : Recorded decls ops events) {op : Op} {more : List Event}
    (hmore : ∀ (x : Name) (p l r : Nat), .joined x p l r ∈ more ↔
      p = ops.length ∧ op = .unify l r ∧ nextName decls (boundNames decls ops) op = some x)
    (hname : ∀ x, nextName decls (boundNames decls ops) op = some x → x ∈ decls) :
    Recorded decls (ops ++ [op]) (events ++ more) := by
  constructor
  · intro x p l r
    rw [List.mem_append, h.joined_iff, hmore]
    rcases Nat.lt_trichotomy p ops.length with hlt | rfl | hgt
    · rw [List.getElem?_append_left hlt, nameOf_append _ _ _ hlt]
      exact or_iff_left fun hp => absurd hp.1 (ne_of_lt hlt)
    · rw [List.getElem?_concat_length, nameOf_concat_self, List.getElem?_eq_none (le_refl _)]
      simp
    · have hlen : (ops ++ [op]).length ≤ p := by
        rw [List.length_append, List.length_singleton]
        exact hgt
      rw [List.getElem?_eq_none (le_of_lt hgt), List.getElem?_eq_none hlen]
      simp [ne_of_gt hgt]
  · intro p x hx
    have hlt := lt_length_of_nameOf hx
    rw [List.length_append, List.length_singleton] at hlt
    rcases Nat.lt_succ_iff_lt_or_eq.1 hlt with hlt | rfl
    · rw [nameOf_append _ _ _ hlt] at hx
      exact h.declared p x hx
    · rw [nameOf_concat_self] at hx
      exact hname x hx

/-- Writing something other than a join reports nothing. -/
theorem Recorded.write {decls : List Name} {d : Draft} (h : Recorded decls d.ops d.events) (op : Op)
    (span : Span) (hop : ∀ l r, op ≠ .unify l r)
    (hname : ∀ x, nextName decls (boundNames decls d.ops) op = some x → x ∈ decls) :
    Recorded decls (d.write op span).ops (d.write op span).events := by
  rw [Draft.ops_write, ← List.append_nil (d.write op span).events]
  refine h.concat (fun x p l r => ?_) hname
  exact iff_of_false List.not_mem_nil fun hp => hop l r hp.2.1

/-- An operation that binds no name of its own binds that of the declaration it stands for. -/
theorem mem_of_nextName {decls : List Name} {names : List (Option Name)} {op : Op} {x : Name}
    (hassign : ∀ v y, op ≠ .assignVar v y) (hunify : ∀ l r, op ≠ .unify l r)
    (hx : nextName decls names op = some x) : x ∈ decls := by
  cases op with
  | assignVar v y => exact absurd rfl (hassign v y)
  | unify l r => exact absurd rfl (hunify l r)
  | _ => exact List.mem_of_getElem? hx

section

variable {decls : List Name} {d d' : Draft}

/-- **Step lemma.**  Every step keeps the reports complete. -/
theorem Draft.Step.recorded (h : d.Step decls d') (hd : d.Based decls)
    (hr : Recorded decls d.ops d.events) : Recorded decls d'.ops d'.events := by
  cases h with
  | write op span hop _ =>
    have hassign : ∀ v y, op ≠ .assignVar v y := by
      rintro v y rfl
      cases hop
    have hunify : ∀ l r, op ≠ .unify l r := by
      rintro l r rfl
      cases hop
    exact hr.write op span hunify fun x hx => mem_of_nextName hassign hunify hx
  | assign v x span _ hx =>
    refine hr.write (.assignVar v x) span (fun _ _ => nofun) fun y hy => ?_
    obtain rfl : x = y := Option.some.inj hy
    obtain ⟨i, hi⟩ := Option.isSome_iff_exists.1 hx
    exact hr.declared i x (hd.scope.names x i hi)
  | draw | rebind _ _ => exact hr
  | join j span hl _ _ _ =>
    show Recorded decls (d.write (.unify j.left j.right) span).ops
      (d.events ++ [.joined j.name d.code.size j.left j.right])
    have hname : nextName decls (boundNames decls d.ops) (.unify j.left j.right) = some j.name := hl
    rw [Draft.ops_write, ← d.length_ops]
    apply hr.concat
    · intro x p l r
      rw [hname, List.mem_singleton]
      constructor
      · intro h
        cases h
        exact ⟨rfl, rfl, rfl⟩
      · rintro ⟨rfl, hop, hx⟩
        cases hop
        rw [Option.some.inj hx]
    · intro x hx
      rw [hname] at hx
      rw [← Option.some.inj hx]
      exact hr.declared j.left j.name hl

theorem Draft.Steps.recorded (h : d.Steps decls d') (hd : d.Based decls)
    (hr : Recorded decls d.ops d.events) : Recorded decls d'.ops d'.events :=
  h.keeps_of_based (P := fun e => Recorded decls e.ops e.events) hd hr
    fun _ _ he hr step => step.recorded he hr

end

theorem events_foldl_declare (es : List (Op × Source.Decl)) (d : Draft) :
    (es.foldl Draft.declare d).events = d.events := by
  induction es generalizing d with
  | nil => rfl
  | cons e es ih => exact ih (d.declare e)

theorem recorded_declaredDraft (m : Source.MethodDecl) :
    Recorded m.declared (declaredDraft m).ops (declaredDraft m).events := by
  constructor
  · intro x p l r
    rw [declaredDraft, events_foldl_declare]
    refine iff_of_false List.not_mem_nil fun hp => ?_
    have := (initial_of_mem_declaredDraft (List.mem_of_getElem? hp.1)).primitive.1
    cases this
  · intro p x hx
    have hop := List.getElem?_eq_getElem (lt_length_of_nameOf hx)
    rw [(initial_of_mem_declaredDraft (List.mem_of_getElem? hop)).nameOf_eq m.declared hop] at hx
    exact List.mem_of_getElem? hx

/-! ## Bindings -/

/-- **What an instruction of a lowered method binds** is the name that its code gives it. -/
theorem binds_iff {m : Source.MethodDecl} {d : Draft} {t : Traced Code.Method}
    (hbody : t.value.body = d.body) (hevents : t.events = d.events)
    (hops : (declaredDraft m).ops <+: d.ops) (hr : Recorded m.declared d.ops d.events) (i : Nat)
    (x : Name) : Binds m t i x ↔ nameOf m.declared d.ops i = some x := by
  have hsame : t.value.body.ops = d.ops := by rw [hbody, d.ops_body]
  constructor
  · rintro (⟨hv, hop⟩ | ⟨hx, hop⟩ | ⟨hx, hop⟩)
    · rw [hsame] at hop
      rw [(initial_of_mem_header (List.mem_of_getElem? hv)).nameOf_eq m.declared hop,
        Source.MethodDecl.declared, List.getElem?_map, hv]
      rfl
    · rw [hsame] at hop
      rw [nameOf_eq_nextName m.declared hop]
      rfl
    · rw [hevents] at hx
      exact ((hr.joined_iff x i _ _).1 hx).2
  · intro hx
    have hheaded := (based_declaredDraft m).headed.mono hops
    rcases hheaded.cases_nameOf hx with ⟨op, hop, -, hdecl⟩ | ⟨v, hop⟩ | ⟨l, r, hop⟩
    · rw [Source.MethodDecl.declared, List.getElem?_map] at hdecl
      obtain ⟨e, he, rfl⟩ := Option.map_eq_some_iff.1 hdecl
      have hhead : (declaredDraft m).ops[i]? = some e.1 := by
        rw [ops_declaredDraft, List.getElem?_map, he]
        rfl
      exact .declaration he (hsame ▸ getElem?_of_isPrefix hops hhead)
    · exact .assignment (hr.declared i x hx) (hsame ▸ hop)
    · exact .join (hevents ▸ (hr.joined_iff x i l r).2 ⟨hop, hx⟩) (hsame ▸ hop)

/-- Every method is lowered to finished code that binds declared names. -/
theorem exists_binds_iff (m : Source.MethodDecl) :
    ∃ (t : _) (d : Draft), m.lower = .ok t ∧ t.value.body = d.body ∧ d.Finished m.declared ∧
      (∀ i x, nameOf m.declared d.ops i = some x → x ∈ m.declared) ∧
      ∀ i x, Binds m t i x ↔ nameOf m.declared d.ops i = some x := by
  obtain ⟨d, r, hsteps, -, hfin, hlower⟩ := exists_steps_method m
  have hbefore := hsteps.recorded (based_declaredDraft m) (recorded_declaredDraft m)
  have hr := hbefore.write (.ret r) m.result.span (fun _ _ => nofun) fun x hx =>
    List.mem_of_getElem? hx
  have hops := hsteps.ops.trans (d.prefix_write (.ret r) m.result.span)
  exact ⟨_, _, hlower, rfl, hfin, hr.declared, binds_iff rfl rfl hops hr⟩

end Lowering

/-- **Variables of the source never share storage.**  For every method: two instructions in one
storage class bind the same declared name, an instruction binds no second name, an instruction that
binds no name is alone in its class, and no class holds two parameters. -/
theorem binds_of_shared (m : Source.MethodDecl) :
    ∃ t s, m.lower = .ok t ∧ Storage.ofBody t.value.body = .ok s ∧
      (∀ i j, i < t.value.body.store.size → j < t.value.body.store.size → s.var? i = s.var? j →
        i ≠ j → ∃ x ∈ m.declared, Binds m t i x ∧ Binds m t j x) ∧
      (∀ i x y, Binds m t i x → Binds m t i y → x = y) ∧
      (∀ i j, i < t.value.body.store.size → j < t.value.body.store.size → s.var? i = s.var? j →
        (∀ x, ¬ Binds m t i x) → i = j) ∧
      (∀ i j n n', t.value.body.ops[i]? = some (.parameter n) →
        t.value.body.ops[j]? = some (.parameter n') → s.var? i = s.var? j → i = j) := by
  obtain ⟨t, d, hlower, hbody, hfin, hdecl, hiff⟩ := Lowering.exists_binds_iff m
  obtain ⟨s, hs, hdesc⟩ := hfin.closed.exists_storage
  rw [← hbody] at hs hdesc
  -- two instructions in one class are tied together by joins, so that they bind the same
  have hshared : ∀ i j, i < t.value.body.store.size → j < t.value.body.store.size →
      s.var? i = s.var? j → i ≠ j → ∃ x ∈ m.declared, Binds m t i x ∧ Binds m t j x := by
    intro i j hi hj hij hne
    have hlink := (hdesc.var?_eq_iff hi hj).1 hij
    rw [hbody] at hlink
    cases hx : Lowering.nameOf m.declared d.ops i with
    | none => exact absurd (hfin.eq_of_linked hx hlink) hne
    | some x =>
      have hy := hfin.nameOf_eq_of_linked hlink
      rw [hx] at hy
      exact ⟨x, hdecl i x hx, (hiff i x).2 hx, (hiff j x).2 hy.symm⟩
  refine ⟨t, s, hlower, hs, hshared, fun i x y hx hy => ?_, fun i j hi hj hij hnone => ?_,
    fun i j n n' hi hj hij => ?_⟩
  · rw [hiff] at hx hy
    exact Option.some.inj (hx.symm.trans hy)
  · by_contra hne
    obtain ⟨x, -, hx, -⟩ := hshared i j hi hj hij hne
    exact hnone x hx
  · obtain ⟨first, d', hbody', hd'⟩ := Lowering.exists_lowered_method hlower
    rw [hbody'] at hi hj hdesc
    rw [d'.ops_body] at hi hj
    have hlt : ∀ {p k : Nat}, d'.ops[p]? = some (.parameter k) → p < d'.body.store.size := by
      intro p k hp
      show p < d'.code.size
      rw [← d'.length_ops]
      exact (List.getElem?_eq_some_iff.1 hp).1
    exact hd'.eq_of_linked_parameter hi hj ((hdesc.var?_eq_iff (hlt hi) (hlt hj)).1 hij)

/-- The method `if (y) x = y = 1;` with a local variable `y` and two parameters `x`, of which the
second hides the first. -/
def hidingMethod : Source.MethodDecl where
  name := "hide"
  params := [{ name := "x" }, { name := "x" }]
  locals := [{ name := "y" }]
  body := [.ifThen (.var "y" {}) (.expr (.assign (.var "x" {})
    (.assign (.var "y" {}) (.int 1 {}) {}) {}) {}) {}]
  result := .var "y" {}

/-- Behind the conditional, the second parameter shares its storage with the join of `x`, and the
local variable with the join of `y`. -/
theorem binds_hiding :
    ∃ t s, hidingMethod.lower = .ok t ∧ Storage.ofBody t.value.body = .ok s ∧
      s.var? 1 ≠ s.var? 2 ∧
      (s.var? 1 = s.var? 11 ∧
        ∃ x ∈ hidingMethod.declared, Binds hidingMethod t 1 x ∧ Binds hidingMethod t 11 x) ∧
      (s.var? 2 = s.var? 10 ∧
        ∃ y ∈ hidingMethod.declared, Binds hidingMethod t 2 y ∧ Binds hidingMethod t 10 y) := by
  obtain ⟨t, ht, hrun⟩ : ∃ t, hidingMethod.lower = .ok t ∧
      ((Storage.ofBody t.value.body).toOption.any fun s => decide (t.value.body.store.size = 13 ∧
        s.var? 1 = s.var? 11 ∧ s.var? 2 = s.var? 10 ∧ s.var? 1 ≠ s.var? 2)) = true :=
    exists_ok_of_any (by decide +kernel)
  obtain ⟨s, hs, hvars⟩ := exists_ok_of_any hrun
  obtain ⟨hsize, hx, hy, hxy⟩ := of_decide_eq_true hvars
  obtain ⟨t', s', ht', hs', hshared, -⟩ := binds_of_shared hidingMethod
  obtain rfl : t = t' := Except.ok.inj (ht.symm.trans ht')
  obtain rfl : s = s' := Except.ok.inj (hs.symm.trans hs')
  rw [hsize] at hshared
  exact ⟨t, s, ht, hs, hxy, ⟨hx, hshared 1 11 (by decide) (by decide) hx (by decide)⟩,
    hy, hshared 2 10 (by decide) (by decide) hy (by decide)⟩

end Backend
