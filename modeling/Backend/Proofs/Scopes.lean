/-
# Bindings while code is lowered

In every scope that lowering passes through, distinct names stand for distinct instructions
(`Unambiguous`), and all scopes of a method bind its declared names (`Traverses.exists_grows`).  So
no two joins at one place have the same left side, and sorting by left sides leaves no freedom: the
joins do not depend on the order in which the bindings are listed (`Scope.joins_perm`).

Code can also be written strand by strand: a side path is a strand of its own, which takes its
instructions from the common store and is spliced into the strand it left.  With any listing of the
bindings at each join, this writes the same code and leaves the same bindings as writing all
instructions in one sequence (`follows_lowerStmtOn`, `independent_of_listing`).
-/
import Mathlib
import Backend.Proofs.Loops
import Backend.Proofs.Evaluation

namespace Backend.Lowering

open Source (Expr Stmt MethodDecl MainClass)

/-! ## Unambiguous scopes -/

/-- A scope that binds each name once, and distinct names to distinct instructions. -/
structure Unambiguous (scope : Scope) : Prop where
  names : (scope.map (·.1)).Nodup
  ids : (scope.map (·.2)).Nodup

/-- Distinct names stand for distinct instructions, since an instruction binds one name. -/
theorem ScopeSound.unambiguous {decls : List Name} {ops : List Op} {scope : Scope}
    (h : ScopeSound decls ops scope) : Unambiguous scope := by
  refine ⟨h.nodup, List.Nodup.map_on ?_ (List.Nodup.of_map _ h.nodup)⟩
  rintro ⟨x, i⟩ hx ⟨y, j⟩ hy (rfl : i = j)
  have hnx := h.names x i (lookup_eq_some_of_mem h.nodup hx)
  have hny := h.names y i (lookup_eq_some_of_mem h.nodup hy)
  rw [Option.some.inj (hnx.symm.trans hny)]

/-- Another order of the bindings is as unambiguous. -/
theorem Unambiguous.perm {scope scope' : Scope} (h : Unambiguous scope) (hp : scope'.Perm scope) :
    Unambiguous scope' :=
  ⟨(hp.map _).nodup_iff.2 h.names, (hp.map _).nodup_iff.2 h.ids⟩

theorem Join.pairwise_insert {j : Join} {js : List Join}
    (h : js.Pairwise fun a b => a.left ≤ b.left) :
    (Join.insert j js).Pairwise fun a b => a.left ≤ b.left := by
  induction js with
  | nil => exact List.pairwise_singleton _ j
  | cons k ks ih =>
    obtain ⟨hk, hks⟩ := List.pairwise_cons.1 h
    rw [Join.insert]
    split
    · rename_i hle
      refine List.pairwise_cons.2 ⟨fun a ha => ?_, h⟩
      rcases List.mem_cons.1 ha with rfl | ha
      · exact hle
      · exact le_trans hle (hk a ha)
    · rename_i hlt
      refine List.pairwise_cons.2 ⟨fun a ha => ?_, ih hks⟩
      rcases List.mem_cons.1 ((Join.insert_perm j ks).mem_iff.1 ha) with rfl | ha
      · exact le_of_lt (not_le.1 hlt)
      · exact hk a ha

/-- Sorted joins are in the order of what they join on our side. -/
theorem Join.pairwise_sort (js : List Join) :
    (Join.sort js).Pairwise fun a b => a.left ≤ b.left := by
  induction js with
  | nil => exact List.Pairwise.nil
  | cons j js ih => exact Join.pairwise_insert ih

/-- **The joins do not depend on the order of the bindings.** -/
theorem Scope.joins_perm {ours ours' : Scope} (h : Unambiguous ours) (hp : ours'.Perm ours)
    (theirs : Scope) : ours'.joins theirs = ours.joins theirs := by
  have hperm : (ours'.joins theirs).Perm (ours.joins theirs) :=
    (Join.sort_perm _).trans ((hp.filterMap _).trans (Join.sort_perm _).symm)
  refine List.Perm.eq_of_pairwise ?_ (Join.pairwise_sort _) (Join.pairwise_sort _) hperm
  rintro ⟨x, l, r⟩ ⟨y, l', r'⟩ hj hj' hle hle'
  obtain rfl : l = l' := le_antisymm hle hle'
  obtain ⟨hl, hr, -⟩ := (mem_joins (h.perm hp).names).1 hj
  obtain ⟨hl', hr', -⟩ := (mem_joins h.names).1 hj'
  -- one left side belongs to one name
  have hx := hp.mem_iff.1 (mem_of_lookup_eq_some hl)
  obtain ⟨rfl, -⟩ := Prod.mk.inj (List.inj_on_of_nodup_map h.ids hx (mem_of_lookup_eq_some hl') rfl)
  obtain rfl : r = r' := Option.some.inj (hr.symm.trans hr')
  rfl

/-! ## The drafts that lowering passes through -/

/-- The expression that a statement begins with, and the draft in which it is begun. -/
def headOf : Stmt → Draft → Option (Expr × Draft)
  | .expr value _, d | .print value _, d | .ite value _ _ _, d => some (value, d)
  | .loop cond _ span, d => some (cond, d.beginLoop span)
  | .block _ _, _ => none

/-- Lowering an expression from draft `d` passes through draft `x`, where one of its parts begins or
ends. -/
def Evaluating (receiver : Bool) (v : Expr) (d x : Draft) : Prop :=
  ∃ g d₀, Within receiver v d g d₀ ∧ (x = d₀ ∨ ∃ i, lowerExpr receiver g d₀ = .ok (i, x))

/-- Lowering statement `s` from draft `d` passes through a draft: where a statement begins or ends,
where a part of an expression begins or ends, or behind the first joins of a conditional or a loop.
No other step changes the scope.  Nothing is said about what comes later, which may fail. -/
inductive Traverses (receiver : Bool) (s : Stmt) (d : Draft) : Draft → Prop
  | begun {t : Stmt} {e : Draft} (hv : Visits receiver s d t e) : Traverses receiver s d e
  | ended {t : Stmt} {e x : Draft} (hv : Visits receiver s d t e)
      (h : lowerStmt receiver t e = .ok ((), x)) : Traverses receiver s d x
  | evaluating {t : Stmt} {v : Expr} {e e' x : Draft} (hv : Visits receiver s d t e)
      (hhead : headOf t e = some (v, e')) (h : Evaluating receiver v e' x) :
      Traverses receiver s d x
  | joiningBranches {cond : Expr} {t u : Stmt} {span : Span} {e d₁ d₂ d₃ : Draft} {c : Nat}
      (n : Nat) (hv : Visits receiver s d (.ite cond t u span) e)
      (hcond : lowerExpr receiver cond e = .ok (c, d₁))
      (ht : lowerStmt receiver t (d₁.beginThen c span) = .ok ((), d₂))
      (hu : lowerStmt receiver u (d₂.beginElse d₁.labels.next d₁.scope span) = .ok ((), d₃)) :
      Traverses receiver s d (((d₂.scope.joins d₃.scope).take n).foldl (Draft.join span)
        (d₃.endIte d₁.labels.next d₂.scope span))
  | joiningLoop {cond : Expr} {t : Stmt} {span : Span} {e d₁ d₂ : Draft} {c : Nat} (n : Nat)
      (hv : Visits receiver s d (.loop cond t span) e)
      (hcond : lowerExpr receiver cond (e.beginLoop span) = .ok (c, d₁))
      (ht : lowerStmt receiver t (d₁.beginBody e.labels.next c span) = .ok ((), d₂)) :
      Traverses receiver s d (((d₁.scope.joins d₂.scope).take n).foldl (Draft.join span)
        (d₂.endLoop e.labels.next d₁.scope span))

/-- Lowering a method passes through a draft behind its declarations. -/
inductive TraversedIn (m : MethodDecl) : Draft → Prop
  | body {x : Draft} (h : Traverses true (.block m.body {}) (declaredDraft m) x) : TraversedIn m x
  | result {d x : Draft} (hbody : lowerStmts true m.body (declaredDraft m) = .ok ((), d))
      (h : Evaluating true m.result d x) : TraversedIn m x

section

variable {receiver : Bool} {decls : List Name} {d : Draft}

/-- On the way to an expression in another one the draft grows. -/
theorem Within.grows {e g : Expr} {d₀ : Draft} (hw : Within receiver e d g d₀)
    (hd : d.Sound decls) : d.Grows decls d₀ [] := by
  induction hw with
  | here e d => exact .refl hd
  | part _ hpre _ ih =>
    have hg := (grows_lowerExprs _ hpre hd).1
    exact hg.trans (ih hg.sound)

/-- While an expression is being lowered the draft grows. -/
theorem Evaluating.grows {v : Expr} {x : Draft} (h : Evaluating receiver v d x)
    (hd : d.Sound decls) : d.Grows decls x [] := by
  obtain ⟨g, d₀, hw, rfl | ⟨i, hg⟩⟩ := h
  · exact hw.grows hd
  · exact (hw.grows hd).trans (grows_lowerExpr g hg (hw.grows hd).sound).1

/-- A draft has grown where a statement is begun. -/
theorem Visits.exists_grows {s t : Stmt} {e : Draft} (hv : Visits receiver s d t e)
    (hd : d.Sound decls) : ∃ own, d.Grows decls e own := by
  induction hv with
  | here s d => exact ⟨[], .refl hd⟩
  | head _ ih => exact ih hd
  | @tail s _ _ _ _ _ _ hs _ ih =>
    have hg := grows_lowerStmt s hs hd
    obtain ⟨own, hg'⟩ := ih hg.sound
    exact ⟨_, hg.trans hg'⟩
  | @thenBranch cond _ _ _ span _ _ _ _ hcond _ ih =>
    obtain ⟨hg, hc⟩ := grows_lowerExpr cond hcond hd
    have hbegin := hg.sound.grows_beginThen hc span
    obtain ⟨own, hg'⟩ := ih hbegin.sound
    exact ⟨_, (hg.trans hbegin).trans hg'⟩
  | @elseBranch cond s _ _ span _ _ _ _ _ hcond hs _ ih =>
    -- of the second branch nothing has been written yet
    have hg := IteGrows.of_branches (grows_lowerExpr cond hcond hd) span
      (grows_lowerStmt s hs) .refl
    obtain ⟨own, hg'⟩ := ih hg.beginElse.sound
    exact ⟨_, (((hg.cond.trans hg.beginThen).trans hg.thenBranch).trans hg.beginElse).trans hg'⟩
  | @body cond _ _ span _ _ _ _ hcond _ ih =>
    have hg := LoopGrows.of_parts hd span (grows_lowerExpr cond hcond) .refl
    obtain ⟨own, hg'⟩ := ih hg.beginBody.sound
    exact ⟨_, ((hg.beginLoop.trans hg.cond).trans hg.beginBody).trans hg'⟩

theorem exists_grows_of_headOf {t : Stmt} {v : Expr} {e' : Draft} (h : headOf t d = some (v, e'))
    (hd : d.Sound decls) : ∃ own, d.Grows decls e' own := by
  cases t with
  | block _ _ => cases h
  | loop _ _ span =>
    cases h
    exact ⟨_, hd.grows_beginLoop span⟩
  | ite _ _ _ _ | print _ _ | expr _ _ =>
    cases h
    exact ⟨[], .refl hd⟩

/-- **Every draft that lowering passes through has grown from the first one**, so it is sound and
binds the same names. -/
theorem Traverses.exists_grows {s : Stmt} {x : Draft} (h : Traverses receiver s d x)
    (hd : d.Sound decls) : ∃ own, d.Grows decls x own := by
  cases h with
  | begun hv => exact hv.exists_grows hd
  | @ended t _ _ hv h =>
    obtain ⟨own, hg⟩ := hv.exists_grows hd
    exact ⟨_, hg.trans (grows_lowerStmt t h hg.sound)⟩
  | evaluating hv hhead h =>
    obtain ⟨own, hg⟩ := hv.exists_grows hd
    obtain ⟨own', hg'⟩ := exists_grows_of_headOf hhead hg.sound
    exact ⟨_, (hg.trans hg').trans (h.grows hg'.sound)⟩
  | @joiningBranches cond t u span _ d₁ d₂ d₃ c n hv hcond ht hu =>
    obtain ⟨own, hg⟩ := hv.exists_grows hd
    have hi := IteGrows.of_branches (grows_lowerExpr cond hcond hg.sound) span
      (grows_lowerStmt t ht) (grows_lowerStmt u hu)
    have hjoin := hi.endIte.sound.grows_of_subset_joins
      (hi.elseBranch.sound.scope.mono hi.endIte.ops) span (List.take_subset n _)
    exact ⟨_, ((((((hg.trans hi.cond).trans hi.beginThen).trans hi.thenBranch).trans
      hi.beginElse).trans hi.elseBranch).trans hi.endIte).trans hjoin⟩
  | @joiningLoop cond t span _ d₁ d₂ c n hv hcond ht =>
    obtain ⟨own, hg⟩ := hv.exists_grows hd
    have hl := LoopGrows.of_parts hg.sound span (grows_lowerExpr cond hcond) (grows_lowerStmt t ht)
    have hjoin := hl.endLoop.sound.grows_of_subset_joins
      (hl.body.sound.scope.mono hl.endLoop.ops) span (List.take_subset n _)
    exact ⟨_, (((((hg.trans hl.beginLoop).trans hl.cond).trans hl.beginBody).trans hl.body).trans
      hl.endLoop).trans hjoin⟩

/-- While a method is being lowered the draft grows. -/
theorem TraversedIn.exists_grows {m : MethodDecl} {x : Draft} (h : TraversedIn m x) :
    ∃ own, (declaredDraft m).Grows m.declared x own := by
  cases h with
  | body h => exact h.exists_grows (sound_declaredDraft m)
  | result hbody h =>
    have hg := grows_lowerStmts m.body hbody (sound_declaredDraft m)
    exact ⟨_, hg.trans (h.grows hg.sound)⟩

end

/-- Among the declarations of a method, too, the scopes are unambiguous. -/
theorem unambiguous_declaring (m : MethodDecl) (n : Nat) :
    Unambiguous ((m.header.take n).foldl Draft.declare {}).scope :=
  ((sound_empty ((m.header.take n).map (·.2.name))).foldl_declare
    (fun _ he => initial_of_mem_header (List.mem_of_mem_take he)) rfl).scope.unambiguous

/-! ## Writing code strand by strand -/

/-- A strand of code: the draft that all strands write to, with the bindings at the end of this one,
and the numbers of its own instructions in the order in which they are executed. -/
structure Strand where
  draft : Draft := {}
  code : List Nat := []

/-- A computation that adds to a strand, or fails. -/
abbrev Weave := StateT Strand (Except Fault)

/-- The strand with the instructions by which draft `d` is longer. -/
def Strand.extend (p : Strand) (d : Draft) : Strand :=
  ⟨d, p.code ++ List.range' p.draft.code.size (d.code.size - p.draft.code.size)⟩

/-- Write straight code at the end of a strand. -/
def along {α : Type} (x : Lower α) : Weave α := fun p => do
  let (a, d) ← x p.draft
  return (a, p.extend d)

/-- Write the code of a side path, which begins with the bindings `scope`, on a strand of its own
and splice it in.  The bindings of the strand it left stay; the result is those of the side path. -/
def aside (scope : Scope) (x : Weave Unit) : Weave Scope := fun p => do
  let ((), q) ← x ⟨{ p.draft with scope }, []⟩
  return (q.draft.scope, ⟨{ q.draft with scope := p.draft.scope }, p.code ++ q.code⟩)

/-- An order in which the bindings of a scope are listed.  It may depend on all that has been
written, so it can be another one at each join. -/
def Listing (order : Draft → Scope) : Prop := ∀ d, (order d).Perm d.scope

/-- Join the current bindings, in the order in which they are listed, with those at the end of
another path. -/
def joinOn (order : Draft → Scope) (other : Scope) (span : Span) : Lower Unit := fun d =>
  ((order d).joins other).forM (emitJoin span) d

section

variable (order : Draft → Scope) (receiver : Bool)

mutual

/-- Write the code of a statement on a strand. -/
def lowerStmtOn : Stmt → Weave Unit
  | .block body _ => lowerStmtsOn body
  | .ite cond thenBranch elseBranch span => do
    let cond ← along (lowerExpr receiver cond)
    let n ← along freshLabel
    let _ ← along (emit (.branchNot cond (.ifElse n)) span)
    let before ← along currentScope
    lowerStmtOn thenBranch
    let _ ← along (emit (.goto (.ifDone n)) span)
    let _ ← along (emit (.label (.ifElse n)) span)
    let theirs ← aside before (lowerStmtOn elseBranch)
    let _ ← along (emit (.label (.ifDone n)) span)
    along (joinOn order theirs span)
  | .loop cond body span => do
    let n ← along freshLabel
    let _ ← along (emit (.label (.whileCond n)) span)
    let cond ← along (lowerExpr receiver cond)
    let _ ← along (emit (.branchNot cond (.whileEnd n)) span)
    let before ← along currentScope
    let theirs ← aside before (lowerStmtOn body)
    let _ ← along (emit (.goto (.whileCond n)) span)
    let _ ← along (emit (.label (.whileEnd n)) span)
    along (joinOn order theirs span)
  | .print value span => do
    let value ← along (lowerExpr receiver value)
    let _ ← along (emit (.print value) span)
  | .expr value _ => do
    let _ ← along (lowerExpr receiver value)

/-- Write the code of several statements on a strand. -/
def lowerStmtsOn : List Stmt → Weave Unit
  | [] => pure ()
  | s :: ss => do
    lowerStmtOn s
    lowerStmtsOn ss

end

end

/-- Write the code of a method on a strand. -/
def lowerMethodOn (order : Draft → Scope) (m : MethodDecl) : Weave Unit := do
  along (declareParams 0 m.params)
  along (declareLocals m.locals)
  lowerStmtsOn order true m.body
  let result ← along (lowerExpr true m.result)
  let _ ← along (emit (.ret result) m.result.span)

/-- The body of a strand: the common store, in the order of the strand. -/
def Strand.body (p : Strand) : Body := ⟨p.draft.code, p.code⟩

/-- The code that a computation writes on an empty strand. -/
def woven (code : Weave Unit) : Except Fault (Traced Body) := do
  let ((), p) ← code {}
  return ⟨p.body, p.draft.events⟩

/-- What a side path is for code that is written in one sequence: begin with other bindings and go
back to ours. -/
def sideways (scope : Scope) (y : Lower Unit) : Lower Scope := fun d =>
  (y { d with scope }).map fun r => (r.2.scope, { r.2 with scope := d.scope })

/-- What a side path does. -/
theorem sideways_eq_ok {scope theirs : Scope} {y : Lower Unit} {d d' : Draft}
    (h : sideways scope y d = .ok (theirs, d')) :
    ∃ d₁, y { d with scope } = .ok ((), d₁) ∧ theirs = d₁.scope ∧
      d' = { d₁ with scope := d.scope } := by
  rw [sideways] at h
  cases hy : y { d with scope } with
  | error fault =>
    rw [hy] at h
    cases h
  | ok r =>
    rw [hy] at h
    cases h
    exact ⟨r.2, rfl, rfl, rfl⟩

theorem sideways_bind {β : Type} (scope : Scope) (y : Lower Unit) (g : Scope → Lower β)
    (d : Draft) :
    (currentScope >>= fun ours => setScope scope >>= fun _ => y >>= fun _ =>
      currentScope >>= fun theirs => setScope ours >>= fun _ => g theirs) d =
    (sideways scope y >>= g) d := by
  show (y { d with scope }).bind _ = (Except.map _ (y { d with scope })).bind _
  cases y { d with scope } <;> rfl

theorem currentScope_sideways_bind {β : Type} (y : Lower Unit) (g : Scope → Lower β) (d : Draft) :
    (currentScope >>= fun ours => y >>= fun _ =>
      currentScope >>= fun theirs => setScope ours >>= fun _ => g theirs) d =
    (currentScope >>= fun before => sideways before y >>= g) d :=
  sideways_bind d.scope y g d

/-- Writing on strand `p` does what writing in one sequence does to its draft, which only gets
longer, and puts the new instructions at the end of the strand in the order of their numbers. -/
structure Follows {α : Type} (x : Weave α) (y : Lower α) (p : Strand) : Prop where
  eq : x p = (y p.draft).map fun r => (r.1, p.extend r.2)
  size_le : ∀ a d, y p.draft = .ok (a, d) → p.draft.code.size ≤ d.code.size

theorem Strand.extend_self (p : Strand) : p.extend p.draft = p := by
  rw [extend, Nat.sub_self, List.range'_zero, List.append_nil]

/-- Straight code may be written in parts. -/
theorem Strand.extend_extend {p : Strand} {d d' : Draft} (h : p.draft.code.size ≤ d.code.size)
    (h' : d.code.size ≤ d'.code.size) : (p.extend d).extend d' = p.extend d' := by
  obtain ⟨k, hk⟩ := Nat.exists_eq_add_of_le h
  obtain ⟨l, hl⟩ := Nat.exists_eq_add_of_le h'
  have hk' : d.code.size - p.draft.code.size = k := by omega
  have hl' : d'.code.size - d.code.size = l := by omega
  have hkl : d'.code.size - p.draft.code.size = k + l := by omega
  rw [extend, extend, extend, hk', hkl, List.append_assoc]
  show (⟨d', p.code ++ (_ ++ List.range' d.code.size (d'.code.size - d.code.size))⟩ : Strand) = _
  rw [hl', hk, List.range'_append_1]

namespace Follows

variable {α β : Type} {p : Strand}

theorem pure (a : α) : Follows (pure a) (pure a) p := by
  refine ⟨congrArg (fun q => Except.ok (a, q)) p.extend_self.symm, fun _ _ h => ?_⟩
  cases h
  exact le_refl _

/-- Straight code, if it does the same to the draft. -/
theorem along {x y : Lower α} (hxy : x p.draft = y p.draft)
    (hle : ∀ a d, y p.draft = .ok (a, d) → p.draft.code.size ≤ d.code.size) :
    Follows (along x) y p := by
  refine ⟨?_, hle⟩
  show (x p.draft >>= _) = _
  rw [hxy]
  cases y p.draft <;> rfl

/-- One step after the other. -/
theorem bind {x : Weave α} {y : Lower α} {f : α → Weave β} {g : α → Lower β}
    (hx : Follows x y p)
    (hf : ∀ a d, y p.draft = .ok (a, d) → Follows (f a) (g a) (p.extend d)) :
    Follows (x >>= f) (y >>= g) p := by
  cases hy : y p.draft with
  | error fault =>
    have hxp : x p = .error fault := by rw [hx.eq, hy]; rfl
    have hgy : (y >>= g) p.draft = .error fault := by rw [bind_apply, hy]; rfl
    refine ⟨?_, fun a d h => by rw [hgy] at h; cases h⟩
    rw [hgy]
    show (x p >>= _) = _
    rw [hxp]
    rfl
  | ok r =>
    obtain ⟨a, d⟩ := r
    have hle := hx.size_le a d hy
    have hxp : x p = .ok (a, p.extend d) := by rw [hx.eq, hy]; rfl
    have hgy : (y >>= g) p.draft = g a d := by rw [bind_apply, hy]; rfl
    have hstep := hf a d hy
    refine ⟨?_, fun c d' h => le_trans hle (hstep.size_le c d' (hgy ▸ h))⟩
    have hrun : (x >>= f) p = f a (p.extend d) := by
      show (x p >>= _) = _
      rw [hxp]
      rfl
    rw [hrun, hgy, hstep.eq]
    cases hga : g a d with
    | error fault => exact congrArg _ hga
    | ok r =>
      obtain ⟨c, d'⟩ := r
      have hle' := hstep.size_le c d' hga
      show (g a d).map _ = _
      rw [hga]
      exact congrArg (fun q => Except.ok (c, q)) (Strand.extend_extend hle hle')

theorem emit_bind {op : Op} {span : Span} {f : Nat → Weave β} {g : Nat → Lower β}
    (h : Follows (f p.draft.code.size) (g p.draft.code.size) (p.extend (p.draft.write op span))) :
    Follows (Lowering.along (emit op span) >>= f) (emit op span >>= g) p := by
  refine (along rfl fun i d hd => ?_).bind fun i d hd => ?_
  · obtain ⟨-, rfl⟩ := emit_eq_ok.1 hd
    rw [Draft.size_write]
    exact Nat.le_succ _
  · obtain ⟨rfl, rfl⟩ := emit_eq_ok.1 hd
    exact h

theorem freshLabel_bind {f : Nat → Weave β} {g : Nat → Lower β}
    (h : Follows (f p.draft.labels.next) (g p.draft.labels.next) (p.extend p.draft.draw)) :
    Follows (Lowering.along freshLabel >>= f) (freshLabel >>= g) p := by
  refine (along rfl fun n d hd => ?_).bind fun n d hd => ?_
  · cases hd
    exact le_refl _
  · cases hd
    exact h

theorem currentScope_bind {f : Scope → Weave β} {g : Scope → Lower β}
    (h : Follows (f p.draft.scope) (g p.draft.scope) p) :
    Follows (Lowering.along currentScope >>= f) (currentScope >>= g) p := by
  refine (along rfl fun n d hd => ?_).bind fun n d hd => ?_
  · cases hd
    exact le_refl _
  · cases hd
    rwa [Strand.extend_self]

/-- A side path on a strand of its own. -/
theorem aside {scope : Scope} {x : Weave Unit} {y : Lower Unit}
    (hx : Follows x y ⟨{ p.draft with scope }, []⟩) :
    Follows (aside scope x) (sideways scope y) p := by
  refine ⟨?_, fun a d h => ?_⟩
  · show (x _ >>= _) = ((y _).map _).map _
    rw [hx.eq]
    cases y { p.draft with scope } <;> rfl
  · obtain ⟨d₁, hy, -, rfl⟩ := sideways_eq_ok h
    exact hx.size_le () d₁ hy

theorem congr {x : Weave α} {y y' : Lower α} (hy : y' p.draft = y p.draft) (h : Follows x y p) :
    Follows x y' p := by
  refine ⟨?_, fun a d hd => h.size_le a d (hy ▸ hd)⟩
  rw [hy]
  exact h.eq

end Follows

/-! ## The two ways of writing code agree -/

/-- With any listing, the joins are those of the scope. -/
theorem joinOn_apply {order : Draft → Scope} (horder : Listing order) {d : Draft}
    (hd : Unambiguous d.scope) (other : Scope) (span : Span) :
    joinOn order other span d = joinWith other span d := by
  rw [joinOn, Scope.joins_perm hd (horder d)]
  rfl

theorem Follows.joinOn {order : Draft → Scope} (horder : Listing order) {decls : List Name}
    {p : Strand} (hp : p.draft.Sound decls) {other : Scope} {span : Span}
    (hg : p.draft.Grows decls (p.draft.joined other span) []) :
    Follows (Lowering.along (joinOn order other span)) (joinWith other span) p := by
  refine .along (joinOn_apply horder hp.scope.unambiguous other span) fun _ d hd => ?_
  rw [Draft.joinWith_apply] at hd
  cases hd
  exact hg.size_le

section

variable {order : Draft → Scope} {decls : List Name} {receiver : Bool}

mutual

/-- **Writing a statement on a strand**, with any listing of the bindings at its joins. -/
theorem follows_lowerStmtOn (horder : Listing order) (s : Stmt) {p : Strand}
    (hp : p.draft.Sound decls) :
    Follows (lowerStmtOn order receiver s) (lowerStmt receiver s) p := by
  match s with
  | .block body _ => exact follows_lowerStmtsOn horder body hp
  | .ite cond s t span =>
    refine .bind (.along rfl fun _ _ h => (grows_lowerExpr cond h hp).1.size_le)
      fun c d₁ hcond => ?_
    obtain ⟨hg, hc⟩ := grows_lowerExpr cond hcond hp
    have hbegin := hg.sound.grows_beginThen hc span
    refine .freshLabel_bind (.emit_bind (.currentScope_bind ?_))
    refine .bind (follows_lowerStmtOn horder s hbegin.sound) fun _ d₂ hs => ?_
    have hi := IteGrows.of_branches ⟨hg, hc⟩ span (grows_lowerStmt s hs) .refl
    refine .emit_bind (.emit_bind (.congr (sideways_bind ..) (.bind (.aside
      (follows_lowerStmtOn horder t hi.beginElse.sound)) fun theirs d hd => ?_)))
    obtain ⟨d₃, ht, rfl, rfl⟩ := sideways_eq_ok hd
    have hi := IteGrows.of_branches ⟨hg, hc⟩ span (grows_lowerStmt s hs) (grows_lowerStmt t ht)
    exact .emit_bind (.joinOn horder hi.endIte.sound hi.joined)
  | .loop cond s span =>
    refine .freshLabel_bind (.emit_bind ?_)
    have hbegin := hp.grows_beginLoop span
    refine .bind (.along rfl fun _ _ h => (grows_lowerExpr cond h hbegin.sound).1.size_le)
      fun c d₁ hcond => ?_
    have hl := LoopGrows.of_parts hp span (grows_lowerExpr cond hcond) .refl
    refine .emit_bind (.congr (currentScope_sideways_bind ..) (.currentScope_bind (.bind (.aside
      (follows_lowerStmtOn horder s hl.beginBody.sound)) fun theirs d hd => ?_)))
    obtain ⟨d₂, hs, rfl, rfl⟩ := sideways_eq_ok hd
    have hl := LoopGrows.of_parts hp span (grows_lowerExpr cond hcond) (grows_lowerStmt s hs)
    exact .emit_bind (.emit_bind (.joinOn horder hl.endLoop.sound hl.joined))
  | .print value span =>
    refine .bind (.along rfl fun _ _ h => (grows_lowerExpr value h hp).1.size_le) fun v d₁ hv => ?_
    exact .emit_bind (.pure _)
  | .expr value _ =>
    refine .bind (.along rfl fun _ _ h => (grows_lowerExpr value h hp).1.size_le) fun v d₁ hv => ?_
    exact .pure _

theorem follows_lowerStmtsOn (horder : Listing order) (ss : List Stmt) {p : Strand}
    (hp : p.draft.Sound decls) :
    Follows (lowerStmtsOn order receiver ss) (lowerStmts receiver ss) p := by
  match ss with
  | [] => exact .pure ()
  | s :: ss =>
    refine .bind (follows_lowerStmtOn horder s hp) fun _ d hs => ?_
    exact follows_lowerStmtsOn horder ss (grows_lowerStmt s hs hp).sound

end

/-- Writing a method on a strand, with any listing of the bindings at its joins. -/
theorem follows_lowerMethodOn (horder : Listing order) (m : MethodDecl) :
    Follows (lowerMethodOn order m) (lowerMethod m) {} := by
  refine .bind (.along rfl fun _ _ _ => Nat.zero_le _) fun _ d hd => ?_
  rw [declareParams_apply] at hd
  cases hd
  refine .bind (.along rfl fun _ d hd => ?_) fun _ d hd => ?_
  · rw [declareLocals_apply] at hd
    cases hd
    rw [← Draft.length_ops, ← Draft.length_ops, Draft.ops_foldl_declare, List.length_append]
    exact Nat.le_add_right _ _
  · rw [declareLocals_apply] at hd
    cases hd
    have hsound := foldl_declare_header m ▸ sound_declaredDraft m
    refine .bind (follows_lowerStmtsOn horder m.body hsound) fun _ d₁ hbody => ?_
    have hg := grows_lowerStmts m.body hbody hsound
    refine .bind (.along rfl fun _ _ h => (grows_lowerExpr _ h hg.sound).1.size_le) fun r d₂ _ => ?_
    exact .emit_bind (.pure ())

end

/-- The strand of a whole draft holds its instructions in the order of their numbers. -/
theorem Strand.body_extend (d : Draft) : (Strand.extend {} d).body = d.body := by
  show (⟨d.code, [] ++ List.range' 0 (d.code.size - 0)⟩ : Body) = ⟨d.code, List.range d.code.size⟩
  rw [List.nil_append, Nat.sub_zero, List.range_eq_range']

/-- Weaving on an empty strand gives the code of the draft. -/
theorem Follows.woven_eq {x : Weave Unit} {y : Lower Unit} (h : Follows x y {}) :
    woven x = run y := by
  rw [woven, h.eq, run]
  show ((y {}).map _ >>= _) = (y {} >>= _)
  cases y {} with
  | error fault => rfl
  | ok r =>
    exact congrArg (fun b => Except.ok (⟨b, r.2.events⟩ : Traced Body)) (Strand.body_extend r.2)

end Backend.Lowering

namespace Backend

open Lowering

/-- The linear code of a method, written strand by strand. -/
def Source.MethodDecl.lowerOn (order : Draft → Scope) (m : MethodDecl) :
    Except Fault (Traced Code.Method) := do
  let body ← woven (lowerMethodOn order m)
  return ⟨{ name := m.name, params := m.params.map (·.name), body := body.value }, body.events⟩

/-- The linear code of the method that a program starts with, written strand by strand. -/
def Source.MainClass.lowerOn (order : Draft → Scope) (m : MainClass) :
    Except Fault (Traced Code.Method) := do
  let body ← woven (lowerStmtOn order false m.body)
  return ⟨{ name := "main", body := body.value }, body.events⟩

/-- **A method written on strands is the lowered method.** -/
theorem Source.MethodDecl.lowerOn_eq {order : Draft → Scope} (horder : Listing order)
    (m : MethodDecl) : m.lowerOn order = m.lower := by
  rw [lowerOn, (follows_lowerMethodOn horder m).woven_eq]
  rfl

/-- The start of a program written on strands is the lowered start. -/
theorem Source.MainClass.lowerOn_eq {order : Draft → Scope} (horder : Listing order)
    (m : MainClass) : m.lowerOn order = m.lower := by
  rw [lowerOn, (follows_lowerStmtOn horder m.body (sound_empty [])).woven_eq]
  rfl

namespace Lowering

/-- **Lowering does not depend on how bindings are listed.**  While a method is lowered, distinct
names stand for distinct instructions in every scope, and all scopes behind the declarations bind
the declared names; the code a program starts with binds none.  So with any two listings of the
bindings at the joins, all strands write the same instructions in the same order and leave the same
bindings, and the code is that of `lower`. -/
theorem independent_of_listing {order order' : Draft → Scope} (horder : Listing order)
    (horder' : Listing order') :
    (∀ m : Source.MethodDecl,
      (∀ n, Unambiguous ((m.header.take n).foldl Draft.declare {}).scope) ∧
      (∀ x, TraversedIn m x → Unambiguous x.scope ∧ SameNames (declaredDraft m).scope x.scope) ∧
      (∃ p, lowerMethodOn order m {} = .ok ((), p) ∧ lowerMethodOn order' m {} = .ok ((), p)) ∧
      m.lowerOn order = m.lower) ∧
    ∀ m : Source.MainClass,
      (∀ x, Traverses false m.body {} x → Unambiguous x.scope ∧ SameNames [] x.scope) ∧
      lowerStmtOn order false m.body {} = lowerStmtOn order' false m.body {} ∧
      m.lowerOn order = m.lower := by
  refine ⟨fun m => ⟨unambiguous_declaring m, fun x hx => ?_, ?_, m.lowerOn_eq horder⟩,
    fun m => ⟨fun x hx => ?_, ?_, m.lowerOn_eq horder⟩⟩
  · obtain ⟨own, hg⟩ := hx.exists_grows
    exact ⟨hg.sound.scope.unambiguous, hg.names⟩
  · obtain ⟨-, d, r, -, -, hm⟩ := exists_lowerMethod m
    refine ⟨Strand.extend {} (d.write (.ret r) m.result.span), ?_, ?_⟩
    · rw [(follows_lowerMethodOn horder m).eq, hm]
      rfl
    · rw [(follows_lowerMethodOn horder' m).eq, hm]
      rfl
  · obtain ⟨own, hg⟩ := hx.exists_grows (sound_empty [])
    exact ⟨hg.sound.scope.unambiguous, hg.names⟩
  · rw [(follows_lowerStmtOn horder m.body (sound_empty [])).eq,
      (follows_lowerStmtOn horder' m.body (sound_empty [])).eq]

/-- Two variables that one branch of a conditional sets: `if (true) { b = 2; a = 1; } else {}`. -/
def twoJoins : Source.MethodDecl where
  name := "m"
  locals := [{ name := "a" }, { name := "b" }]
  body := [.ite (.boolean true {})
    (.block [.expr (.assign (.var "b" {}) (.int 2 {}) {}) {},
      .expr (.assign (.var "a" {}) (.int 1 {}) {}) {}] {}) (.block [] {}) {}]
  result := .var "a" {}

/-- Whichever name is listed first, `b`, which was set first, is joined first. -/
theorem independent_of_listing_twoJoins :
    Listing (fun d => d.scope) ∧ Listing (fun d => d.scope.reverse) ∧
    ∃ p, lowerMethodOn (fun d => d.scope) twoJoins {} = .ok ((), p) ∧
      lowerMethodOn (fun d => d.scope.reverse) twoJoins {} = .ok ((), p) ∧
      p.draft.ops.drop 11 = [.unify 5 1, .unify 7 0, .ret 12] ∧
      p.draft.scope = [("a", 12), ("b", 11)] ∧ p.code = List.range 14 := by
  have horder : Listing (fun d => d.scope) := fun d => .refl _
  have horder' : Listing (fun d => d.scope.reverse) := fun d => List.reverse_perm _
  obtain ⟨-, -, ⟨p, hp, hp'⟩, -⟩ := (independent_of_listing horder horder').1 twoJoins
  refine ⟨horder, horder', p, hp, hp', ?_⟩
  have hrun : (lowerMethodOn (fun d => d.scope) twoJoins {}).toOption.map (fun r =>
      (r.2.draft.ops.drop 11, r.2.draft.scope, r.2.code)) =
      some ([.unify 5 1, .unify 7 0, .ret 12], [("a", 12), ("b", 11)], List.range 14) := by
    decide +kernel
  rw [hp] at hrun
  obtain ⟨hops, hrest⟩ := Prod.mk.inj (Option.some.inj hrun)
  obtain ⟨hscope, hcode⟩ := Prod.mk.inj hrest
  exact ⟨hops, hscope, hcode⟩

end Lowering

end Backend
