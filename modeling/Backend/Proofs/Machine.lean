/-
# Running bodies

The meaning of a body, for any meaning of its operations: values and the world are arbitrary types,
and an operation is a function of its own data, the values of its operands and the world.  Every
instruction has a cell.  With one cell for each variable (`Storage.var?`) a body runs as it is
written; with one cell for each register (`Body.place`) it runs as it was allocated.
-/
import Mathlib
import Backend.Proofs.Liveness
import Backend.Proofs.SpillCode
import Backend.Proofs.Trace

namespace Backend

/-! ## Machines -/

/-- An operation without its operands. -/
def Op.shape (op : Op) : Op := op.mapOperands fun _ => 0

/-- A meaning of the operations. -/
structure Meaning (Val World : Type) where
  /-- What an operation without its operands makes of the values of the operands and the world. -/
  perform : Op → List Val → World → Val × World
  /-- Which values count as true. -/
  truth : Val → Bool

/-- What the execution of an instruction shows. -/
structure Executed (Val World : Type) where
  instr : Nat
  /-- The values of the operands. -/
  reads : List Val
  result : Option Val
  /-- The world afterwards. -/
  world : World

/-- The state of a machine. -/
structure Config (Cell Val World : Type) where
  /-- The position of the next instruction. -/
  pc : Nat
  cells : Cell → Val
  /-- The stack slots. -/
  slots : Nat → Val
  world : World

/-- The values of the operands of an operation, when the cell of each instruction is given by
`loc`. -/
def Config.reads {Cell Val World : Type} (σ : Config Cell Val World) (loc : Nat → Cell) (op : Op) :
    List Val := op.operands.map fun o => σ.cells (loc o)

/-- The position of a label; a label that is nowhere stands for the end of the body. -/
def Body.labelAt (b : Body) (l : Label) : Nat := (FlowGraph.labelPosition? b.ops l).getD b.size

namespace Meaning

variable {Cell Val World : Type} [DecidableEq Cell] (m : Meaning Val World)

/-- The result of an operation and the world afterwards. -/
def act (op : Op) (reads : List Val) (slots : Nat → Val) (world : World) : Option Val × World :=
  match op with
  | .unify .. | .label _ | .goto _ | .branch .. | .branchNot .. | .store .. => (none, world)
  | .load q => (some (slots q), world)
  | op => (some (m.perform op.shape reads world).1, (m.perform op.shape reads world).2)

/-- Where control goes after an operation. -/
def next (b : Body) (op : Op) (reads : List Val) (pc : Nat) : Nat :=
  match op with
  | .goto l => b.labelAt l
  | .branch _ l => if reads.any m.truth then b.labelAt l else pc + 1
  | .branchNot _ l => if reads.any m.truth then pc + 1 else b.labelAt l
  | _ => pc + 1

/-- The slots after an operation. -/
def save (op : Op) (reads : List Val) (slots : Nat → Val) : Nat → Val :=
  match op, reads with
  | .store _ q, v :: _ => Function.update slots q v
  | _, _ => slots

/-- The cells after an operation. -/
def write (op : Op) (result : Option Val) (cell : Cell) (cells : Cell → Val) : Cell → Val :=
  match result with
  | some v => if op.definesValue then Function.update cells cell v else cells
  | none => cells

/-- Execute one instruction, when the cell of each instruction is given by `loc`. -/
def execute (b : Body) (loc : Nat → Cell) (σ : Config Cell Val World) (id : Nat) (op : Op) :
    Executed Val World × Config Cell Val World :=
  let reads := σ.reads loc op
  let done := m.act op reads σ.slots σ.world
  ({ instr := id, reads, result := done.1, world := done.2 },
    { pc := m.next b op reads σ.pc
      cells := write op done.1 (loc id) σ.cells
      slots := save op reads σ.slots
      world := done.2 })

/-- Execute the next instruction of a body, if there is one. -/
def step (b : Body) (loc : Nat → Cell) (σ : Config Cell Val World) :
    Option (Executed Val World × Config Cell Val World) :=
  b.toList[σ.pc]?.map fun e => m.execute b loc σ e.1 e.2.op

/-! ## Steps -/

variable {m}

theorem step_eq {b : Body} {loc : Nat → Cell} {σ : Config Cell Val World} {id : Nat} {i : Instr}
    (h : b.toList[σ.pc]? = some (id, i)) : m.step b loc σ = some (m.execute b loc σ id i.op) := by
  rw [step, h]
  rfl

/-- **Inversion of steps.** -/
theorem exists_of_step {b : Body} {loc : Nat → Cell} {σ σ' : Config Cell Val World}
    {e : Executed Val World} (h : m.step b loc σ = some (e, σ')) :
    ∃ id i, b.toList[σ.pc]? = some (id, i) ∧ e = (m.execute b loc σ id i.op).1 ∧
      σ' = (m.execute b loc σ id i.op).2 := by
  obtain ⟨⟨id, i⟩, hp, he⟩ := Option.map_eq_some_iff.1 h
  exact ⟨id, i, hp, (congrArg Prod.fst he).symm, (congrArg Prod.snd he).symm⟩

/-- Executions with the same operand values and results show the same. -/
theorem execute_fst_congr {Cell' : Type} [DecidableEq Cell'] {b c : Body} {loc : Nat → Cell}
    {loc' : Nat → Cell'} {σ : Config Cell Val World} {τ : Config Cell' Val World} {id : Nat}
    {op op' : Op} (hreads : τ.reads loc' op' = σ.reads loc op)
    (hact : m.act op' (σ.reads loc op) τ.slots τ.world =
      m.act op (σ.reads loc op) σ.slots σ.world) :
    (m.execute c loc' τ id op').1 = (m.execute b loc σ id op).1 := by
  simp only [execute, hreads, hact]

theorem step_eq_none {b : Body} {loc : Nat → Cell} {σ : Config Cell Val World} :
    m.step b loc σ = none ↔ b.toList.length ≤ σ.pc := by
  rw [step, Option.map_eq_none_iff, List.getElem?_eq_none_iff]

/-- Steps look at the operations only. -/
theorem step_congr {b c : Body} (h : b.SameOps c) (loc : Nat → Cell) :
    m.step b loc = m.step c loc := by
  funext σ
  have hexecute : m.execute b loc σ = m.execute c loc σ := by
    have hlabel : b.labelAt = c.labelAt := by
      funext l
      rw [Body.labelAt, Body.labelAt, h.ops_eq, Body.size, Body.size, h.order]
    have hnext : m.next b = m.next c := by
      funext op reads pc
      cases op <;> simp only [next, hlabel]
    funext id op
    simp only [execute, hnext]
  have hget := congrArg (fun es : List (Nat × Op) => es[σ.pc]?) h.toList_map
  simp only [List.getElem?_map] at hget
  have hmap := congrArg (Option.map fun e => m.execute b loc σ e.1 e.2) hget
  rw [Option.map_map, Option.map_map] at hmap
  rw [step, step, ← hexecute]
  exact hmap

theorem shape_mapOperands (f : Nat → Nat) (op : Op) : (op.mapOperands f).shape = op.shape := by
  cases op with
  | call t name args =>
    have h : ∀ xs : List Nat, Op.overwrite xs (List.replicate xs.length 0) =
        List.replicate xs.length 0 := by
      intro xs
      have := Op.overwrite_map (fun _ => 0) xs
      rwa [List.map_const'] at this
    have hf := h (args.map f)
    rw [List.length_map] at hf
    simp [Op.shape, Op.mapOperands, Op.withOperands, Op.operands, Op.overwrite_map,
      Function.comp_def, h, hf]
  | _ => rfl

/-- The result of an operation depends on its operands through their values only. -/
theorem act_mapOperands (f : Nat → Nat) (op : Op) (reads : List Val) (slots : Nat → Val)
    (world : World) : m.act (op.mapOperands f) reads slots world = m.act op reads slots world := by
  have hshape := shape_mapOperands f op
  cases op <;> first | rfl | exact congrArg (fun op => (some (m.perform op reads world).1,
    (m.perform op reads world).2)) hshape

theorem save_mapOperands (f : Nat → Nat) (op : Op) (reads : List Val) (slots : Nat → Val) :
    save (op.mapOperands f) reads slots = save op reads slots := by
  cases op <;> cases reads <;> rfl

theorem write_mapOperands (f : Nat → Nat) (op : Op) (result : Option Val) (cell : Cell)
    (cells : Cell → Val) :
    write (op.mapOperands f) result cell cells = write op result cell cells := by
  cases result with
  | none => rfl
  | some v => simp only [write, Op.definesValue_mapOperands]

theorem next_mapOperands (f : Nat → Nat) (op : Op) (b : Body) (reads : List Val) (pc : Nat) :
    m.next b (op.mapOperands f) reads pc = m.next b op reads pc := by
  cases op <;> rfl

/-- An operation that leaves a value passes control on. -/
theorem next_of_definesValue {op : Op} (h : op.definesValue = true) (b : Body) (reads : List Val)
    (pc : Nat) : m.next b op reads pc = pc + 1 := by
  cases op <;> first | rfl | cases h

/-- Control goes to corresponding positions if labels and next positions correspond. -/
theorem next_congr {b c : Body} {f : Nat → Nat} (hlabel : ∀ l, c.labelAt l = f (b.labelAt l))
    {p q : Nat} (hsucc : q + 1 = f (p + 1)) (op : Op) (reads : List Val) :
    m.next c op reads q = f (m.next b op reads p) := by
  cases op with
  | goto l => exact hlabel l
  | branch v l =>
    simp only [next]
    split
    · exact hlabel l
    · exact hsucc
  | branchNot v l =>
    simp only [next]
    split
    · exact hsucc
    · exact hlabel l
  | _ => exact hsucc

/-- Control goes along the flow of the body, or behind its end. -/
theorem passes_next {b : Body} (hb : b.Closed) {p id : Nat} {i : Instr}
    (hp : b.toList[p]? = some (id, i)) (reads : List Val) :
    b.Passes p (m.next b i.op reads p) ∨ m.next b i.op reads p = b.size := by
  have hop : b.ops[p]? = some i.op := by
    rw [Body.getElem?_ops, hp]
    rfl
  have hfall : i.op.isGoto = false → b.Passes p (p + 1) ∨ p + 1 = b.size := by
    intro hgoto
    have hlt : p < b.size := by
      rw [← hb.length_toList]
      exact (List.getElem?_eq_some_iff.1 hp).1
    by_cases hend : p + 1 = b.size
    · exact Or.inr hend
    · exact Or.inl (Or.inl ⟨i.op, hop, hgoto, rfl, by omega⟩)
  have hjump : ∀ l, i.op.target = some l → b.Passes p (b.labelAt l) ∨ b.labelAt l = b.size := by
    intro l hl
    cases hpos : FlowGraph.labelPosition? b.ops l with
    | none => exact Or.inr (by rw [Body.labelAt, hpos]; rfl)
    | some q => exact Or.inl (Or.inr ⟨i.op, l, hop, hl, by rw [Body.labelAt, hpos]; rfl⟩)
  cases hi : i.op with
  | goto l => exact hjump l (by rw [hi]; rfl)
  | branch c l =>
    rw [next]
    split
    · exact hjump l (by rw [hi]; rfl)
    · exact hfall (by rw [hi]; rfl)
  | branchNot c l =>
    rw [next]
    split
    · exact hfall (by rw [hi]; rfl)
    · exact hjump l (by rw [hi]; rfl)
  | _ => exact hfall (by rw [hi]; rfl)

/-- Nothing is live behind the end, so what is live where control goes is reached along the flow. -/
theorem passes_of_liveAt {b : Body} (hb : b.Closed) {p id x : Nat} {i : Instr}
    (hp : b.toList[p]? = some (id, i)) {reads : List Val}
    (hx : b.LiveAt x (m.next b i.op reads p)) : b.Passes p (m.next b i.op reads p) := by
  rcases passes_next hb hp reads with h | h
  · exact h
  · obtain ⟨id', i', hentry⟩ := hx.exists_entry
    have := (List.getElem?_eq_some_iff.1 hentry).1
    rw [hb.length_toList, h] at this
    exact absurd this (lt_irrefl _)

theorem next_le_size {b : Body} (hb : b.Closed) {p id : Nat} {i : Instr}
    (hp : b.toList[p]? = some (id, i)) (reads : List Val) : m.next b i.op reads p ≤ b.size := by
  rcases passes_next (m := m) hb hp reads with h | h
  · obtain ⟨id', i', hentry⟩ := h.exists_entry hb.toWellFormed
    rw [← hb.length_toList]
    exact le_of_lt (List.getElem?_eq_some_iff.1 hentry).1
  · exact le_of_eq h

/-! ## Primitive operations -/

/-- An operation that is given a meaning: no join, jump or label, and no access to a slot. -/
def Primitive (op : Op) : Prop :=
  op.isUnify = false ∧ op.accessesSlot = false ∧ op.labelHere = none ∧ op.target = none

/-- Executing a primitive operation. -/
theorem execute_of_primitive (m : Meaning Val World) {op : Op} (h : Primitive op) (b : Body)
    (loc : Nat → Cell) (σ : Config Cell Val World) (id : Nat) :
    (m.execute b loc σ id op).2 =
      { pc := σ.pc + 1
        cells := write op (some (m.perform op.shape (σ.reads loc op) σ.world).1) (loc id) σ.cells
        slots := σ.slots
        world := (m.perform op.shape (σ.reads loc op) σ.world).2 } := by
  obtain ⟨hunify, hslot, hlabel, htarget⟩ := h
  cases op <;> first | rfl | (cases hunify; done) | (cases hslot; done) | (cases hlabel; done) |
    cases htarget

/-! ## What an operation changes -/

theorem write_self {op : Op} {v : Val} {cell : Cell} {cells : Cell → Val}
    (h : op.definesValue = true) : write op (some v) cell cells cell = v := by
  rw [write, if_pos h, Function.update_self]

/-- An operation that leaves a value and is no join has a result. -/
theorem exists_result (m : Meaning Val World) {op : Op} (hdef : op.definesValue = true)
    (hunify : op.isUnify = false) (reads : List Val) (slots : Nat → Val) (world : World) :
    ∃ v, (m.act op reads slots world).1 = some v := by
  cases op <;> first | exact ⟨_, rfl⟩ | (cases hdef; done) | cases hunify

theorem act_of_isUnify (m : Meaning Val World) {op : Op} (h : op.isUnify = true)
    (reads : List Val) (slots : Nat → Val) (world : World) :
    m.act op reads slots world = (none, world) := by
  cases op <;> first | rfl | cases h

/-- Only an operation that leaves a value and is no join writes its cell. -/
theorem write_act_of_ne {op : Op} {reads : List Val} {slots : Nat → Val} {world : World}
    {cell c : Cell} {cells : Cell → Val}
    (h : op.definesValue = true → op.isUnify = false → c ≠ cell) :
    write op (m.act op reads slots world).1 cell cells c = cells c := by
  cases hunify : op.isUnify with
  | true =>
    rw [m.act_of_isUnify hunify]
    rfl
  | false =>
    cases (m.act op reads slots world).1 with
    | none => rfl
    | some v =>
      rw [write]
      split
      · rename_i hdef
        rw [Function.update_of_ne (h hdef hunify)]
      · rfl

/-- An operation looks at one slot at most. -/
theorem act_congr {op : Op} {slots slots' : Nat → Val} (h : ∀ q, op = .load q → slots q = slots' q)
    (reads : List Val) (world : World) :
    m.act op reads slots world = m.act op reads slots' world := by
  cases op with
  | load q => simp only [act, h q rfl]
  | _ => rfl

theorem save_of_ne {op : Op} {q : Nat} (h : ∀ v, op ≠ .store v q) (reads : List Val)
    (slots : Nat → Val) : save op reads slots q = slots q := by
  cases op with
  | store v q' =>
    cases reads with
    | nil => rfl
    | cons r rs =>
      have hne : q ≠ q' := by
        rintro rfl
        exact h v rfl
      exact Function.update_of_ne hne r slots
  | _ => rfl

/-- Slots on which two memories agree stay so. -/
theorem save_congr {op : Op} {reads : List Val} {slots slots' : Nat → Val} {q : Nat}
    (h : slots q = slots' q) : save op reads slots q = save op reads slots' q := by
  cases op with
  | store v q' =>
    cases reads with
    | nil => exact h
    | cons r rs =>
      by_cases hq : q = q'
      · subst hq
        simp only [save, Function.update_self]
      · simp only [save, Function.update_of_ne hq, h]
  | _ => exact h

end Meaning

/-! ## Cells for registers -/

/-- A register, or the cell of a variable without a register. -/
inductive Place where
  | register (r : Nat)
  | own (v : Option Nat)
  deriving DecidableEq, Repr

namespace Body

/-- The register of a variable: the first one that a member carries. -/
def registerOf (b : Body) (s : Storage) (v : Nat) : Option Nat :=
  (s.members.getD v []).findSome? fun id => b.store[id]?.bind (·.register)

/-- Where the value of an instruction is kept: variables with the same register share a cell. -/
def place (b : Body) (s : Storage) (id : Nat) : Place :=
  match (s.var? id).bind (b.registerOf s) with
  | some r => .register r
  | none => .own (s.var? id)

end Body

end Backend
