/-
# Register files and the calling convention

A `RegisterFile` says how many registers there are to hand out and which of them carry arguments.
The calling convention pins each parameter and each outgoing argument to the register that carries
it.
-/
import Backend.Code.Body
import Backend.Traced

namespace Backend

/-- The registers to hand out: `0` up to `free`, some of which carry arguments. -/
structure RegisterFile where
  free : Nat
  /-- The registers that carry the first arguments. -/
  args : List Nat := []
  deriving DecidableEq, Repr

namespace RegisterFile

/-- The MIPS registers: ten temporaries, eight saved ones and four that carry arguments. -/
def mips : RegisterFile := { free := 22, args := [0, 1, 2, 3] }

/-- The register file to assume when none is given. -/
instance : Inhabited RegisterFile := ⟨mips⟩

/-- The register that carries the argument with an index; one that is not free carries none. -/
def argRegister (f : RegisterFile) (index : Nat) : Option Nat :=
  f.args[index]?.filter (· < f.free)

end RegisterFile

/-- Which parameter or outgoing argument the operation stands for. -/
def Op.argIndex : Op → Option Nat
  | parameter i | arg _ i => some i
  | _ => none

namespace Body

/-- The instructions that a calling convention pins, with their registers, in order of execution. -/
def conventionPins (b : Body) (f : RegisterFile) : List (Nat × Nat) :=
  b.toList.filterMap fun (id, i) => (i.op.argIndex.bind f.argRegister).map fun r => (id, r)

/-- Pin parameters and outgoing arguments to the registers that carry them. -/
def pinConvention (b : Body) (f : RegisterFile) : Traced Body :=
  let pins := b.conventionPins f
  { value := { b with
      store := pins.foldl (fun s p => s.modify p.1 fun i => { i with pin := some p.2 }) b.store }
    events := pins.map fun p => .pinned p.1 p.2 }

end Body

end Backend
