/-
# Compiling a program

A program is lowered, its bodies are pinned by the calling convention of a register file, and the
registers of the file are allocated in every method.
-/
import Backend.Allocation
import Backend.Lowering.Method
import Backend.RegisterFile

namespace Backend

namespace Code

/-- Pin the parameters and outgoing arguments of a method. -/
def Method.pinConvention (f : RegisterFile) (m : Method) : Traced Method :=
  let body := m.body.pinConvention f
  ⟨{ m with body := body.value }, body.events⟩

/-- Pin the parameters and outgoing arguments of every method of a class. -/
def Class.pinConvention (f : RegisterFile) (c : Class) : Traced Class :=
  let methods := c.methods.map (Method.pinConvention f)
  ⟨{ c with methods := methods.map (·.value) }, methods.flatMap (·.events)⟩

/-- Pin the parameters and outgoing arguments of every method of a program. -/
def Program.pinConvention (f : RegisterFile) (p : Program) : Traced Program :=
  let main := p.main.pinConvention f
  let classes := p.classes.map (Class.pinConvention f)
  ⟨{ main := main.value, classes := classes.map (·.value) },
    main.events ++ classes.flatMap (·.events)⟩

end Code

/-- Compile a program for a register file. -/
def Source.Program.compile (p : Program) (f : RegisterFile) :
    Except Fault (Traced Code.Program) := do
  let lowered ← p.lower
  let pinned := lowered.value.pinConvention f
  let done ← pinned.value.allocate f.free
  let (allocations, program) := done.value
  return { value := program
           events := lowered.events ++ pinned.events ++ done.events ++
             [.programAllocated allocations.length (allocations.foldl (fun n a => n + a.slots) 0)] }

end Backend
