/-
# Results with the events on the way to them
-/
import Backend.Event
import Backend.Fault

namespace Backend

/-- A result with the events reported on the way to it. -/
structure Traced (α : Type) where
  value : α
  events : List Event := []
  deriving DecidableEq, Repr

namespace Traced

/-- Send every entry of a list through a function that may fail, in order, and collect the
events. -/
def traverse {α β : Type} (f : α → Except Fault (Traced β)) :
    List α → Except Fault (Traced (List β))
  | [] => .ok ⟨[], []⟩
  | a :: as => do
    let b ← f a
    let bs ← traverse f as
    return ⟨b.value :: bs.value, b.events ++ bs.events⟩

end Traced

end Backend
