/-
# Names

Instructions, variables, graph vertices, registers and stack slots are plain numbers, counted from
zero.  What a source text names, it names by a `Name`.
-/

namespace Backend

/-- The name of a variable, field, method or class. -/
abbrev Name := String

end Backend
