/-!
# Places in a source text
-/

namespace LoopKernel

/-- A range of byte offsets in a source text. -/
structure Span where
  start : Nat
  stop : Nat
deriving DecidableEq, Repr

/-- The span from the start of one span to the end of another. -/
def Span.through (a b : Span) : Span := ⟨a.start, b.stop⟩

end LoopKernel
