import Std.Data.TreeSet

/-!
# Fresh names

New names are derived from a base name: the base itself, then the base with a number. The first
candidate that is not taken is chosen, so the choice depends on the taken names alone.
Spec guidance: `SPEC_FULL.md` §§4.2/4.3.
-/

namespace LoopKernel.FreshName

/-- The candidate with number `n` for a base name (`unique_candidates`). -/
def numbered (base : String) (n : Nat) : String := base ++ "_" ++ toString n

/-- The first free candidate from number `n` on, among so many. -/
def search (taken : String → Bool) (base : String) : (tries n : Nat) → String
  | 0, n => numbered base n
  | tries + 1, n =>
    if taken (numbered base n) then search taken base tries (n + 1) else numbered base n

/-- The first free candidate for a base name (`first_free`). Of as many numbered candidates as there
are taken names, and one more, at least one is free. -/
def choose (taken : List String) (base : String) : String :=
  if taken.contains base then search (Std.TreeSet.ofList taken).contains base taken.length 0
  else base

end LoopKernel.FreshName
