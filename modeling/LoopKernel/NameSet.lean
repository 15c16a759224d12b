import LoopKernel.SortedMap

/-!
# Sets of names

A finite set of names, listed in ascending order.
-/

namespace LoopKernel

/-- A finite set of names. -/
abbrev NameSet := SortedMap String Unit

namespace NameSet

/-- The names, ascending. -/
def toList (s : NameSet) : List String := s.keys

/-- The set with one more name. -/
def add (s : NameSet) (name : String) : NameSet := s.insert name ()

/-- The set with the names of a list added. -/
def addAll (s : NameSet) (names : List String) : NameSet := names.foldl add s

/-- The set of the names in a list. -/
def ofList (names : List String) : NameSet := addAll ∅ names

/-- The set without a name. -/
def remove (s : NameSet) (name : String) : NameSet := s.erase name

/-- The names in either set. -/
def union (s t : NameSet) : NameSet := s.addAll t.toList

/-- The names of the first set that are not in the second. -/
def diff (s t : NameSet) : NameSet := s.filter fun n _ => !t.contains n

/-- The names of the set that satisfy a test. -/
def select (s : NameSet) (p : String → Bool) : NameSet := s.filter fun n _ => p n

/-- The names, separated by commas. -/
def render (s : NameSet) : String := ", ".intercalate s.toList

end NameSet

end LoopKernel
