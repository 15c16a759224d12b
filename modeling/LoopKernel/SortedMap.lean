/-!
# Maps sorted by key

A finite map is the list of its entries in strictly ascending key order. The order is part of the
type, so two maps with the same entries are equal, and every listing comes out in key order.
-/

namespace LoopKernel

/-- A finite map, held as its entries in strictly ascending key order. -/
structure SortedMap (κ ν : Type) [Ord κ] where
  entries : List (κ × ν)
  sorted : entries.Pairwise fun a b => compare a.1 b.1 = .lt

namespace SortedMap

variable {κ ν μ : Type} [Ord κ]

/-- Maps are equal when their entries are. -/
theorem ext {m n : SortedMap κ ν} (h : m.entries = n.entries) : m = n := by
  cases m
  cases n
  cases h
  rfl

instance [DecidableEq κ] [DecidableEq ν] : DecidableEq (SortedMap κ ν) := fun m n =>
  decidable_of_iff (m.entries = n.entries) ⟨ext, fun h => h ▸ rfl⟩

/-- The map without entries. -/
def empty : SortedMap κ ν := ⟨[], .nil⟩

instance : EmptyCollection (SortedMap κ ν) := ⟨empty⟩

instance : Inhabited (SortedMap κ ν) := ⟨empty⟩

/-- Whether there are no entries. -/
def isEmpty (m : SortedMap κ ν) : Bool := m.entries.isEmpty

/-- Number of entries. -/
def size (m : SortedMap κ ν) : Nat := m.entries.length

/-- The keys, ascending. -/
def keys (m : SortedMap κ ν) : List κ := m.entries.map Prod.fst

/-- The values, in ascending order of their keys. -/
def values (m : SortedMap κ ν) : List ν := m.entries.map Prod.snd

/-! ## Entry lists -/

/-- The value stored for a key in an entry list. -/
def lookup (k : κ) : List (κ × ν) → Option ν
  | [] => none
  | (k', v) :: rest => if compare k k' = .eq then some v else lookup k rest

/-- An entry list with one key set, in its sorted place. -/
def insertEntry (k : κ) (v : ν) : List (κ × ν) → List (κ × ν)
  | [] => [(k, v)]
  | (k', v') :: rest =>
    match compare k k' with
    | .lt => (k, v) :: (k', v') :: rest
    | .eq => (k, v) :: rest
    | .gt => (k', v') :: insertEntry k v rest

/-- The value stored for a key. -/
def get? (m : SortedMap κ ν) (k : κ) : Option ν := lookup k m.entries

/-- The value stored for a key, or a default. -/
def getD (m : SortedMap κ ν) (k : κ) (default : ν) : ν := (m.get? k).getD default

/-- Whether a key has a value. -/
def contains (m : SortedMap κ ν) (k : κ) : Bool := (m.get? k).isSome

/-- Keep the entries that satisfy a test. -/
def filter (m : SortedMap κ ν) (p : κ → ν → Bool) : SortedMap κ ν :=
  ⟨m.entries.filter fun e => p e.1 e.2, m.sorted.filter _⟩

/-- Remove a key. -/
def erase (m : SortedMap κ ν) (k : κ) : SortedMap κ ν :=
  m.filter fun k' _ => compare k k' ≠ .eq

/-- Apply a function to every value. -/
def mapValues (m : SortedMap κ ν) (f : κ → ν → μ) : SortedMap κ μ :=
  ⟨m.entries.map fun e => (e.1, f e.1 e.2), by
    rw [List.pairwise_map]
    exact m.sorted⟩

/-- A key set in a list above a lower bound leaves the list above it. -/
theorem insertEntry_above {k b : κ} {v : ν} (hb : compare b k = .lt) :
    (l : List (κ × ν)) → (∀ e ∈ l, compare b e.1 = .lt) →
      ∀ e ∈ insertEntry k v l, compare b e.1 = .lt
  | [], _, e, he => by
    simp only [insertEntry, List.mem_singleton] at he
    subst he
    exact hb
  | (k', v') :: rest, h, e, he => by
    unfold insertEntry at he
    split at he
    · rcases List.mem_cons.1 he with rfl | he
      · exact hb
      · exact h e he
    · rcases List.mem_cons.1 he with rfl | he
      · exact hb
      · exact h e (List.mem_cons_of_mem _ he)
    · rcases List.mem_cons.1 he with rfl | he
      · exact h _ List.mem_cons_self
      · exact insertEntry_above hb rest (fun e he => h e (List.mem_cons_of_mem _ he)) e he

variable [Std.TransOrd κ]

/-- Setting a key keeps the entries sorted. -/
theorem insertEntry_sorted {k : κ} {v : ν} {l : List (κ × ν)}
    (h : l.Pairwise fun a b => compare a.1 b.1 = .lt) :
    (insertEntry k v l).Pairwise fun a b => compare a.1 b.1 = .lt := by
  induction l with
  | nil => simp [insertEntry]
  | cons e rest ih =>
    obtain ⟨k', v'⟩ := e
    have hrest := List.pairwise_cons.1 h
    unfold insertEntry
    split
    · next hlt =>
      refine List.pairwise_cons.2 ⟨?_, h⟩
      intro e he
      rcases List.mem_cons.1 he with rfl | he
      · exact hlt
      · exact Std.TransCmp.lt_trans hlt (hrest.1 e he)
    · next heq =>
      refine List.pairwise_cons.2 ⟨?_, hrest.2⟩
      intro e he
      exact Std.TransCmp.lt_of_eq_of_lt heq (hrest.1 e he)
    · next hgt =>
      refine List.pairwise_cons.2 ⟨?_, ih hrest.2⟩
      exact insertEntry_above (Std.OrientedCmp.lt_of_gt hgt) rest hrest.1

/-- Set the value of a key. -/
def insert (m : SortedMap κ ν) (k : κ) (v : ν) : SortedMap κ ν :=
  ⟨insertEntry k v m.entries, insertEntry_sorted m.sorted⟩

/-- Set the value of a key that has none yet. -/
def insertNew (m : SortedMap κ ν) (k : κ) (v : ν) : SortedMap κ ν :=
  if m.contains k then m else m.insert k v

/-- The map with the given entries; of two entries for one key the later one stays. -/
def ofList (entries : List (κ × ν)) : SortedMap κ ν :=
  entries.foldl (fun m e => m.insert e.1 e.2) ∅

end SortedMap

end LoopKernel
