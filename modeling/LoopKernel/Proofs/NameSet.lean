import LoopKernel.NameSet
import LoopKernel.Proofs.SortedMap

/-!
# Laws of sets of names

Membership in a set of names, one law for each operation. A set is determined by its members.
-/

namespace LoopKernel.NameSet

/-- Membership of a name, as a proposition. -/
instance : Membership String NameSet := ⟨fun s n => s.contains n = true⟩

instance (n : String) (s : NameSet) : Decidable (n ∈ s) :=
  inferInstanceAs (Decidable (s.contains n = true))

/-- The membership test decides membership. -/
theorem contains_iff {s : NameSet} {n : String} : s.contains n = true ↔ n ∈ s := Iff.rfl

/-- A failed membership test. -/
theorem contains_eq_false {s : NameSet} {n : String} : s.contains n = false ↔ n ∉ s := by
  rw [← contains_iff, Bool.not_eq_true]

/-- The empty set has no members. -/
@[simp] theorem not_mem_empty (n : String) : n ∉ (∅ : NameSet) := by
  intro h
  cases h

/-- The listing shows the members. -/
@[simp] theorem mem_toList {s : NameSet} {n : String} : n ∈ s.toList ↔ n ∈ s :=
  SortedMap.mem_keys

instance (s : NameSet) (p : String → Prop) [DecidablePred p] : Decidable (∀ n ∈ s, p n) :=
  decidable_of_iff (∀ n ∈ s.toList, p n) (by simp only [mem_toList])

/-- A set is empty exactly if it has no members. -/
theorem isEmpty_iff {s : NameSet} : s.isEmpty = true ↔ ∀ n, n ∉ s := by
  rw [SortedMap.isEmpty, List.isEmpty_iff, ← List.map_eq_nil_iff (f := Prod.fst),
    List.eq_nil_iff_forall_not_mem]
  exact forall_congr' fun n => not_congr mem_toList

/-- No name is listed twice. -/
theorem nodup_toList (s : NameSet) : s.toList.Nodup := SortedMap.nodup_keys s

/-- Sets with the same members are equal. -/
theorem ext {s t : NameSet} (h : ∀ n, n ∈ s ↔ n ∈ t) : s = t := by
  apply SortedMap.ext_get?
  intro n
  have hn : (s.get? n).isSome = (t.get? n).isSome := Bool.eq_iff_iff.mpr (h n)
  cases hs : s.get? n <;> cases ht : t.get? n <;> simp_all

/-- Adding a name adds that name alone. -/
@[simp] theorem mem_add {s : NameSet} {a n : String} : n ∈ s.add a ↔ n = a ∨ n ∈ s := by
  change (SortedMap.insert s a ()).contains n = true ↔ _
  rw [SortedMap.contains_insert, Bool.or_eq_true, beq_iff_eq]
  rfl

/-- Adding the names of a list adds those names alone. -/
@[simp] theorem mem_addAll {s : NameSet} {names : List String} {n : String} :
    n ∈ s.addAll names ↔ n ∈ names ∨ n ∈ s := by
  induction names generalizing s with
  | nil => simp [addAll]
  | cons a rest ih =>
    change n ∈ (s.add a).addAll rest ↔ _
    rw [ih, mem_add, List.mem_cons]
    grind

/-- The set of a list has the members of the list. -/
@[simp] theorem mem_ofList {names : List String} {n : String} :
    n ∈ ofList names ↔ n ∈ names := by
  simp [ofList]

/-- A union has the members of both sets. -/
@[simp] theorem mem_union {s t : NameSet} {n : String} :
    n ∈ s.union t ↔ n ∈ s ∨ n ∈ t := by
  rw [union, mem_addAll, mem_toList, or_comm]

/-- A union of several sets has the members of all of them. -/
theorem mem_foldl_union {l : List NameSet} {s : NameSet} {n : String} :
    n ∈ l.foldl union s ↔ n ∈ s ∨ ∃ t ∈ l, n ∈ t := by
  induction l generalizing s with
  | nil => simp
  | cons t rest ih =>
    rw [List.foldl_cons, ih, mem_union, or_assoc]
    simp only [List.mem_cons, exists_eq_or_imp]

/-- A difference has the members of the first set that the second one lacks. -/
@[simp] theorem mem_diff {s t : NameSet} {n : String} : n ∈ s.diff t ↔ n ∈ s ∧ n ∉ t := by
  change (SortedMap.filter s fun a _ => !t.contains a).contains n = true ↔ _
  rw [SortedMap.contains_filter_key, Bool.and_eq_true, Bool.not_eq_true', contains_eq_false]
  rfl

/-- A selection has the members that pass the test. -/
@[simp] theorem mem_select {s : NameSet} {p : String → Bool} {n : String} :
    n ∈ s.select p ↔ n ∈ s ∧ p n = true := by
  change (SortedMap.filter s fun a _ => p a).contains n = true ↔ _
  rw [SortedMap.contains_filter_key, Bool.and_eq_true]
  rfl

/-- Removing a name removes that name alone. -/
@[simp] theorem mem_remove {s : NameSet} {a n : String} : n ∈ s.remove a ↔ n ≠ a ∧ n ∈ s := by
  change (SortedMap.erase s a).contains n = true ↔ _
  rw [SortedMap.contains_erase, Bool.and_eq_true, bne_iff_ne]
  rfl

end LoopKernel.NameSet
