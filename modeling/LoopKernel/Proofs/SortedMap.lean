import LoopKernel.SortedMap

/-!
# Laws of sorted maps

A map is determined by its look-ups. Each operation has one law that says what it does to a
look-up, and the entries of a map are exactly the pairs that look-ups find.
-/

namespace LoopKernel.SortedMap

variable {κ ν μ : Type} [Ord κ]

private theorem lookup_map (f : κ → ν → μ) (k : κ) [Std.LawfulEqOrd κ] (l : List (κ × ν)) :
    lookup k (l.map fun e => (e.1, f e.1 e.2)) = (lookup k l).map (f k) := by
  induction l with
  | nil => rfl
  | cons e rest ih =>
    obtain ⟨a, v⟩ := e
    simp only [List.map_cons, lookup]
    split
    · next h =>
      rw [Std.LawfulEqOrd.eq_of_compare h]
      rfl
    · exact ih

/-- The empty map finds nothing. -/
@[simp] theorem get?_empty (k : κ) : (∅ : SortedMap κ ν).get? k = none := rfl

/-- A key is contained when it is looked up to a value. -/
theorem contains_iff {m : SortedMap κ ν} {k : κ} :
    m.contains k = true ↔ ∃ v, m.get? k = some v := by
  simp only [contains, Option.isSome_iff_exists]

/-- The empty map contains nothing. -/
@[simp] theorem contains_empty (k : κ) : (∅ : SortedMap κ ν).contains k = false := rfl

variable [Std.LawfulEqOrd κ]

private theorem ne_of_compare_lt {a b : κ} (h : compare a b = .lt) : a ≠ b := by
  intro hab
  subst b
  have hs : compare a a = .eq := Std.ReflCmp.compare_self
  rw [hs] at h
  cases h

private theorem not_mem_of_above {k : κ} {l : List (κ × ν)}
    (h : ∀ e ∈ l, compare k e.1 = .lt) (v : ν) : (k, v) ∉ l :=
  fun hm => ne_of_compare_lt (h _ hm) rfl

private theorem mem_iff_lookup {l : List (κ × ν)}
    (hs : l.Pairwise fun a b => compare a.1 b.1 = .lt) (k : κ) (v : ν) :
    (k, v) ∈ l ↔ lookup k l = some v := by
  induction l with
  | nil => simp [lookup]
  | cons e rest ih =>
    obtain ⟨a, w⟩ := e
    obtain ⟨ha, hr⟩ := List.pairwise_cons.1 hs
    by_cases hk : k = a
    · subst k
      have hn : (a, v) ∉ rest := not_mem_of_above ha v
      simp [lookup, hn, eq_comm]
    · have hc : compare k a ≠ .eq := fun h => hk (Std.LawfulEqOrd.eq_of_compare h)
      simp only [lookup, hc, ite_false, List.mem_cons, Prod.mk.injEq, hk, false_and, false_or]
      exact ih hr

/-- The entries are exactly what look-ups find. -/
theorem mem_entries {m : SortedMap κ ν} {k : κ} {v : ν} :
    (k, v) ∈ m.entries ↔ m.get? k = some v := mem_iff_lookup m.sorted k v

/-- No entry occurs twice. -/
theorem nodup_entries (m : SortedMap κ ν) : m.entries.Nodup := by
  apply m.sorted.imp
  intro a b h hab
  exact ne_of_compare_lt h (congrArg Prod.fst hab)

/-- No key occurs twice. -/
theorem nodup_keys (m : SortedMap κ ν) : m.keys.Nodup := by
  rw [keys, List.nodup_iff_pairwise_ne, List.pairwise_map]
  exact m.sorted.imp ne_of_compare_lt

/-- Values applied to keys are looked up in place. -/
@[simp] theorem get?_mapValues (m : SortedMap κ ν) (f : κ → ν → μ) (k : κ) :
    (m.mapValues f).get? k = (m.get? k).map (f k) := lookup_map f k m.entries

omit [Std.LawfulEqOrd κ] in
/-- A function applied to every value is applied to the list of them. -/
theorem values_mapValues (m : SortedMap κ ν) (f : ν → μ) :
    (m.mapValues fun _ v => f v).values = m.values.map f := by
  rw [mapValues, values, values, List.map_map, List.map_map]
  rfl

/-- The keys are those with a value. -/
theorem mem_keys {m : SortedMap κ ν} {k : κ} : k ∈ m.keys ↔ m.contains k = true := by
  rw [contains_iff]
  constructor
  · intro h
    obtain ⟨⟨a, v⟩, hm, rfl⟩ := List.mem_map.1 h
    exact ⟨v, mem_entries.1 hm⟩
  · rintro ⟨v, hv⟩
    exact List.mem_map.2 ⟨(k, v), mem_entries.2 hv, rfl⟩

/-- The values are what look-ups find. -/
theorem mem_values {m : SortedMap κ ν} {v : ν} : v ∈ m.values ↔ ∃ k, m.get? k = some v := by
  rw [values, List.mem_map]
  constructor
  · rintro ⟨⟨k, w⟩, he, rfl⟩
    exact ⟨k, mem_entries.mp he⟩
  · rintro ⟨k, hk⟩
    exact ⟨(k, v), mem_entries.mpr hk, rfl⟩

/-- A filtered map finds what passes the test. -/
theorem get?_filter (m : SortedMap κ ν) (p : κ → ν → Bool) (k : κ) :
    (m.filter p).get? k = (m.get? k).filter (p k) := by
  apply Option.ext
  intro v
  rw [← mem_entries, Option.filter_eq_some_iff, ← mem_entries]
  simp [filter]

/-- A filtered map contains the keys whose value passes. -/
theorem contains_filter_key (m : SortedMap κ ν) (p : κ → Bool) (k : κ) :
    (m.filter fun a _ => p a).contains k = (m.contains k && p k) := by
  unfold contains
  rw [get?_filter]
  cases m.get? k with
  | none => rfl
  | some v => simp [Option.filter]; cases p k <;> rfl

/-- A map without a key finds nothing there. -/
theorem get?_erase [DecidableEq κ] (m : SortedMap κ ν) (k a : κ) :
    (m.erase k).get? a = if a = k then none else m.get? a := by
  rw [erase, get?_filter]
  by_cases h : a = k
  · simp [h]
  · have hk : k ≠ a := Ne.symm h
    cases m.get? a <;> simp [h, hk]

/-- Removing a key removes that key alone. -/
@[simp] theorem contains_erase [DecidableEq κ] (m : SortedMap κ ν) (k a : κ) :
    (m.erase k).contains a = (a != k && m.contains a) := by
  unfold contains
  rw [get?_erase]
  by_cases h : a = k <;> simp [h]

variable [Std.TransOrd κ]

/-- Maps with the same look-ups are equal. -/
theorem ext_get? {m n : SortedMap κ ν} (h : ∀ k, m.get? k = n.get? k) : m = n := by
  apply ext
  have hp : m.entries.Perm n.entries := by
    apply (List.perm_ext_iff_of_nodup m.nodup_entries n.nodup_entries).mpr
    rintro ⟨k, v⟩
    rw [mem_entries, mem_entries, h]
  apply hp.eq_of_pairwise _ m.sorted n.sorted
  intro a b _ _ hab hba
  exact False.elim (ne_of_compare_lt (Std.TransCmp.lt_trans hab hba) rfl)

private theorem lookup_insertEntry [DecidableEq κ] (k a : κ) (v : ν) (l : List (κ × ν))
    (hs : l.Pairwise fun a b => compare a.1 b.1 = .lt) :
    lookup a (insertEntry k v l) = if a = k then some v else lookup a l := by
  induction l with
  | nil =>
    by_cases ha : a = k
    · simp [insertEntry, lookup, ha]
    · simp [insertEntry, lookup, ha]
  | cons e rest ih =>
    obtain ⟨b, w⟩ := e
    have hr := (List.pairwise_cons.1 hs).2
    unfold insertEntry
    split
    · by_cases ha : a = k
      · simp [lookup, ha]
      · simp [lookup, ha]
    · next h =>
      have hk : k = b := Std.LawfulEqOrd.eq_of_compare h
      subst b
      by_cases ha : a = k
      · simp [lookup, ha]
      · simp [lookup, ha]
    · next h =>
      have hk : b ≠ k := ne_of_compare_lt (Std.OrientedCmp.lt_of_gt h)
      by_cases hb : a = b
      · subst b
        simp [lookup, hk]
      · simp [lookup, hb, ih hr]

/-- A map with a key set finds the new value there. -/
theorem get?_insert [DecidableEq κ] (m : SortedMap κ ν) (k a : κ) (v : ν) :
    (m.insert k v).get? a = if a = k then some v else m.get? a :=
  lookup_insertEntry k a v m.entries m.sorted

/-- A map with a key set has the new value there, whatever the default. -/
theorem getD_insert [DecidableEq κ] (m : SortedMap κ ν) (k a : κ) (v d : ν) :
    (m.insert k v).getD a d = if a = k then v else m.getD a d := by
  unfold getD
  rw [get?_insert]
  by_cases h : a = k <;> simp [h]

/-- Setting a key adds that key. -/
@[simp] theorem contains_insert [DecidableEq κ] (m : SortedMap κ ν) (k a : κ) (v : ν) :
    (m.insert k v).contains a = (a == k || m.contains a) := by
  unfold contains
  rw [get?_insert]
  by_cases h : a = k <;> simp [h]

/-- What is found after a key is set unless it has a value was found before, or is the new value. -/
theorem of_get?_insertNew [DecidableEq κ] {m : SortedMap κ ν} {k a : κ} {v w : ν}
    (h : (m.insertNew k v).get? a = some w) : m.get? a = some w ∨ w = v := by
  unfold insertNew at h
  split at h
  · exact .inl h
  · rw [get?_insert] at h
    split at h
    · exact .inr (Option.some.inj h).symm
    · exact .inl h

/-- Setting a key unless it has a value adds that key. -/
@[simp] theorem contains_insertNew [DecidableEq κ] (m : SortedMap κ ν) (k a : κ) (v : ν) :
    (m.insertNew k v).contains a = (a == k || m.contains a) := by
  unfold insertNew
  split
  · next h =>
    by_cases ha : a = k
    · simp [ha, h]
    · simp [ha]
  · exact contains_insert m k a v

omit [Std.TransOrd κ] in
private theorem nodup_cons_erase [DecidableEq κ] (m : SortedMap κ ν) (k : κ) (v : ν) :
    ((k, v) :: (m.erase k).entries).Nodup := by
  refine List.nodup_cons.mpr ⟨fun hm => ?_, (m.erase k).nodup_entries⟩
  have hget := mem_entries.mp hm
  rw [get?_erase, if_pos rfl] at hget
  cases hget

/-- The entries of a map with a key set are the new one and those of other keys. -/
theorem perm_entries_insert [DecidableEq κ] (m : SortedMap κ ν) (k : κ) (v : ν) :
    (m.insert k v).entries.Perm ((k, v) :: (m.erase k).entries) := by
  apply (List.perm_ext_iff_of_nodup (nodup_entries _) (nodup_cons_erase m k v)).mpr
  rintro ⟨a, w⟩
  rw [mem_entries, get?_insert, List.mem_cons, mem_entries, get?_erase, Prod.mk.injEq]
  by_cases h : a = k
  · simp [h, eq_comm]
  · simp [h]

omit [Std.TransOrd κ] in
/-- The entries of a map with a value for a key are that one and those of other keys. -/
theorem perm_entries_erase [DecidableEq κ] {m : SortedMap κ ν} {k : κ} {v : ν}
    (h : m.get? k = some v) : m.entries.Perm ((k, v) :: (m.erase k).entries) := by
  apply (List.perm_ext_iff_of_nodup (nodup_entries _) (nodup_cons_erase m k v)).mpr
  rintro ⟨a, w⟩
  rw [mem_entries, List.mem_cons, mem_entries, get?_erase, Prod.mk.injEq]
  by_cases ha : a = k
  · simp [ha, h, eq_comm]
  · simp [ha]

/-- Removing a key without a value changes nothing. -/
theorem erase_of_get?_none [DecidableEq κ] {m : SortedMap κ ν} {k : κ} (h : m.get? k = none) :
    m.erase k = m := by
  apply ext_get?
  intro a
  rw [get?_erase]
  by_cases ha : a = k
  · rw [if_pos ha, ha, h]
  · rw [if_neg ha]

/-- Setting a key to its value changes nothing. -/
theorem insert_of_get?_some [DecidableEq κ] {m : SortedMap κ ν} {k : κ} {v : ν}
    (h : m.get? k = some v) : m.insert k v = m := by
  apply ext_get?
  intro a
  rw [get?_insert]
  by_cases ha : a = k
  · rw [if_pos ha, ha, h]
  · rw [if_neg ha]

/-- Entries set one after the other are contained. -/
theorem contains_foldl_insert [DecidableEq κ] (l : List (κ × ν)) (m : SortedMap κ ν) (k : κ) :
    (l.foldl (fun m e => m.insert e.1 e.2) m).contains k = true ↔
      k ∈ l.map Prod.fst ∨ m.contains k = true := by
  induction l generalizing m with
  | nil => simp
  | cons e rest ih =>
    rw [List.foldl_cons, ih, contains_insert, List.map_cons, List.mem_cons, Bool.or_eq_true,
      beq_iff_eq, or_left_comm, or_assoc]

/-- Keys set one after the other unless they have a value are contained. -/
theorem contains_foldl_insertNew [DecidableEq κ] (keys : List κ) (v : ν) (m : SortedMap κ ν)
    (k : κ) : (keys.foldl (fun m key => m.insertNew key v) m).contains k = true ↔
      k ∈ keys ∨ m.contains k = true := by
  induction keys generalizing m with
  | nil => simp
  | cons key rest ih =>
    rw [List.foldl_cons, ih, contains_insertNew, List.mem_cons, Bool.or_eq_true, beq_iff_eq,
      or_left_comm, or_assoc]

/-- Entries with different keys set one after the other are found, and so is what was found before
under other keys. -/
theorem get?_foldl_insert [DecidableEq κ] {l : List (κ × ν)} {m : SortedMap κ ν}
    (h : (l.map Prod.fst).Nodup) (k : κ) (v : ν) :
    (l.foldl (fun m e => m.insert e.1 e.2) m).get? k = some v ↔
      (k, v) ∈ l ∨ (k ∉ l.map Prod.fst ∧ m.get? k = some v) := by
  induction l generalizing m with
  | nil => simp
  | cons e rest ih =>
    obtain ⟨a, w⟩ := e
    obtain ⟨ha, hr⟩ := List.nodup_cons.mp h
    rw [List.foldl_cons, ih hr, get?_insert, List.mem_cons, List.map_cons, List.mem_cons]
    by_cases hk : k = a
    · subst k
      have hn : (a, v) ∉ rest := fun hm => ha (List.mem_map.mpr ⟨(a, v), hm, rfl⟩)
      simp only at ha
      simp [hn, ha, eq_comm]
    · simp [hk]

/-- A map made from entries with different keys finds exactly these entries. -/
theorem get?_ofList [DecidableEq κ] {l : List (κ × ν)} (h : (l.map Prod.fst).Nodup) (k : κ)
    (v : ν) : (ofList l).get? k = some v ↔ (k, v) ∈ l := by
  rw [ofList, get?_foldl_insert h]
  simp

end LoopKernel.SortedMap
