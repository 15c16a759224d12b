import LoopKernel.FreshName
import Mathlib.Data.List.Perm.Subperm
import Std.Data.String.ToNat

/-!
# Fresh names are fresh

The numbered candidates of a base name are pairwise different, so of one more candidate than there
are taken names at least one is free. The first one that is free is chosen.
-/

namespace LoopKernel.FreshName

/-- Different numbers give different candidates. -/
theorem numbered_injective {base : String} {m n : Nat} (h : numbered base m = numbered base n) :
    m = n := by
  unfold numbered at h
  exact Nat.repr_injective ((String.append_right_inj (base ++ "_")).mp h)

/-- The search stops at a candidate from its start on, and skips taken candidates alone. -/
theorem search_spec (taken : String → Bool) (base : String) (tries n : Nat) :
    ∃ m, n ≤ m ∧ m ≤ n + tries ∧ search taken base tries n = numbered base m ∧
      (∀ i, n ≤ i → i < m → taken (numbered base i) = true) ∧
      (m < n + tries → taken (numbered base m) = false) := by
  induction tries generalizing n with
  | zero => exact ⟨n, Nat.le_refl n, Nat.le_refl n, rfl, by omega, by omega⟩
  | succ tries ih =>
    unfold search
    by_cases ht : taken (numbered base n) = true
    · obtain ⟨m, hn, hm, he, hb, hf⟩ := ih (n + 1)
      refine ⟨m, by omega, by omega, by rw [if_pos ht]; exact he, ?_, fun h => hf (by omega)⟩
      intro i hi him
      by_cases hin : i = n
      · rw [hin]
        exact ht
      · exact hb i (by omega) him
    · refine ⟨n, Nat.le_refl n, by omega, by rw [if_neg ht], by omega, fun _ => ?_⟩
      exact Bool.not_eq_true _ ▸ ht

/-- Not all of the first `taken.length + 1` candidates are taken. -/
theorem exists_numbered_not_mem (taken : List String) (base : String) :
    ∃ i, i ≤ taken.length ∧ numbered base i ∉ taken := by
  by_cases h : ∃ i, i ≤ taken.length ∧ numbered base i ∉ taken
  · exact h
  · have hall : ∀ i ≤ taken.length, numbered base i ∈ taken := by
      intro i hi
      apply Classical.byContradiction
      intro hn
      exact h ⟨i, hi, hn⟩
    have hnd : ((List.range (taken.length + 1)).map (numbered base)).Nodup := by
      rw [List.nodup_iff_pairwise_ne, List.pairwise_map]
      exact List.nodup_range.imp fun hne he => hne (numbered_injective he)
    have hsub : (List.range (taken.length + 1)).map (numbered base) ⊆ taken := by
      intro name hname
      obtain ⟨i, hi, rfl⟩ := List.mem_map.mp hname
      exact hall i (Nat.lt_succ_iff.mp (List.mem_range.mp hi))
    have hle := (List.Nodup.subperm hnd hsub).length_le
    rw [List.length_map, List.length_range] at hle
    omega

/-- A chosen name is not taken. -/
theorem choose_not_mem (taken : List String) (base : String) : choose taken base ∉ taken := by
  unfold choose
  split
  · next hb =>
    obtain ⟨m, -, hm, he, hbelow, hfree⟩ :=
      search_spec (Std.TreeSet.ofList taken).contains base taken.length 0
    have hc : ∀ name, (Std.TreeSet.ofList taken).contains name = taken.contains name := by
      intro name
      exact Std.TreeSet.contains_ofList
    rw [he]
    intro hmem
    by_cases hlt : m < 0 + taken.length
    · have hf := hfree hlt
      rw [hc, List.contains_eq_mem, decide_eq_false_iff_not] at hf
      exact hf hmem
    · obtain ⟨i, hi, hnot⟩ := exists_numbered_not_mem taken base
      by_cases him : i = m
      · exact hnot (him ▸ hmem)
      · have ht := hbelow i (Nat.zero_le i) (by omega)
        rw [hc, List.contains_eq_mem, decide_eq_true_eq] at ht
        exact hnot ht
  · next hb =>
    rw [List.contains_eq_mem, decide_eq_true_eq] at hb
    exact hb

/-- The candidates for a base name, in the order in which they are tried. -/
def candidate (base : String) : Nat → String
  | 0 => base
  | n + 1 => numbered base n

/-- The chosen candidate is free, and all candidates before it are taken. -/
theorem choose_spec (taken : List String) (base : String) :
    ∃ n, choose taken base = candidate base n ∧ candidate base n ∉ taken ∧
      ∀ i < n, candidate base i ∈ taken := by
  have hfree := choose_not_mem taken base
  suffices h : ∃ n, choose taken base = candidate base n ∧ ∀ i < n, candidate base i ∈ taken by
    obtain ⟨n, hn, hbefore⟩ := h
    exact ⟨n, hn, hn ▸ hfree, hbefore⟩
  unfold choose
  split
  · next hb =>
    obtain ⟨m, -, -, he, hbelow, -⟩ :=
      search_spec (Std.TreeSet.ofList taken).contains base taken.length 0
    refine ⟨m + 1, he, fun i hi => ?_⟩
    cases i with
    | zero => simpa [candidate] using hb
    | succ i =>
      have htaken := hbelow i (Nat.zero_le i) (Nat.lt_of_succ_lt_succ hi)
      simpa [candidate, Std.TreeSet.contains_ofList] using htaken
  · exact ⟨0, rfl, fun _ hi => absurd hi (Nat.not_lt_zero _)⟩

/-- The first candidate that is free is chosen. -/
theorem choose_eq_of_first {taken : List String} {base : String} {n : Nat}
    (hfree : candidate base n ∉ taken) (hbefore : ∀ i < n, candidate base i ∈ taken) :
    choose taken base = candidate base n := by
  obtain ⟨m, hm, hmfree, hmbefore⟩ := choose_spec taken base
  obtain hlt | rfl | hlt := Nat.lt_trichotomy m n
  · exact absurd (hbefore m hlt) hmfree
  · exact hm
  · exact absurd (hmbefore n hlt) hfree

/-- A chosen name is the base name or one of its numbered candidates. -/
theorem choose_eq (taken : List String) (base : String) :
    choose taken base = base ∨ ∃ n, choose taken base = numbered base n := by
  obtain ⟨n, hn, -⟩ := choose_spec taken base
  cases n with
  | zero => exact .inl hn
  | succ n => exact .inr ⟨n, hn⟩

/-- The choice depends on what is taken, not on its order. -/
theorem choose_congr {taken taken' : List String} (h : ∀ name, name ∈ taken ↔ name ∈ taken')
    (base : String) : choose taken base = choose taken' base := by
  obtain ⟨n, hn, hfree, hbefore⟩ := choose_spec taken' base
  rw [hn]
  exact choose_eq_of_first (mt (h _).mp hfree) fun i hi => (h _).mpr (hbefore i hi)

/-- With more names taken the choice stays the same, or what was chosen before is one of these. -/
theorem choose_append (taken others : List String) (base : String) :
    choose (taken ++ others) base = choose taken base ∨ choose taken base ∈ others := by
  obtain ⟨n, hn, hfree, hbefore⟩ := choose_spec taken base
  rw [hn]
  by_cases hother : candidate base n ∈ others
  · exact .inr hother
  · refine .inl (choose_eq_of_first ?_ fun i hi => List.mem_append_left _ (hbefore i hi))
    exact fun hmem => (List.mem_append.mp hmem).elim hfree hother

end LoopKernel.FreshName
