import LoopKernel.Kernel.Lengths
import LoopKernel.Proofs.Polyhedron.Bounds

/-!
# Lengths of loops bound their indices

Two points of the domain are less than the length of a loop index apart in it, and the length of a
local axis is at least that of every index with the axis.
-/

namespace LoopKernel.Kernel

variable {k : Kernel} {iname : String} {length : Int} {lengths : List Int}

/-- The length of a loop index is its static size in the domain. -/
theorem staticSize_of_inameLength (h : k.inameLength iname = .ok length) :
    k.domain.staticSize iname = .ok length := by
  unfold inameLength at h
  split at h
  · exact Attempt.mapCause_eq_ok.mp h
  · simp at h

/-- Two points are less than the length of a loop index apart in it. -/
theorem sub_lt_of_inameLength (h : k.inameLength iname = .ok length) {x y : String → Int}
    (hx : k.domain.Holds x) (hy : k.domain.Holds y) : x iname - y iname < length :=
  Polyhedron.sub_lt_of_staticSize (staticSize_of_inameLength h) hx hy

/-- An axis that is raised is at least as long as asked for. -/
private theorem exists_raiseAxis_self (lengths : List Int) (axis : Nat) (length : Int) :
    ∃ l, (raiseAxis lengths axis length)[axis]? = some l ∧ length ≤ l := by
  have hlt : axis < (lengths ++ List.replicate (axis + 1 - lengths.length) 1).length := by
    rw [List.length_append, List.length_replicate]
    omega
  rw [raiseAxis, List.getElem?_modify_eq, List.getElem?_eq_getElem hlt]
  exact ⟨_, rfl, le_max_left _ _⟩

/-- No axis gets shorter when one is raised. -/
private theorem exists_raiseAxis_of_some {a : Nat} {l : Int} (h : lengths[a]? = some l)
    (axis : Nat) (length : Int) : ∃ l', (raiseAxis lengths axis length)[a]? = some l' ∧ l ≤ l' := by
  obtain ⟨hlt, -⟩ := List.getElem?_eq_some_iff.mp h
  have hsame : (lengths ++ List.replicate (axis + 1 - lengths.length) 1)[a]? = some l := by
    rw [List.getElem?_append_left hlt, h]
  rw [raiseAxis, List.getElem?_modify, hsame]
  refine ⟨if axis = a then max length l else l, rfl, ?_⟩
  split
  · exact le_max_right _ _
  · exact le_rfl

/-- A local axis is at least as long as every index with the axis. -/
theorem exists_of_localAxisLengths (h : k.localAxisLengths = .ok lengths) {axis : Nat}
    (htag : k.tags.get? iname = some (.localAxis axis)) :
    ∃ length l, k.inameLength iname = .ok length ∧ lengths[axis]? = some l ∧ length ≤ l := by
  have hall : ∀ e ∈ k.tags.entries, ∀ axis, e.2 = .localAxis axis →
      ∃ length l, k.inameLength e.1 = .ok length ∧ lengths[axis]? = some l ∧ length ≤ l := by
    apply Attempt.foldlM_induction (P := fun done (lengths : List Int) => ∀ e ∈ done, ∀ axis,
      e.2 = .localAxis axis → ∃ length l, k.inameLength e.1 = .ok length ∧
        lengths[axis]? = some l ∧ length ≤ l) _ _ h
    · exact fun e he => absurd he List.not_mem_nil
    · rintro done lengths ⟨other, tag⟩ next - hdone hnext e he axis htag
      simp only [addAxisLength] at hnext
      rcases List.mem_append.mp he with hold | hnew
      · obtain ⟨length, l, hlength, hl, hle⟩ := hdone e hold axis htag
        split at hnext
        · rw [Attempt.bind_eq_ok] at hnext
          obtain ⟨raised, -, hnext⟩ := hnext
          split at hnext
          · rw [Attempt.pure_eq_ok] at hnext
            obtain ⟨l', hl', hle'⟩ := exists_raiseAxis_of_some hl _ raised
            exact ⟨length, l', hlength, hnext ▸ hl', hle.trans hle'⟩
          · simp at hnext
        · rw [Attempt.pure_eq_ok] at hnext
          exact ⟨length, l, hlength, hnext ▸ hl, hle⟩
      · rw [List.mem_singleton.mp hnew] at htag ⊢
        obtain rfl : tag = .localAxis axis := htag
        rw [Attempt.bind_eq_ok] at hnext
        obtain ⟨length, hlength, hnext⟩ := hnext
        split at hnext
        · rw [Attempt.pure_eq_ok] at hnext
          obtain ⟨l, hl, hle⟩ := exists_raiseAxis_self lengths axis length
          exact ⟨length, l, hlength, hnext ▸ hl, hle⟩
        · simp at hnext
  exact hall _ (SortedMap.mem_entries.mpr htag) axis rfl

end LoopKernel.Kernel
