import LoopKernel.Axis.Ranking
import LoopKernel.Proofs.NameSet
import LoopKernel.Proofs.Overflow
import LoopKernel.Source.Loading
import Mathlib.Algebra.Order.Group.Unbundled.Int
import Mathlib.Tactic.Linarith

/-!
# Rankings within machine words

A distance in bytes is the absolute value of the product of a coefficient, a stride and the size of
an element, and stays at the greatest word when it would leave the words. At the other end it has no
value: a product at or below the least word is kept at the least word, which has no absolute value.
Sums of distances never leave the words. So there is a ranking exactly if all strides have their
values and no distance comes from a product as low as the least word.
-/

namespace LoopKernel

namespace WordRange

/-! ## Products at the ends of the words -/

variable {r : WordRange} {n : Int}

theorem clamp_of_le_least (h : n ≤ r.least) : r.clamp n = r.least :=
  max_eq_left ((min_le_right _ _).trans h)

theorem clamp_of_greatest_le (hr : r.least ≤ r.greatest) (h : r.greatest ≤ n) :
    r.clamp n = r.greatest := by
  rw [clamp, min_eq_left h, max_eq_right hr]

theorem clamp_of_holds (h : r.Holds n) : r.clamp n = n := by
  rw [clamp, min_eq_right h.2, max_eq_right h.1]

/-- What is multiplied by a size may be kept within the words before that as well as after it. -/
theorem clamp_clamp_mul (hleast : r.least ≤ 0) (hgreatest : 0 ≤ r.greatest) {size : Int}
    (hsize : 0 < size) (n : Int) : r.clamp (r.clamp n * size) = r.clamp (n * size) := by
  have hlow : r.least * size ≤ r.least := by nlinarith
  have hhigh : r.greatest ≤ r.greatest * size := by nlinarith
  rcases le_total n r.least with hn | hn
  · have hbelow : n * size ≤ r.least * size := Int.mul_le_mul_of_nonneg_right hn hsize.le
    rw [clamp_of_le_least hn, clamp_of_le_least hlow, clamp_of_le_least (hbelow.trans hlow)]
  rcases le_total r.greatest n with hn' | hn'
  · have habove : r.greatest * size ≤ n * size := Int.mul_le_mul_of_nonneg_right hn' hsize.le
    have hr := hleast.trans hgreatest
    rw [clamp_of_greatest_le hr hn', clamp_of_greatest_le hr hhigh,
      clamp_of_greatest_le hr (hhigh.trans habove)]
  · rw [clamp_of_holds ⟨hn, hn'⟩]

end WordRange

/-- The absolute value of what is kept within the words, which the least word does not have. -/
theorem magnitude_clamp (n : Int) : Affine.magnitude (WordRange.signed64.clamp n) =
    if WordRange.signed64.least < n then .ok (min |n| WordRange.signed64.greatest)
    else .error .overflow := by
  have hleast : WordRange.signed64.least = -9223372036854775808 := rfl
  have hgreatest : WordRange.signed64.greatest = 9223372036854775807 := rfl
  simp only [Affine.magnitude, WordRange.check, WordRange.Holds, WordRange.clamp, hleast, hgreatest,
    Int.abs_eq_natAbs]
  by_cases hn : -9223372036854775808 < n
  · rw [if_pos (by omega), if_pos hn]
    congr 1
    omega
  · rw [if_neg (by omega), if_neg hn]

/-- The distance of neighbouring accesses, if their product is above the least word. -/
theorem strideBytes_eq {itemsize : Int} (hsize : 0 < itemsize) (coefficient stride : Int) :
    strideBytes coefficient stride itemsize =
      if WordRange.signed64.least < coefficient * stride * itemsize then
        .ok (min |coefficient * stride * itemsize| WordRange.signed64.greatest)
      else .error .overflow := by
  rw [strideBytes, saturatingMul, saturatingMul,
    WordRange.clamp_clamp_mul (by decide) (by decide) hsize, magnitude_clamp]

theorem safe_strideBytes {itemsize : Int} (hsize : 0 < itemsize) {coefficient stride : Int} :
    (strideBytes coefficient stride itemsize).Safe ↔
      WordRange.signed64.least < coefficient * stride * itemsize := by
  rw [strideBytes_eq hsize]
  split <;> simp [*, Attempt.Safe]

/-! ## Distances of an instruction -/

/-- Whether the stride of an axis has its value, and the distances that a subscript of the axis
gives to the indices in a set come from products above the least word. -/
structure DistancesFit (inames : NameSet) (env : String → Option Int) (itemsize : Nat)
    (subscript stride : Expr) : Prop where
  evaluates : (stride.evalInt env).Safe
  above : ∀ form n, subscript.toAffine? = .ok (some form) → stride.evalInt env = .ok (some n) →
    ∀ i ∈ form.vars, i ∈ inames → WordRange.signed64.least < form.coeff i * n * itemsize

namespace Kernel

variable {k : Kernel} {insn : Instruction}

/-- The distances of a subscript are noted exactly if they fit. -/
theorem safe_noteSubscript (inames : NameSet) (env : String → Option Int) {itemsize : Nat}
    (hsize : 0 < itemsize) (distances : SortedMap String Int) {subscript : Expr}
    (hform : subscript.toAffine?.Safe) (stride : Expr) :
    (noteSubscript inames env itemsize distances subscript stride).Safe ↔
      DistancesFit inames env itemsize subscript stride := by
  obtain ⟨form, hform⟩ := Attempt.exists_eq_ok_of_safe hform
  have hsize : (0 : Int) < itemsize := Int.natCast_pos.mpr hsize
  have hnoted : ∀ (f : Affine) (n : Int), Attempt.Safe ((f.vars.filter inames.contains).foldlM
      (fun distances iname => do
        pure (noteSmaller distances iname (← strideBytes (f.coeff iname) n itemsize)))
      distances) ↔
        ∀ i ∈ f.vars, i ∈ inames → WordRange.signed64.least < f.coeff i * n * itemsize := by
    intro f n
    rw [Attempt.safe_foldlM_iff (P := fun i => WordRange.signed64.least < f.coeff i * n * itemsize)]
    · simp [List.mem_filter, NameSet.contains_iff]
    · intro distances i _
      rw [Attempt.safe_bind, safe_strideBytes hsize]
      exact and_iff_left fun _ _ => Attempt.safe_pure _
  rw [noteSubscript, hform]
  change Attempt.Safe (stride.evalInt env >>= _) ↔ _
  rw [Attempt.safe_bind]
  constructor
  · rintro ⟨hvalue, hloop⟩
    refine ⟨hvalue, fun f n hf hn => (hnoted f n).mp ?_⟩
    cases hform.symm.trans hf
    exact hloop _ hn
  · intro h
    refine ⟨h.evaluates, fun value hvalue => ?_⟩
    rcases form with _ | f
    · exact Attempt.safe_pure _
    rcases value with _ | n
    · exact Attempt.safe_pure _
    · exact (hnoted f n).mpr (h.above f n hform hvalue)

/-- Whether the distances that an access gives to the indices in a set fit, if it is one to a global
array. -/
def AccessFits (k : Kernel) (inames : NameSet) (access : String × List Expr) : Prop :=
  ∀ arg strides, k.arg? access.1 = some arg → arg.strides? = some strides →
    ∀ p ∈ access.2.zip strides,
      DistancesFit inames k.approximateValues.get? arg.dtype.itemsize p.1 p.2

/-- The distances of an access are added exactly if they fit. -/
theorem safe_addAccess (k : Kernel) (inames : NameSet) (totals : SortedMap String Int)
    {access : String × List Expr} (hforms : ∀ subscript ∈ access.2, subscript.toAffine?.Safe) :
    (k.addAccess inames totals access).Safe ↔ k.AccessFits inames access := by
  unfold addAccess AccessFits
  split
  · next arg harg =>
    split
    · next strides hstrides =>
      have hsize : 0 < arg.dtype.itemsize := Nat.zero_lt_of_lt arg.dtype.four_le_itemsize
      have hloop := Attempt.safe_foldlM_iff (l := access.2.zip strides) (fun distances p hp =>
        safe_noteSubscript inames k.approximateValues.get? hsize distances
          (hforms p.1 (List.of_mem_zip hp).1) p.2) ∅
      rw [Attempt.safe_bind]
      refine (and_iff_left fun _ _ => Attempt.safe_pure _).trans (hloop.trans ?_)
      constructor
      · intro h other more hother hmore
        cases harg.symm.trans hother
        cases hstrides.symm.trans hmore
        exact h
      · exact fun h => h arg strides harg hstrides
    · next hnone =>
      refine iff_of_true (Attempt.safe_pure _) fun other strides hother hstrides => ?_
      cases harg.symm.trans hother
      exact absurd hstrides (hnone strides)
  · next hnone =>
    exact iff_of_true (Attempt.safe_pure _) fun arg _ harg => absurd harg (hnone arg)

/-- A ranking lists all indices of the instruction, each once. -/
theorem perm_of_strideRanking {ranking : List String}
    (h : k.strideRanking insn = .ok (some ranking)) : ranking.Perm (k.insnInames insn).toList := by
  rw [strideRanking, Attempt.bind_eq_ok] at h
  obtain ⟨totals, -, h⟩ := h
  simp only [Attempt.pure_eq_ok] at h
  split at h
  · cases h
  · cases h
    exact List.mergeSort_perm _ _

/-- There is a ranking exactly if the distances of all accesses to global arrays fit, however many
there are, and it lists all indices of the instruction, each once. -/
theorem exists_strideRanking_iff (k : Kernel) (insn : Instruction)
    (hforms : ∀ access ∈ accesses insn, ∀ subscript ∈ access.2, subscript.toAffine?.Safe) :
    ((∃ ranking, k.strideRanking insn = .ok ranking) ↔ ∀ access ∈ accesses insn,
      k.AccessFits ((k.insnInames insn).select fun i => (k.tag i).isAuto) access) ∧
    ∀ ranking, k.strideRanking insn = .ok (some ranking) →
      ranking.Perm (k.insnInames insn).toList := by
  refine ⟨?_, fun ranking => perm_of_strideRanking⟩
  have hstep (totals : SortedMap String Int) (access) (haccess : access ∈ accesses insn) :=
    safe_addAccess k ((k.insnInames insn).select fun i => (k.tag i).isAuto) totals
      (hforms access haccess)
  have hloop := Attempt.safe_foldlM_iff hstep ∅
  rw [← hloop, strideRanking]
  constructor
  · rintro ⟨ranking, h⟩
    obtain ⟨totals, htotals, -⟩ := Attempt.bind_eq_ok.mp h
    rw [htotals]
    exact Attempt.safe_ok totals
  · intro hsafe
    obtain ⟨totals, htotals⟩ := Attempt.exists_eq_ok_of_safe hsafe
    rw [htotals]
    exact ⟨_, rfl⟩

/-- A column that is read downwards and upwards, where a row has as many bytes as there are negative
words. -/
def widestRowsSource : String :=
  "domain [i] : 0 <= i < 4\narg global float64 a[4, 1152921504606846976]\ntag i = l.auto\n" ++
    "insn down: x = a[i, 0]\ninsn up: y = a[3 - i, 0]\n"

/-- Downwards the distance stays at the greatest word and there is a ranking, upwards it comes from
the least word and there is none. -/
theorem exists_strideRanking_iff_widestRows :
    ∃ k, Source.load widestRowsSource .fermi = .ok k ∧
      (∃ insn ∈ k.instructions, k.strideRanking insn = .ok (some ["i"]) ∧
        ∀ access ∈ accesses insn,
          k.AccessFits ((k.insnInames insn).select fun i => (k.tag i).isAuto) access) ∧
      ∃ insn ∈ k.instructions, ¬(k.strideRanking insn).Safe ∧ ¬∀ access ∈ accesses insn,
        k.AccessFits ((k.insnInames insn).select fun i => (k.tag i).isAuto) access := by
  obtain ⟨k, hload, ⟨down, hdown, hdownForms, r, hranking, hr⟩, up, hup, hupForms, hunsafe⟩ :
      ∃ k, Source.load widestRowsSource .fermi = .ok k ∧
        (∃ insn ∈ k.instructions,
          (∀ access ∈ accesses insn, ∀ subscript ∈ access.2, subscript.toAffine?.Safe) ∧
            ∃ r, k.strideRanking insn = .ok r ∧ r = some ["i"]) ∧
        ∃ insn ∈ k.instructions,
          (∀ access ∈ accesses insn, ∀ subscript ∈ access.2, subscript.toAffine?.Safe) ∧
            ¬(k.strideRanking insn).Safe := by decide +kernel
  refine ⟨k, hload, ⟨down, hdown, hr ▸ hranking, ?_⟩, up, hup, hunsafe, fun hfits => ?_⟩
  · exact (exists_strideRanking_iff k down hdownForms).1.mp ⟨r, hranking⟩
  · obtain ⟨other, hother⟩ := (exists_strideRanking_iff k up hupForms).1.mpr hfits
    exact hunsafe (hother ▸ Attempt.safe_ok other)

end Kernel

end LoopKernel
