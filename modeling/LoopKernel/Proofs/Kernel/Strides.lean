import LoopKernel.Kernel.Strides
import LoopKernel.Proofs.Expr.Evaluation
import Mathlib.Algebra.Order.BigOperators.GroupWithZero.List
import Mathlib.Algebra.Order.Ring.Int
import Mathlib.Data.Int.ConditionallyCompleteOrder
import Mathlib.Data.List.Lex
import Mathlib.Order.ConditionallyCompleteLattice.Indexed

/-!
# Row-major order

The stride of an axis has the product of the extents after the axis as its value. With these strides
the elements of an array lie one after the other in the lexicographic order of their indices, each
at one place: an index is the number of its element, written with the extents as radices.
-/

namespace LoopKernel

variable {extents index other values : List Int} {n i j offset : Int}

/-! ## Mixed radices -/

/-- How many elements lie before the element of an index. -/
def elementOffset (strides index : List Int) : Int :=
  (List.zipWith (· * ·) index strides).sum

/-- The indices of an array. -/
def indexBox (extents : List Int) : Set (List Int) :=
  {index | List.Forall₂ (fun i n => 0 ≤ i ∧ i < n) index extents}

/-- The products of the extents after each axis. -/
def tailProducts : List Int → List Int
  | [] => []
  | _ :: rest => rest.prod :: tailProducts rest

theorem tailProducts_cons :
    tailProducts (n :: extents) = extents.prod :: tailProducts extents := rfl

theorem elementOffset_cons : elementOffset (tailProducts (n :: extents)) (i :: index) =
    i * extents.prod + elementOffset (tailProducts extents) index :=
  List.sum_cons

/-- All elements of an index of the first axis lie before those of the next one. -/
theorem elementOffset_cons_lt (hij : i < j)
    (h : elementOffset (tailProducts extents) index ∈ Set.Ico 0 extents.prod) :
    elementOffset (tailProducts (n :: extents)) (i :: index) < j * extents.prod := by
  have hsize : 0 ≤ extents.prod := h.1.trans h.2.le
  calc
    elementOffset (tailProducts (n :: extents)) (i :: index)
        < i * extents.prod + extents.prod := by
      rw [elementOffset_cons]
      exact Int.add_lt_add_left h.2 _
    _ = (i + 1) * extents.prod := by ring
    _ ≤ j * extents.prod := mul_le_mul_of_nonneg_right hij hsize

/-- The elements lie within the size of the array. -/
theorem elementOffset_mem_Ico (h : index ∈ indexBox extents) :
    elementOffset (tailProducts extents) index ∈ Set.Ico 0 extents.prod := by
  induction h with
  | nil => exact ⟨le_refl 0, zero_lt_one⟩
  | cons hi _ ih =>
    refine ⟨?_, ?_⟩
    · rw [elementOffset_cons]
      exact add_nonneg (mul_nonneg hi.1 (ih.1.trans ih.2.le)) ih.1
    · rw [List.prod_cons]
      exact elementOffset_cons_lt hi.2 ih

/-- The elements lie in the lexicographic order of their indices. -/
theorem strictMonoOn_elementOffset :
    StrictMonoOn (elementOffset (tailProducts extents)) (indexBox extents) := by
  intro index hindex
  induction hindex with
  | nil =>
    rintro _ ⟨⟩ h
    exact absurd h (lt_irrefl _)
  | @cons i n index extents _ hindex ih =>
    intro next hnext h
    obtain ⟨j, other, -, hother, rfl⟩ := List.forall₂_cons_right_iff.mp hnext
    rcases List.cons_lt_cons_iff.mp h with hlt | ⟨rfl, hlt⟩
    · calc
        elementOffset (tailProducts (n :: extents)) (i :: index)
            < j * extents.prod := elementOffset_cons_lt hlt (elementOffset_mem_Ico hindex)
        _ ≤ elementOffset (tailProducts (n :: extents)) (j :: other) := by
          rw [elementOffset_cons]
          exact le_add_of_nonneg_right (elementOffset_mem_Ico hother).1
    · rw [elementOffset_cons, elementOffset_cons]
      exact Int.add_lt_add_left (ih hother hlt) _

/-- At each place within the size lies an element. -/
theorem exists_elementOffset_eq (hpos : ∀ n ∈ extents, 0 < n)
    (h : offset ∈ Set.Ico 0 extents.prod) :
    ∃ index ∈ indexBox extents, elementOffset (tailProducts extents) index = offset := by
  induction extents generalizing offset with
  | nil =>
    rw [List.prod_nil, Set.mem_Ico] at h
    exact ⟨[], .nil, show 0 = offset by omega⟩
  | cons n extents ih =>
    rw [List.forall_mem_cons] at hpos
    have hsize : 0 < extents.prod := List.prod_pos hpos.2
    obtain ⟨index, hindex, hrest⟩ := ih hpos.2
      ⟨Int.emod_nonneg offset hsize.ne', Int.emod_lt_of_pos offset hsize⟩
    have hquotient : offset / extents.prod < n := Int.ediv_lt_of_lt_mul hsize h.2
    refine ⟨offset / extents.prod :: index,
      .cons ⟨Int.ediv_nonneg h.1 hsize.le, hquotient⟩ hindex, ?_⟩
    rw [elementOffset_cons, hrest, mul_comm, Int.mul_ediv_add_emod]

/-- The elements of an array fill its size. -/
theorem bijOn_elementOffset (hpos : ∀ n ∈ extents, 0 < n) :
    Set.BijOn (elementOffset (tailProducts extents)) (indexBox extents)
      (Set.Ico 0 extents.prod) :=
  ⟨fun _ => elementOffset_mem_Ico, strictMonoOn_elementOffset.injOn,
    fun _ => exists_elementOffset_eq hpos⟩

/-! ## Values of strides -/

variable {env : String → Option Int} {shape : List Expr} {e stride : Expr} {x y : Int}

namespace Expr

/-- The value of a product is the product of the values. -/
theorem exists_values_of_mul (h : (stride.mul e).HasValue env n) :
    ∃ x y, stride.HasValue env x ∧ e.HasValue env y ∧ n = x * y := by
  unfold mul at h
  split at h
  · rw [HasValue, evalInt, evalProduct_eq_accumulate, accumulate_append_eq_ok] at h
    obtain ⟨x, hx, h⟩ := h
    obtain ⟨y, hy, -, h⟩ := accumulate_cons_eq_ok.mp h
    refine ⟨x, y, ?_, hy, accumulate_nil_eq_ok.mp h⟩
    rwa [HasValue, evalInt, evalProduct_eq_accumulate]
  · obtain ⟨values, hvalues, rfl⟩ := exists_values_of_product h
    obtain ⟨x, _, hx, hlast, rfl⟩ := List.forall₂_cons_left_iff.mp hvalues
    obtain ⟨y, _, hy, hnone, rfl⟩ := List.forall₂_cons_left_iff.mp hlast
    obtain rfl := List.forall₂_nil_left_iff.mp hnone
    exact ⟨x, y, hx, hy, by rw [List.prod_pair]⟩

/-- A product has a value where it and the first factor are words. -/
theorem hasValue_mul (hx : stride.HasValue env x) (hy : e.HasValue env y)
    (hword : WordRange.signed64.Holds x) (hproduct : WordRange.signed64.Holds (x * y)) :
    (stride.mul e).HasValue env (x * y) := by
  have hlast : accumulate env (· * ·) x [e] = .ok (some (x * y)) :=
    accumulate_cons_eq_ok.mpr ⟨y, hy, hproduct, rfl⟩
  unfold mul
  split
  · rw [HasValue, evalInt, evalProduct_eq_accumulate] at hx
    rw [HasValue, evalInt, evalProduct_eq_accumulate, accumulate_append_eq_ok]
    exact ⟨x, hx, hlast⟩
  · rw [HasValue, evalInt, evalProduct_eq_accumulate, accumulate_cons_eq_ok]
    refine ⟨x, hx, ?_⟩
    rw [one_mul]
    exact ⟨hword, hlast⟩

/-- The stride before an axis has the product of the stride and the extent of the axis as its
value. -/
theorem exists_values_of_strideBefore (h : (strideBefore stride e).HasValue env n) :
    ∃ x y, stride.HasValue env x ∧ e.HasValue env y ∧ n = x * y := by
  unfold strideBefore at h
  split at h
  · exact ⟨1, n, hasValue_int.mpr rfl, h, (one_mul n).symm⟩
  · exact exists_values_of_mul h

theorem hasValue_strideBefore (hx : stride.HasValue env x) (hy : e.HasValue env y)
    (hword : WordRange.signed64.Holds x) (hproduct : WordRange.signed64.Holds (x * y)) :
    (strideBefore stride e).HasValue env (x * y) := by
  unfold strideBefore
  split
  · obtain rfl := hasValue_int.mp hx
    rwa [one_mul]
  · exact hasValue_mul hx hy hword hproduct

end Expr

theorem rowMajorStrides_cons_cons (e next : Expr) (rest : List Expr) :
    ∃ stride strides, rowMajorStrides (next :: rest) = stride :: strides ∧
      rowMajorStrides (e :: next :: rest) = strideBefore stride next :: stride :: strides := by
  cases h : rowMajorStrides (next :: rest) with
  | nil =>
    unfold rowMajorStrides at h
    split at h <;> cases h
  | cons stride strides =>
    refine ⟨stride, strides, rfl, ?_⟩
    unfold rowMajorStrides
    rw [h]

/-- Strides have no other values than the products of the extents after each axis. -/
theorem values_eq_tailProducts (hshape : List.Forall₂ (Expr.HasValue env) shape extents)
    (h : List.Forall₂ (Expr.HasValue env) (rowMajorStrides shape) values) :
    values = tailProducts extents := by
  induction hshape generalizing values with
  | nil => exact List.forall₂_nil_left_iff.mp h
  | @cons e n shape extents _ hrest ih =>
    cases hrest with
    | nil =>
      obtain ⟨s, _, hs, hnone, rfl⟩ := List.forall₂_cons_left_iff.mp h
      obtain rfl := Expr.hasValue_int.mp hs
      obtain rfl := List.forall₂_nil_left_iff.mp hnone
      rfl
    | @cons next m shape extents hnext _ =>
      obtain ⟨stride, strides, hstrides, hmore⟩ := rowMajorStrides_cons_cons e next shape
      rw [hmore] at h
      rw [hstrides] at ih
      obtain ⟨s, after, hs, hafter, rfl⟩ := List.forall₂_cons_left_iff.mp h
      obtain rfl := ih hafter
      obtain ⟨x, y, hx, hy, rfl⟩ := Expr.exists_values_of_strideBefore hs
      obtain ⟨hfirst, -⟩ := List.forall₂_cons.mp hafter
      rw [hx.unique hfirst, hy.unique hnext, tailProducts_cons (n := n), List.prod_cons, mul_comm]

/-- Strides have their values while the first one is a word. -/
theorem forall₂_rowMajorStrides (hshape : List.Forall₂ (Expr.HasValue env) shape extents)
    (hpos : ∀ n ∈ extents, 0 < n) (hword : WordRange.signed64.Holds extents.tail.prod) :
    List.Forall₂ (fun e s => e.HasValue env s ∧ WordRange.signed64.Holds s)
      (rowMajorStrides shape) (tailProducts extents) := by
  induction hshape with
  | nil => exact .nil
  | @cons e n shape extents _ hrest ih =>
    rw [List.forall_mem_cons] at hpos
    cases hrest with
    | nil => exact .cons ⟨Expr.hasValue_int.mpr rfl, hword⟩ .nil
    | @cons next m shape extents hnext _ =>
      obtain ⟨stride, strides, hstrides, hmore⟩ := rowMajorStrides_cons_cons e next shape
      rw [hstrides] at ih
      rw [hmore]
      have hsize : 0 < extents.prod := List.prod_pos (List.forall_mem_cons.mp hpos.2).2
      rw [List.tail_cons, List.prod_cons] at hword
      have hpart : extents.prod ≤ m * extents.prod :=
        le_mul_of_one_le_left hsize.le (List.forall_mem_cons.mp hpos.2).1
      have hafter := ih hpos.2 ⟨le_trans (by decide) hsize.le, hpart.trans hword.2⟩
      obtain ⟨⟨hfirst, hfirstWord⟩, -⟩ := List.forall₂_cons.mp hafter
      rw [mul_comm] at hword
      refine .cons ?_ hafter
      rw [List.prod_cons, mul_comm]
      exact ⟨Expr.hasValue_strideBefore hfirst hnext hfirstWord hword, hword⟩

/-- The strides of an array have values exactly if the first one is a word. With them each element
has a place of its own, in the lexicographic order of the indices and with no place left over. -/
theorem Argument.strides_fill {arg : Argument} (harg : arg.kind = .global shape)
    (hshape : List.Forall₂ (Expr.HasValue env) shape extents) (hpos : ∀ n ∈ extents, 0 < n) :
    ∃ strides, arg.strides? = some strides ∧
      (WordRange.signed64.Holds extents.tail.prod ↔ ∃ values,
        List.Forall₂ (fun e s => e.HasValue env s ∧ WordRange.signed64.Holds s) strides values) ∧
      ∀ values, List.Forall₂ (Expr.HasValue env) strides values →
        Set.BijOn (elementOffset values) (indexBox extents) (Set.Ico 0 extents.prod) ∧
          StrictMonoOn (elementOffset values) (indexBox extents) := by
  refine ⟨rowMajorStrides shape, by rw [strides?, harg], ⟨?_, ?_⟩, fun values hvalues => ?_⟩
  · exact fun hword => ⟨_, forall₂_rowMajorStrides hshape hpos hword⟩
  · rintro ⟨values, hvalues⟩
    obtain rfl := values_eq_tailProducts hshape (hvalues.imp fun _ _ h => h.1)
    cases extents with
    | nil => decide
    | cons n extents =>
      rw [tailProducts_cons] at hvalues
      obtain ⟨_, _, ⟨-, hword⟩, -⟩ := List.forall₂_cons_right_iff.mp hvalues
      exact hword
  · obtain rfl := values_eq_tailProducts hshape hvalues
    exact ⟨bijOn_elementOffset hpos, strictMonoOn_elementOffset⟩

/-- An array of `n` by `3` by `m * 2` elements. -/
def threeAxes : Argument where
  name := "a"
  dtype := .float32
  kind := .global [.var "n", .int 3, .product [.var "m", .int 2]]

/-- With `n = m = 2` the strides are `12`, `4` and `1`, and the elements take `24` places. -/
theorem Argument.strides_fill_threeAxes :
    threeAxes.strides? = some [.product [.var "m", .int 2, .int 3],
        .product [.var "m", .int 2], .int 1] ∧
      Set.BijOn (elementOffset [12, 4, 1]) (indexBox [2, 3, 4]) (Set.Ico 0 24) ∧
      StrictMonoOn (elementOffset [12, 4, 1]) (indexBox [2, 3, 4]) := by
  have hshape : List.Forall₂ (Expr.HasValue fun _ => some 2)
      [.var "n", .int 3, .product [.var "m", .int 2]] [2, 3, 4] :=
    .cons (by decide) (.cons (by decide) (.cons (by decide) .nil))
  have hstrides : threeAxes.strides? = some [.product [.var "m", .int 2, .int 3],
      .product [.var "m", .int 2], .int 1] := by
    rfl
  have hkind : threeAxes.kind = .global [.var "n", .int 3, .product [.var "m", .int 2]] := rfl
  obtain ⟨strides, hfound, -, hfill⟩ := strides_fill hkind hshape (by decide)
  obtain rfl := Option.some.inj (hstrides.symm.trans hfound)
  exact ⟨hstrides, hfill [12, 4, 1]
    (.cons (by decide) (.cons (by decide) (.cons (by decide) .nil)))⟩

end LoopKernel
