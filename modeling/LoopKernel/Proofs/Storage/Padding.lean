import LoopKernel.Proofs.Checked
import LoopKernel.Proofs.SortedMap
import LoopKernel.Proofs.Source.WellFormed
import LoopKernel.Proofs.WellFormed.Attributes
import LoopKernel.Storage.Padding
import Mathlib.Algebra.Order.BigOperators.GroupWithZero.List
import Mathlib.Algebra.Order.Ring.Int

/-!
# Padded layouts fit

Every temporary gets a layout: its shape, with the last extent of some local temporaries increased
by less than half of it. Paddings are chosen one after the other, each against the present sizes of
all other local temporaries, and once there is one the local temporaries stay below the size of
local memory together.
-/

namespace LoopKernel

/-! ## Sizes -/

/-- The number of elements of a shape, when it has one, is the product of its extents, where
negative ones count as zero. -/
theorem elementCount_eq_prod {shape : List Int} {n : Nat} (h : elementCount shape = .ok n) :
    n = (shape.map Int.toNat).prod := by
  have general : ∀ (shape : List Int) (start n : Nat),
      shape.foldlM (fun product n => checkUnsigned 64 (product * n.toNat)) start = .ok n →
      n = start * (shape.map Int.toNat).prod := by
    intro shape
    induction shape with
    | nil =>
      intro start n h
      rw [List.foldlM_nil, Attempt.pure_eq_ok] at h
      rw [h, List.map_nil, List.prod_nil, mul_one]
    | cons extent rest ih =>
      intro start n h
      rw [List.foldlM_cons, Attempt.bind_eq_ok] at h
      obtain ⟨next, hnext, h⟩ := h
      obtain ⟨-, rfl⟩ := checkUnsigned_eq_ok.mp hnext
      rw [ih _ n h, List.map_cons, List.prod_cons, mul_assoc]
  rw [general shape 1 n h, one_mul]

/-- The number of elements of a shape with positive extents is their product. -/
theorem elementCount_eq_ok {shape : List Int} {n : Nat} (hpos : ∀ extent ∈ shape, 0 < extent)
    (h : elementCount shape = .ok n) : (n : Int) = shape.prod := by
  rw [elementCount_eq_prod h]
  clear h
  induction shape with
  | nil => rfl
  | cons extent rest ih =>
    rw [List.forall_mem_cons] at hpos
    rw [List.map_cons, List.prod_cons, List.prod_cons, Nat.cast_mul, ih hpos.2,
      Int.toNat_of_nonneg hpos.1.le]

namespace Temporary

/-- The exact number of bytes of the layout. -/
def byteCount (t : Temporary) : Nat := t.dtype.itemsize * t.layout.prod.toNat

/-- A product of positive extents that fits in a word is computed. -/
private theorem foldlM_check64 {shape : List Int} {start : Int}
    (hpos : ∀ extent ∈ shape, 0 < extent) (hstart : 0 < start)
    (hfits : start * shape.prod ≤ WordRange.signed64.greatest) :
    shape.foldlM (fun product n => check64 (product * n)) start = .ok (start * shape.prod) := by
  induction shape generalizing start with
  | nil =>
    rw [List.foldlM_nil, List.prod_nil, mul_one]
    rfl
  | cons extent rest ih =>
    have hextent := hpos extent List.mem_cons_self
    have hrest : ∀ e ∈ rest, 0 < e := fun e he => hpos e (List.mem_cons_of_mem extent he)
    have hproduct : 1 ≤ rest.prod := List.prod_pos hrest
    have hnext : 0 < start * extent := mul_pos hstart hextent
    rw [List.prod_cons, ← mul_assoc] at hfits ⊢
    have hle : start * extent ≤ start * extent * rest.prod :=
      le_mul_of_one_le_right hnext.le hproduct
    have hcheck : check64 (start * extent) = .ok (start * extent) := by
      refine WordRange.check_eq_ok.mpr ⟨⟨?_, hle.trans hfits⟩, rfl⟩
      exact le_trans (by decide) hnext.le
    rw [List.foldlM_cons, hcheck]
    exact ih hrest hnext hfits

/-- The bytes that are computed are counted exactly. -/
theorem bytes_eq_ok {t : Temporary} {n : Nat} (h : t.bytes = .ok n) : n = t.byteCount := by
  have general : ∀ (shape : List Int) (start product : Int),
      shape.foldlM (fun product n => check64 (product * n)) start = .ok product →
      product = start * shape.prod := by
    intro shape
    induction shape with
    | nil =>
      intro start product h
      rw [List.foldlM_nil, Attempt.pure_eq_ok] at h
      rw [← h, List.prod_nil, mul_one]
    | cons extent rest ih =>
      intro start product h
      rw [List.foldlM_cons, Attempt.bind_eq_ok] at h
      obtain ⟨next, hnext, h⟩ := h
      obtain ⟨-, rfl⟩ := WordRange.check_eq_ok.mp hnext
      rw [ih _ _ h, List.prod_cons, mul_assoc]
  unfold bytes at h
  rw [Attempt.bind_eq_ok] at h
  obtain ⟨elements, helements, h⟩ := h
  obtain ⟨-, rfl⟩ := checkUnsigned_eq_ok.mp h
  rw [general _ _ _ helements, one_mul, byteCount]

/-- The bytes of a layout with positive extents are computed when their number fits in a word. -/
theorem bytes_of_lt {t : Temporary} (hpos : ∀ extent ∈ t.layout, 0 < extent)
    (h : t.byteCount < 1 <<< 64) : t.bytes = .ok t.byteCount := by
  have hproduct : 0 < t.layout.prod := List.prod_pos hpos
  have hsize := t.dtype.four_le_itemsize
  have hlt : 4 * t.layout.prod.toNat < 1 <<< 64 :=
    (Nat.mul_le_mul_right _ hsize).trans_lt h
  have hfits : 1 * t.layout.prod ≤ WordRange.signed64.greatest := by
    have hbound : (WordRange.signed64.greatest : Int) = 9223372036854775807 := by decide
    have hword : (1 <<< 64 : Nat) = 18446744073709551616 := by decide
    omega
  unfold bytes
  rw [foldlM_check64 hpos one_pos hfits, one_mul]
  exact checkUnsigned_eq_ok.mpr ⟨h, rfl⟩

end Temporary

/-- The bytes of several temporaries are added up exactly when those of each are computed and the
sum fits in a word. -/
theorem foldlM_bytes_eq_ok {l : List Temporary} {start total : Nat} (hstart : start < 1 <<< 64) :
    l.foldlM (fun total t => do checkUnsigned 64 (total + (← t.bytes))) start =
        (.ok total : Checked Nat) ↔
      (∀ t ∈ l, t.bytes = .ok t.byteCount) ∧
        start + (l.map Temporary.byteCount).sum < 1 <<< 64 ∧
        start + (l.map Temporary.byteCount).sum = total := by
  induction l generalizing start with
  | nil =>
    rw [List.foldlM_nil, Attempt.pure_eq_ok, List.map_nil, List.sum_nil, Nat.add_zero]
    exact ⟨fun h => ⟨fun t ht => absurd ht List.not_mem_nil, hstart, h⟩, fun h => h.2.2⟩
  | cons t rest ih =>
    rw [List.foldlM_cons, Attempt.bind_eq_ok]
    simp only [Attempt.bind_eq_ok, checkUnsigned_eq_ok, List.forall_mem_cons, List.map_cons,
      List.sum_cons]
    constructor
    · rintro ⟨next, ⟨bytes, hbytes, hnext, rfl⟩, hrest⟩
      obtain rfl := Temporary.bytes_eq_ok hbytes
      obtain ⟨hall, hsum, htotal⟩ := (ih hnext).mp hrest
      rw [Nat.add_assoc] at hsum htotal
      exact ⟨⟨hbytes, hall⟩, hsum, htotal⟩
    · rintro ⟨⟨hbytes, hall⟩, hsum, htotal⟩
      rw [← Nat.add_assoc] at hsum htotal
      have hnext : start + t.byteCount < 1 <<< 64 := (Nat.le_add_right _ _).trans_lt hsum
      exact ⟨_, ⟨_, hbytes, hnext, rfl⟩, (ih hnext).mpr ⟨hall, hsum, htotal⟩⟩

/-! ## Paddings -/

/-- Whether a layout is a shape with the last extent increased by less than half of it. -/
def Grows (shape layout : List Int) : Prop :=
  ∃ init last increment, shape = init ++ [last] ∧ layout = init ++ [last + increment] ∧
    0 < increment ∧ increment < last / 2

/-- A padded layout has positive extents where the shape has. -/
theorem Grows.pos {shape layout : List Int} (h : Grows shape layout)
    (hpos : ∀ extent ∈ shape, 0 < extent) : ∀ extent ∈ layout, 0 < extent := by
  obtain ⟨init, last, increment, rfl, rfl, hincrement, -⟩ := h
  intro extent hextent
  rcases List.mem_append.mp hextent with hinit | hlast
  · exact hpos extent (List.mem_append_left _ hinit)
  · have := hpos last (List.mem_append_right _ List.mem_cons_self)
    rw [List.mem_singleton.mp hlast]
    omega

/-- A layout is all of it but the last extent, and the last extent. -/
theorem dropLast_concat_getLastD {layout : List Int} (hne : layout ≠ []) :
    layout.dropLast ++ [layout.getLastD 0] = layout := by
  rw [List.getLastD_eq_getLast?, List.getLast?_eq_some_getLast hne, Option.getD_some,
    List.dropLast_append_getLast]

/-- Padding increases the last extent. -/
theorem padLast_eq_ok {layout padded : List Int} {increment : Int} (hne : layout ≠ [])
    (h : padLast layout increment = .ok padded) :
    padded = layout.dropLast ++ [layout.getLastD 0 + increment] := by
  induction layout generalizing padded with
  | nil => exact absurd rfl hne
  | cons n rest ih =>
    cases rest with
    | nil =>
      simp only [padLast, Attempt.bind_eq_ok, WordRange.check_eq_ok, Attempt.pure_eq_ok] at h
      obtain ⟨_, ⟨-, rfl⟩, rfl⟩ := h
      rfl
    | cons m rest =>
      simp only [padLast, Attempt.bind_eq_ok, Attempt.pure_eq_ok] at h
      obtain ⟨tail, htail, rfl⟩ := h
      rw [ih (by simp) htail]
      rfl

/-- Whether a padding leaves a layout as it is, or increases its last extent so that the elements
fit in what is left of local memory. -/
def Padding.Fits (device : Device) (others : Nat) (t : Temporary) (layout : List Int)
    (p : Padding) : Prop :=
  p.layout = layout ∨ Grows layout p.layout ∧ ∃ elements, elementCount p.layout = .ok elements ∧
    others + t.dtype.itemsize * elements < device.usableMemory ∧
    others + t.dtype.itemsize * elements < 1 <<< 64

variable {device : Device} {others : Nat} {t : Temporary} {layout : List Int} {best next : Padding}

/-- What trying an increment does: nothing unless it lowers the number of conflicts, and then it is
taken if the elements fit in what is left of local memory. -/
theorem tryPadding_eq_ok {increment : Int} :
    Kernel.tryPadding device others t layout best increment = .ok next ↔
      ∃ padded found, padLast layout increment = .ok padded ∧
        device.localConflict t.dtype.itemsize t.shape padded = .ok found ∧
        (conflictMultiplier best.conflict ≤ conflictMultiplier found ∧ next = best ∨
          conflictMultiplier found < conflictMultiplier best.conflict ∧
          ∃ elements, elementCount padded = .ok elements ∧
            others + t.dtype.itemsize * elements < 1 <<< 64 ∧
            (device.usableMemory ≤ others + t.dtype.itemsize * elements ∧
                next = { best with overBudget := true } ∨
              others + t.dtype.itemsize * elements < device.usableMemory ∧
                next = ⟨padded, found, some increment, best.overBudget⟩)) := by
  unfold Kernel.tryPadding
  simp only [Attempt.bind_eq_ok]
  refine exists_congr fun padded => ?_
  rw [exists_and_left]
  refine and_congr_right fun _ => exists_congr fun found => and_congr_right fun _ => ?_
  by_cases hle : conflictMultiplier best.conflict ≤ conflictMultiplier found
  · rw [if_pos hle, Attempt.pure_eq_ok]
    simp [hle, Nat.not_lt.mpr hle, eq_comm]
  · rw [if_neg hle]
    simp only [hle, Nat.lt_of_not_le hle, false_and, false_or, true_and, Attempt.bind_eq_ok,
      checkUnsigned_eq_ok]
    refine exists_congr fun elements => and_congr_right fun _ => ?_
    constructor
    · rintro ⟨_, ⟨-, rfl⟩, _, ⟨htotal, rfl⟩, h⟩
      refine ⟨htotal, ?_⟩
      split at h
      · next hover => exact .inl ⟨hover, (Attempt.pure_eq_ok.mp h).symm⟩
      · next hfits => exact .inr ⟨Nat.lt_of_not_le hfits, (Attempt.pure_eq_ok.mp h).symm⟩
    · rintro ⟨htotal, h⟩
      refine ⟨_, ⟨(Nat.le_add_left _ _).trans_lt htotal, rfl⟩, _, ⟨htotal, rfl⟩, ?_⟩
      rcases h with ⟨hover, rfl⟩ | ⟨hfits, rfl⟩
      · rw [if_pos hover]
        rfl
      · rw [if_neg (Nat.not_le.mpr hfits)]
        rfl

/-- Trying an increment below half of the last extent gives a padding that fits. -/
theorem Padding.Fits.tryPadding {increment : Int} (h : best.Fits device others t layout)
    (hne : layout ≠ []) (hpos : 0 < increment) (hhalf : increment < layout.getLastD 0 / 2)
    (hnext : Kernel.tryPadding device others t layout best increment = .ok next) :
    next.Fits device others t layout := by
  obtain ⟨padded, found, hpadded, -, ⟨-, rfl⟩ | ⟨-, elements, helements, htotal,
    ⟨-, rfl⟩ | ⟨hfits, rfl⟩⟩⟩ := tryPadding_eq_ok.mp hnext
  · exact h
  · exact h
  · exact .inr ⟨⟨layout.dropLast, layout.getLastD 0, increment,
      (dropLast_concat_getLastD hne).symm, padLast_eq_ok hne hpadded, hpos, hhalf⟩,
      elements, helements, hfits, htotal⟩

/-- Trying several increments below half of the last extent gives a padding that fits. -/
theorem Padding.Fits.tryPaddings {count : Nat} {increment : Int}
    (h : best.Fits device others t layout) (hne : layout ≠ []) (hpos : 0 < increment)
    (hhalf : increment + count ≤ layout.getLastD 0 / 2)
    (hnext : Kernel.tryPaddings device others t layout count increment best = .ok next) :
    next.Fits device others t layout := by
  induction count generalizing increment best with
  | zero =>
    rw [Kernel.tryPaddings, Attempt.pure_eq_ok] at hnext
    exact hnext ▸ h
  | succ count ih =>
    rw [Kernel.tryPaddings, Attempt.bind_eq_ok] at hnext
    obtain ⟨middle, hmiddle, hnext⟩ := hnext
    push_cast at hhalf
    exact ih (h.tryPadding hne hpos (by omega) hmiddle) (by omega) (by omega) hnext

/-- The padding that is chosen fits. -/
theorem fits_bestPadding {p : Padding} (hne : layout ≠ [])
    (h : Kernel.bestPadding device others t layout = .ok p) : p.Fits device others t layout := by
  unfold Kernel.bestPadding at h
  rw [Attempt.bind_eq_ok] at h
  obtain ⟨conflict, -, h⟩ := h
  by_cases hroom : 1 < layout.getLastD 0 / 2
  · exact Padding.Fits.tryPaddings (.inl rfl) hne one_pos (by omega) h
  · -- There is no increment to try.
    have hcount : (layout.getLastD 0 / 2 - 1).toNat = 0 := by omega
    rw [hcount, Kernel.tryPaddings, Attempt.pure_eq_ok] at h
    exact h ▸ .inl rfl

/-! ## Local memory -/

namespace Kernel

/-- Whether temporaries are stored under their own names. -/
def NamesTemporaries (k : Kernel) : Prop :=
  ∀ n t, k.temporaries.get? n = some t → t.name = n

/-- The temporaries in local memory that are stored under other names than a given one. -/
def otherLocals (k : Kernel) (name : String) : List Temporary :=
  (k.temporaries.erase name).values.filter Temporary.isLocal

/-- The local temporaries with another name are those stored under other names. -/
theorem filter_values_eq_otherLocals {k : Kernel} (hk : k.NamesTemporaries) (name : String) :
    (k.temporaries.values.filter fun t => t.isLocal && t.name != name) = k.otherLocals name := by
  unfold otherLocals SortedMap.erase SortedMap.filter SortedMap.values
  rw [List.filter_map, List.filter_map, List.filter_filter]
  congr 1
  apply List.filter_congr
  rintro ⟨n, t⟩ hentry
  have hname := hk n t (SortedMap.mem_entries.mp hentry)
  by_cases hn : n = name
  · simp [Function.comp, hname, hn]
  · simp [Function.comp, hname, hn, Ne.symm hn]

/-- The local temporaries after one of them is set. -/
theorem perm_locals_insert (k : Kernel) (name : String) (t : Temporary) :
    ((k.temporaries.insert name t).values.filter Temporary.isLocal).Perm
      ((if t.isLocal then [t] else []) ++ k.otherLocals name) := by
  have hperm := ((SortedMap.perm_entries_insert k.temporaries name t).map Prod.snd).filter
    Temporary.isLocal
  rw [List.map_cons, List.filter_cons] at hperm
  split at hperm
  · next hlocal =>
    rw [if_pos hlocal]
    exact hperm
  · next hlocal =>
    rw [if_neg hlocal]
    exact hperm

/-- The bytes in local memory after a temporary is set are its own, if it is local, and those of the
others. -/
theorem localBytes_insert {k : Kernel} {name : String} {t : Temporary} {total : Nat} :
    ({ k with temporaries := k.temporaries.insert name t } : Kernel).localBytes = .ok total ↔
      (t.isLocal → t.bytes = .ok t.byteCount) ∧
      (∀ other ∈ k.otherLocals name, other.bytes = .ok other.byteCount) ∧
      (if t.isLocal then t.byteCount else 0) +
          ((k.otherLocals name).map Temporary.byteCount).sum = total ∧ total < 1 <<< 64 := by
  have hperm := perm_locals_insert k name t
  unfold localBytes
  rw [foldlM_bytes_eq_ok (by decide), Nat.zero_add, (hperm.map Temporary.byteCount).sum_eq]
  simp only [hperm.mem_iff]
  cases t.isLocal with
  | true =>
    simp only [if_true, List.singleton_append, List.forall_mem_cons, List.map_cons, List.sum_cons,
      true_implies]
    constructor
    · rintro ⟨⟨ht, hothers⟩, hlt, rfl⟩
      exact ⟨ht, hothers, rfl, hlt⟩
    · rintro ⟨ht, hothers, rfl, hlt⟩
      exact ⟨⟨ht, hothers⟩, hlt, rfl⟩
  | false =>
    simp only [Bool.false_eq_true, if_false, List.nil_append, false_implies, true_and, Nat.zero_add]
    constructor
    · rintro ⟨hothers, hlt, rfl⟩
      exact ⟨hothers, rfl, hlt⟩
    · rintro ⟨hothers, rfl, hlt⟩
      exact ⟨hothers, hlt, rfl⟩

/-! ## Layouts -/

/-- Whether there is a padded temporary in local memory. -/
def HasPadding (k : Kernel) : Prop :=
  ∃ n t, k.temporaries.get? n = some t ∧ t.isLocal = true ∧ t.layout ≠ t.shape

variable {k k' : Kernel} {name : String} {t : Temporary} {layout : List Int}
  {problems : List Diagnostic}

/-- The layout that is chosen is the shape, or a padded one that fits in what the other temporaries
leave of local memory. -/
theorem chooseLayout_eq_ok (hstorage : t.storageShape = none)
    (h : k.chooseLayout name t = .ok (layout, problems)) :
    layout = t.shape ∨ t.isLocal = true ∧ k.device.memoryKind = .dedicated ∧
      ∃ others, k.otherLocalBytes name = .ok others ∧ Grows t.shape layout ∧
        ∃ elements, elementCount layout = .ok elements ∧
          others + t.dtype.itemsize * elements < k.device.usableMemory ∧
          others + t.dtype.itemsize * elements < 1 <<< 64 := by
  have hlayout : t.layout = t.shape := by rw [Temporary.layout, hstorage, Option.getD_none]
  unfold chooseLayout at h
  split at h
  · rw [Attempt.pure_eq_ok, Prod.mk.injEq] at h
    exact .inl h.1.symm
  · next hlocal =>
    rw [Bool.not_eq_true', Bool.not_eq_false] at hlocal
    rw [hlayout] at h
    split at h
    · rw [Attempt.pure_eq_ok, Prod.mk.injEq] at h
      exact .inl h.1.symm
    · rw [Attempt.pure_eq_ok, Prod.mk.injEq] at h
      exact .inl h.1.symm
    · next hshape =>
      rw [Attempt.pure_eq_ok, Prod.mk.injEq] at h
      exact .inl (hshape ▸ h.1.symm)
    · next hkind hne =>
      simp only [Attempt.bind_eq_ok, Attempt.pure_eq_ok, Prod.mk.injEq] at h
      obtain ⟨others, hothers, p, hp, rfl, -⟩ := h
      rcases fits_bestPadding (fun he => hne he) hp with hsame | ⟨hgrows, hfits⟩
      · exact .inl hsame
      · exact .inr ⟨hlocal, hkind, others, hothers, hgrows, hfits⟩

/-- Laying out a temporary as it is changes no size. -/
private theorem localBytes_insert_shape {total : Nat} (hget : k.temporaries.get? name = some t)
    (hstorage : t.storageShape = none) (h : k.localBytes = .ok total) :
    ({ k with temporaries := k.temporaries.insert name { t with storageShape := some t.shape } } :
      Kernel).localBytes = .ok total := by
  have hlayout : t.layout = t.shape := by rw [Temporary.layout, hstorage, Option.getD_none]
  have hcount : ({ t with storageShape := some t.shape } : Temporary).byteCount = t.byteCount := by
    unfold Temporary.byteCount
    rw [hlayout]
    rfl
  have hbytes : ({ t with storageShape := some t.shape } : Temporary).bytes = t.bytes := by
    unfold Temporary.bytes
    rw [hlayout]
    rfl
  have hsame : ({ k with temporaries := k.temporaries.insert name t } : Kernel) = k := by
    rw [SortedMap.insert_of_get?_some hget]
  rw [← hsame] at h
  rw [localBytes_insert, hbytes, hcount]
  exact localBytes_insert.mp h

/-- Laying out a temporary as it is pads none. -/
private theorem HasPadding.of_insert_shape
    (h : HasPadding { k with
      temporaries := k.temporaries.insert name { t with storageShape := some t.shape } }) :
    k.HasPadding := by
  obtain ⟨n, u, hu, hlocal, hne⟩ := h
  rw [SortedMap.get?_insert] at hu
  split at hu
  · cases hu
    exact absurd rfl hne
  · exact ⟨n, u, hu, hlocal, hne⟩

/-- With a padded layout, a local temporary takes its elements on top of what the others take. -/
private theorem localBytes_insert_padded {others elements : Nat} (hnamed : k.NamesTemporaries)
    (hlocal : t.isLocal = true) (hothers : k.otherLocalBytes name = .ok others)
    (hpos : ∀ extent ∈ layout, 0 < extent) (helements : elementCount layout = .ok elements)
    (hword : others + t.dtype.itemsize * elements < 1 <<< 64) :
    ({ k with temporaries := k.temporaries.insert name { t with storageShape := some layout } } :
      Kernel).localBytes = .ok (others + t.dtype.itemsize * elements) := by
  unfold otherLocalBytes at hothers
  rw [filter_values_eq_otherLocals hnamed, foldlM_bytes_eq_ok (by decide), Nat.zero_add] at hothers
  obtain ⟨hall, -, hsum⟩ := hothers
  have hcount : (elements : Int) = layout.prod := elementCount_eq_ok hpos helements
  have hbytes : ({ t with storageShape := some layout } : Temporary).byteCount =
      t.dtype.itemsize * elements := by
    rw [Temporary.byteCount]
    show t.dtype.itemsize * layout.prod.toNat = _
    rw [← hcount, Int.toNat_natCast]
  refine localBytes_insert.mpr ⟨fun _ => ?_, hall, ?_, hword⟩
  · exact Temporary.bytes_of_lt hpos (hbytes ▸ (Nat.le_add_left _ _).trans_lt hword)
  · rw [if_pos hlocal, hbytes, hsum, Nat.add_comm]

/-- What holds while layouts are chosen: some temporaries are still to be laid out, all others are,
and as soon as there is a padded one, the local ones are below the size of local memory. -/
structure PartlyLaidOut (k c : Kernel) (names : List String) : Prop where
  same : c = { k with temporaries := c.temporaries }
  contains : ∀ n, c.temporaries.contains n = k.temporaries.contains n
  pending : ∀ n ∈ names, c.temporaries.get? n = k.temporaries.get? n
  chosen : ∀ n ∉ names, ∀ t, k.temporaries.get? n = some t → ∃ layout,
    c.temporaries.get? n = some { t with storageShape := some layout } ∧
      (layout = t.shape ∨
        t.isLocal = true ∧ k.device.memoryKind = .dedicated ∧ Grows t.shape layout)
  named : c.NamesTemporaries
  budget : c.HasPadding → ∃ total, c.localBytes = .ok total ∧ total < k.device.usableMemory

namespace PartlyLaidOut

variable {c : Kernel} {rest : List String}

/-- Choosing a layout keeps the local temporaries below the size of local memory. -/
theorem budget_insert (hc : PartlyLaidOut k c (name :: rest))
    (ht : k.temporaries.get? name = some t) (hstorage : t.storageShape = none)
    (hpos : ∀ extent ∈ t.shape, 0 < extent)
    (h : c.chooseLayout name t = .ok (layout, problems)) :
    let next : Kernel := { c with
      temporaries := c.temporaries.insert name { t with storageShape := some layout } }
    next.HasPadding → ∃ total, next.localBytes = .ok total ∧ total < k.device.usableMemory := by
  intro next hpadding
  have hdevice : c.device = k.device := by rw [hc.same]
  have hget : c.temporaries.get? name = some t := (hc.pending name List.mem_cons_self).trans ht
  rcases chooseLayout_eq_ok hstorage h with rfl | ⟨hlocal, -, others, hothers, hgrows, elements,
      helements, hfits, hword⟩
  · obtain ⟨total, htotal, hlt⟩ := hc.budget (HasPadding.of_insert_shape hpadding)
    exact ⟨total, localBytes_insert_shape hget hstorage htotal, hlt⟩
  · exact ⟨others + t.dtype.itemsize * elements, localBytes_insert_padded hc.named hlocal hothers
      (hgrows.pos hpos) helements hword, hdevice ▸ hfits⟩

/-- Choosing the layout of the next temporary. -/
theorem insert (hc : PartlyLaidOut k c (name :: rest)) (hnodup : name ∉ rest)
    (ht : k.temporaries.get? name = some t) (hstorage : t.storageShape = none)
    (hpos : ∀ extent ∈ t.shape, 0 < extent)
    (h : c.chooseLayout name t = .ok (layout, problems)) :
    PartlyLaidOut k { c with
      temporaries := c.temporaries.insert name { t with storageShape := some layout } } rest where
  same := by rw [hc.same]
  contains n := by
    have hname : k.temporaries.contains name = true := SortedMap.contains_iff.mpr ⟨t, ht⟩
    rw [SortedMap.contains_insert, hc.contains]
    by_cases hn : n = name
    · simp [hn, hname]
    · simp [hn]
  pending n hn := by
    have hne : n ≠ name := fun he => hnodup (he ▸ hn)
    rw [SortedMap.get?_insert, if_neg hne]
    exact hc.pending n (List.mem_cons_of_mem name hn)
  chosen n hn u hu := by
    by_cases he : n = name
    · subst he
      obtain rfl := Option.some.inj (ht.symm.trans hu)
      refine ⟨layout, by rw [SortedMap.get?_insert, if_pos rfl], ?_⟩
      have hdevice : c.device = k.device := by rw [hc.same]
      rcases chooseLayout_eq_ok hstorage h with hsame | ⟨hlocal, hkind, _, -, hgrows, -⟩
      · exact .inl hsame
      · exact .inr ⟨hlocal, hdevice ▸ hkind, hgrows⟩
    · rw [SortedMap.get?_insert, if_neg he]
      exact hc.chosen n (fun hm => (List.mem_cons.mp hm).elim he hn) u hu
  named n u hu := by
    rw [SortedMap.get?_insert] at hu
    split at hu
    · next hn =>
      cases hu
      have hget := (hc.pending name List.mem_cons_self).trans ht
      exact (hc.named name t hget).trans hn.symm
    · exact hc.named n u hu
  budget := hc.budget_insert ht hstorage hpos h

/-- Choosing the layouts of all temporaries that are pending. -/
theorem chooseLayouts (hc : PartlyLaidOut k c rest) (hnodup : rest.Nodup)
    (hextents : ∀ n t, k.temporaries.get? n = some t →
      t.storageShape = none ∧ ∀ extent ∈ t.shape, 0 < extent)
    (h : chooseLayouts rest c = .ok (k', problems)) : PartlyLaidOut k k' [] := by
  refine (chooseLayouts_induction (P := fun names c => PartlyLaidOut k c names ∧ names.Nodup) h
    ⟨hc, hnodup⟩ ?_ ?_).1
  · rintro name rest c ⟨hc, hnodup⟩ hnone
    have hget := hc.pending name List.mem_cons_self
    refine ⟨⟨hc.same, hc.contains, fun n hn => hc.pending n (List.mem_cons_of_mem name hn),
      fun n hn t ht => ?_, hc.named, hc.budget⟩, hnodup.of_cons⟩
    by_cases he : n = name
    · rw [he, ← hget, hnone] at ht
      cases ht
    · exact hc.chosen n (fun hm => (List.mem_cons.mp hm).elim he hn) t ht
  · rintro name rest c t layout ⟨hc, hnodup⟩ ht ⟨_, hlayout⟩
    obtain ⟨hname, hrest⟩ := List.nodup_cons.mp hnodup
    have hbefore := (hc.pending name List.mem_cons_self).symm.trans ht
    obtain ⟨hstorage, hpos⟩ := hextents name t hbefore
    exact ⟨hc.insert hname hbefore hstorage hpos hlayout, hrest⟩

end PartlyLaidOut

/-- Every temporary of a kernel without layouts gets one, and padding keeps the local ones below the
size of local memory. -/
theorem layouts_adjustStorage (hnames : k.NamesTemporaries)
    (hextents : ∀ n t, k.temporaries.get? n = some t →
      t.storageShape = none ∧ ∀ extent ∈ t.shape, 0 < extent)
    (h : k.adjustStorage = .ok (k', problems)) :
    k' = { k with temporaries := k'.temporaries } ∧
    (∀ n, k'.temporaries.contains n = k.temporaries.contains n) ∧
    (∀ n t, k.temporaries.get? n = some t → ∃ layout,
      k'.temporaries.get? n = some { t with storageShape := some layout } ∧
        (layout = t.shape ∨
          t.isLocal = true ∧ k.device.memoryKind = .dedicated ∧ Grows t.shape layout)) ∧
    (k'.HasPadding → ∃ total, k'.localBytes = .ok total ∧ total < k'.device.usableMemory) := by
  have hstart : PartlyLaidOut k k k.temporaries.keys := by
    refine ⟨rfl, fun n => rfl, fun n _ => rfl, fun n hn t ht => ?_, hnames, ?_⟩
    · exact absurd (SortedMap.mem_keys.mpr (SortedMap.contains_iff.mpr ⟨t, ht⟩)) hn
    · rintro ⟨n, t, ht, -, hne⟩
      rw [Temporary.layout, (hextents n t ht).1, Option.getD_none] at hne
      exact absurd rfl hne
  have hdone := hstart.chooseLayouts k.temporaries.nodup_keys hextents h
  have hdevice : k'.device = k.device := by rw [hdone.same]
  exact ⟨hdone.same, hdone.contains, fun n => hdone.chosen n List.not_mem_nil,
    hdevice ▸ hdone.budget⟩

/-- Two tiles in local memory whose columns lie in few banks. -/
def tilesSource : String :=
  "domain [i, j] : 0 <= i < 32 and 0 <= j < 4\narg global float32 a[32, 4]\n" ++
    "temp float32 t[32, 4]\ntemp float32 u[32, 4]\ntag i = l.0, j = l.1\n" ++
    "insn s: t[i, j] = a[i, j]\ninsn r: u[i, j] = 2 * t[i, j]\n"

/-- The tiles are padded and stay below the size of local memory. -/
theorem layouts_adjustStorage_tiles :
    ∃ k k' problems, Source.load tilesSource .fermi = .ok k ∧
      k.markLocalTemporaries.adjustStorage = .ok (k', problems) ∧ k'.HasPadding ∧
      ∃ total, k'.localBytes = .ok total ∧ total < k'.device.usableMemory := by
  obtain ⟨k, hload, hextents, ⟨k', problems⟩, hadjust, t, ht, hlocal, hne⟩ :
      ∃ k, Source.load tilesSource .fermi = .ok k ∧
        (∀ entry ∈ k.markLocalTemporaries.temporaries.entries,
          entry.2.storageShape = none ∧ ∀ extent ∈ entry.2.shape, 0 < extent) ∧
        ∃ out, k.markLocalTemporaries.adjustStorage = .ok out ∧
          ∃ t ∈ out.1.temporaries.get? "t", t.isLocal = true ∧ t.layout ≠ t.shape := by
    decide +kernel
  have hwf := (Source.wellFormed_of_load hload).markLocalTemporaries
  have hpadding : k'.HasPadding := ⟨"t", t, ht, hlocal, hne⟩
  obtain ⟨-, -, -, hbudget⟩ := layouts_adjustStorage hwf.temporaries
    (fun n t ht => hextents (n, t) (SortedMap.mem_entries.mpr ht)) hadjust
  exact ⟨k, k', problems, hload, hadjust, hpadding, hbudget hpadding⟩

end Kernel

end LoopKernel
