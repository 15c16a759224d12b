import LoopKernel.Proofs.Storage.Repetition
import LoopKernel.Proofs.Storage.Writes

/-!
# The best padding

The padding of a layout is the best of those that are open to it: none, and the increments below
half of the last extent with which the elements fit in what the other local temporaries leave of
local memory. It has the fewest conflicts, and it is the smallest one with so few. Conflicts that it
leaves are reported.
-/

namespace LoopKernel

/-- A layout with its last extent increased. -/
def paddedBy (layout : List Int) (increment : Int) : List Int :=
  layout.dropLast ++ [layout.getLastD 0 + increment]

section

variable (device : Device) (others : Nat) (t : Temporary) (layout : List Int)

/-- Whether a padding is open to a layout: it is none, or it is below half of the last extent,
rounded down, and the elements stay below the size of local memory together with others. Negative
extents count as zero. -/
def IsOpen (increment : Int) : Prop :=
  increment = 0 ∨ 0 < increment ∧ increment < layout.getLastD 0 / 2 ∧
    others + t.dtype.itemsize * ((paddedBy layout increment).map Int.toNat).prod <
      device.usableMemory

/-- Whether a bank serves so many words at worst when a layout is padded. -/
def HasMultiplier (increment : Int) (n : Nat) : Prop :=
  ∃ conflict, device.localConflict t.dtype.itemsize t.shape (paddedBy layout increment) =
    .ok conflict ∧ conflictMultiplier conflict = n

/-- The best padding among some: it has the least multiplier and is the smallest one that has. -/
structure IsBestOf (among : Int → Prop) (best : Int) (n : Nat) : Prop where
  mem : among best
  multiplier : HasMultiplier device t layout best n
  least : ∀ increment, among increment → ∃ m, HasMultiplier device t layout increment m ∧
    n ≤ m ∧ (m = n → best ≤ increment)

end

variable {device : Device} {others : Nat} {t : Temporary} {layout : List Int} {best next : Padding}

namespace IsBestOf

variable {P : Int → Prop} {limit increment : Int} {n m : Nat}

/-- The best padding below a limit is still the best one when that at the limit is not open or not
better. -/
theorem keep (h : IsBestOf device t layout (fun i => P i ∧ i < limit) increment n)
    (hlimit : P limit → ∃ m, HasMultiplier device t layout limit m ∧ n ≤ m) :
    IsBestOf device t layout (fun i => P i ∧ i < limit + 1) increment n := by
  obtain ⟨⟨hmem, hlt⟩, hmultiplier, hleast⟩ := h
  refine ⟨⟨hmem, by omega⟩, hmultiplier, fun i hi => ?_⟩
  by_cases hbelow : i < limit
  · exact hleast i ⟨hi.1, hbelow⟩
  · obtain rfl : i = limit := by omega
    obtain ⟨m, hm, hle⟩ := hlimit hi.1
    exact ⟨m, hm, hle, fun _ => hlt.le⟩

/-- A better padding at the limit is the best one up to there. -/
theorem replace (h : IsBestOf device t layout (fun i => P i ∧ i < limit) increment n)
    (hlimit : P limit) (hm : HasMultiplier device t layout limit m) (hlt : m < n) :
    IsBestOf device t layout (fun i => P i ∧ i < limit + 1) limit m := by
  refine ⟨⟨hlimit, by omega⟩, hm, fun i hi => ?_⟩
  by_cases hbelow : i < limit
  · obtain ⟨other, hother, hle, -⟩ := h.least i ⟨hi.1, hbelow⟩
    exact ⟨other, hother, by omega, fun he => by omega⟩
  · obtain rfl : i = limit := by omega
    exact ⟨m, hm, le_rfl, fun _ => le_rfl⟩

end IsBestOf

/-! ## The search -/

namespace Padding

/-- The increment of the last extent. -/
def amount (p : Padding) : Int := p.increment.getD 0

/-- Whether a padding is the best one that is open below a limit. -/
structure IsBestBelow (device : Device) (others : Nat) (t : Temporary) (layout : List Int)
    (limit : Int) (p : Padding) : Prop where
  layout_eq : p.layout = paddedBy layout p.amount
  isBest : IsBestOf device t layout (fun i => IsOpen device others t layout i ∧ i < limit)
    p.amount (conflictMultiplier p.conflict)

namespace IsBestBelow

/-- Trying an increment gives the best padding up to it. -/
theorem tryPadding {increment : Int} (h : best.IsBestBelow device others t layout increment)
    (hne : layout ≠ []) (hpos : 0 < increment) (hhalf : increment < layout.getLastD 0 / 2)
    (hnext : Kernel.tryPadding device others t layout best increment = .ok next) :
    next.IsBestBelow device others t layout (increment + 1) := by
  obtain ⟨padded, found, hpadded, hfound, hcases⟩ := tryPadding_eq_ok.mp hnext
  obtain rfl : padded = paddedBy layout increment := padLast_eq_ok hne hpadded
  have hmultiplier : HasMultiplier device t layout increment (conflictMultiplier found) :=
    ⟨found, hfound, rfl⟩
  rcases hcases with ⟨hle, rfl⟩ | ⟨hlt, elements, helements, -, hcases⟩
  · exact ⟨h.layout_eq, h.isBest.keep fun _ => ⟨_, hmultiplier, hle⟩⟩
  · rw [elementCount_eq_prod helements] at hcases
    rcases hcases with ⟨hover, rfl⟩ | ⟨hfits, rfl⟩
    · -- the increment is not open
      refine ⟨h.layout_eq, h.isBest.keep fun hopen => ?_⟩
      rcases hopen with hzero | ⟨-, -, hfits⟩
      · omega
      · exact absurd hfits (Nat.not_lt.mpr hover)
    · exact ⟨rfl, h.isBest.replace (.inr ⟨hpos, hhalf, hfits⟩) hmultiplier hlt⟩

/-- Trying several increments gives the best padding up to the last one. -/
theorem tryPaddings {count : Nat} {increment : Int}
    (h : best.IsBestBelow device others t layout increment) (hne : layout ≠ [])
    (hpos : 0 < increment) (hhalf : increment + count ≤ max increment (layout.getLastD 0 / 2))
    (hnext : Kernel.tryPaddings device others t layout count increment best = .ok next) :
    next.IsBestBelow device others t layout (increment + count) := by
  induction count generalizing increment best with
  | zero =>
    rw [Kernel.tryPaddings, Attempt.pure_eq_ok] at hnext
    rw [← hnext, Nat.cast_zero, add_zero]
    exact h
  | succ count ih =>
    rw [Kernel.tryPaddings, Attempt.bind_eq_ok] at hnext
    obtain ⟨middle, hmiddle, hnext⟩ := hnext
    push_cast at hhalf ⊢
    have hlast := ih (h.tryPadding hne hpos (by omega) hmiddle) (by omega) (by omega) hnext
    rwa [show increment + (count + 1 : Int) = increment + 1 + count by omega]

end IsBestBelow

end Padding

/-- The padding that is chosen is the best of all that are open. -/
theorem isBestOf_bestPadding {p : Padding} (hne : layout ≠ [])
    (h : Kernel.bestPadding device others t layout = .ok p) :
    p.layout = paddedBy layout p.amount ∧
      IsBestOf device t layout (IsOpen device others t layout) p.amount
        (conflictMultiplier p.conflict) := by
  unfold Kernel.bestPadding at h
  rw [Attempt.bind_eq_ok] at h
  obtain ⟨conflict, hconflict, h⟩ := h
  have hself : paddedBy layout 0 = layout := by
    rw [paddedBy, Int.add_zero, dropLast_concat_getLastD hne]
  have hstart : (⟨layout, conflict, none, false⟩ : Padding).IsBestBelow device others t layout
      1 := by
    refine ⟨hself.symm, ⟨⟨.inl rfl, Int.one_pos⟩, ⟨conflict, hself.symm ▸ hconflict, rfl⟩, ?_⟩⟩
    rintro i ⟨hzero | ⟨hpos, -⟩, hlt⟩
    · exact ⟨_, ⟨conflict, hzero ▸ hself.symm ▸ hconflict, rfl⟩, le_rfl, fun _ => hzero.ge⟩
    · omega
  obtain ⟨hlayout, hmem, hmultiplier, hleast⟩ := hstart.tryPaddings hne one_pos (by omega) h
  refine ⟨hlayout, hmem.1, hmultiplier, fun i hi => hleast i ⟨hi, ?_⟩⟩
  rcases hi with rfl | ⟨-, hhalf, -⟩
  · omega
  · omega

namespace Kernel

variable {k k' : Kernel} {name : String} {problems : List Diagnostic}

/-- The bytes of the local temporaries with other names than a given one. -/
def otherLocalSize (k : Kernel) (name : String) : Nat :=
  ((k.temporaries.values.filter fun t => t.isLocal && t.name != name).map
    Temporary.byteCount).sum

/-- The bytes of the other local temporaries are counted exactly. -/
theorem otherLocalBytes_eq_ok {total : Nat} (h : k.otherLocalBytes name = .ok total) :
    total = k.otherLocalSize name := by
  rw [otherLocalBytes, foldlM_bytes_eq_ok (by decide), Nat.zero_add] at h
  exact h.2.2.symm

/-- The layout that is chosen for a temporary in banked local memory is the best one, and the
conflicts that it leaves are reported. -/
theorem isBestOf_chooseLayout (hlocal : t.isLocal = true)
    (hkind : k.device.memoryKind = .dedicated) (hne : t.layout ≠ [])
    (h : k.chooseLayout name t = .ok (layout, problems)) :
    ∃ increment n, layout = paddedBy t.layout increment ∧
      IsBestOf k.device t t.layout (IsOpen k.device (k.otherLocalSize name) t t.layout)
        increment n ∧
      ((∃ p ∈ problems, p.problem.code = "W0702") ↔ n ≠ 1) := by
  unfold chooseLayout at h
  rw [hlocal, Bool.not_true, if_neg Bool.false_ne_true] at h
  split at h
  · next hother => cases hkind.symm.trans hother
  · next hother => cases hkind.symm.trans hother
  · next hempty => exact absurd hempty hne
  · simp only [Attempt.bind_eq_ok, Attempt.pure_eq_ok, Prod.mk.injEq] at h
    obtain ⟨others, hothers, p, hp, rfl, rfl⟩ := h
    obtain rfl := otherLocalBytes_eq_ok hothers
    obtain ⟨hlayout, hbest⟩ := isBestOf_bestPadding hne hp
    refine ⟨p.amount, conflictMultiplier p.conflict, hlayout, hbest, ?_⟩
    unfold paddingProblems
    split
    · next hfree => simp [hfree]
    · next hconflict => simp [hconflict, Diagnostic.about, Problem.code]

/-! ## All temporaries -/

/-- Layouts of listed temporaries are chosen one part of the list after the other. -/
theorem chooseLayouts_append {names rest : List String}
    (h : chooseLayouts (names ++ rest) k = .ok (k', problems)) :
    ∃ c earlier later, chooseLayouts names k = .ok (c, earlier) ∧
      chooseLayouts rest c = .ok (k', later) ∧ problems = earlier ++ later := by
  induction names generalizing k problems with
  | nil => exact ⟨k, [], problems, rfl, h, rfl⟩
  | cons name names ih =>
    rw [List.cons_append, chooseLayouts] at h
    rw [chooseLayouts]
    split at h
    · exact ih h
    · simp only [Attempt.bind_eq_ok, Attempt.pure_eq_ok, Prod.exists, Prod.mk.injEq] at h
      obtain ⟨layout, chosen, hchosen, _, more, hmore, rfl, rfl⟩ := h
      obtain ⟨c, earlier, later, hearlier, hlater, rfl⟩ := ih hmore
      refine ⟨c, chosen ++ earlier, later, ?_, hlater, (List.append_assoc ..).symm⟩
      simp only [Attempt.bind_eq_ok, Attempt.pure_eq_ok, Prod.exists, Prod.mk.injEq]
      exact ⟨layout, chosen, hchosen, c, earlier, hearlier, rfl, rfl⟩

/-- Nothing is said about temporaries that are not listed. -/
theorem subject_ne_of_chooseLayouts {names : List String} (hname : name ∉ names)
    (h : chooseLayouts names k = .ok (k', problems)) : ∀ p ∈ problems, p.subject ≠ .var name := by
  intro p hp hsubject
  obtain ⟨⟨n, hn, hvar⟩, -⟩ := warns_chooseLayouts h p hp
  rw [hsubject, Subject.var.injEq] at hvar
  exact hname (hvar ▸ hn)

/-- The layout that a temporary in banked local memory gets is the best of those open to it when its
turn comes: those named before it are padded then, and those named after it are not. The conflicts
that it leaves are reported, and no others of this temporary. -/
theorem isBestOf_adjustStorage (ht : k.temporaries.get? name = some t) (hlocal : t.isLocal = true)
    (hkind : k.device.memoryKind = .dedicated) (hne : t.layout ≠ [])
    (h : k.adjustStorage = .ok (k', problems)) :
    ∃ before after c earlier, k.temporaries.keys = before ++ name :: after ∧
      chooseLayouts before k = .ok (c, earlier) ∧ c.temporaries.get? name = some t ∧
      ∃ increment n,
        k'.temporaries.get? name =
          some { t with storageShape := some (paddedBy t.layout increment) } ∧
        IsBestOf k.device t t.layout (IsOpen k.device (c.otherLocalSize name) t t.layout)
          increment n ∧
        ((∃ p ∈ problems, p.subject = .var name ∧ p.problem.code = "W0702") ↔ n ≠ 1) := by
  have hmem : name ∈ k.temporaries.keys :=
    SortedMap.mem_keys.mpr (SortedMap.contains_iff.mpr ⟨t, ht⟩)
  obtain ⟨before, after, hkeys⟩ := List.append_of_mem hmem
  have hnodup := k.temporaries.nodup_keys
  rw [hkeys, List.nodup_middle, List.nodup_cons, List.mem_append, not_or] at hnodup
  obtain ⟨⟨hbefore, hafter⟩, -⟩ := hnodup
  rw [adjustStorage, hkeys] at h
  obtain ⟨c, earlier, later, hearlier, hlater, rfl⟩ := chooseLayouts_append h
  have hget : c.temporaries.get? name = some t := (get?_chooseLayouts hbefore hearlier).trans ht
  have hdevice : c.device = k.device := by rw [(chooseLayouts_keeps hearlier).1]
  rw [chooseLayouts, hget] at hlater
  simp only [Attempt.bind_eq_ok, Attempt.pure_eq_ok, Prod.exists, Prod.mk.injEq] at hlater
  obtain ⟨layout, chosen, hchosen, _, more, hmore, rfl, rfl⟩ := hlater
  obtain ⟨increment, n, rfl, hbest, hreported⟩ :=
    isBestOf_chooseLayout hlocal (hdevice ▸ hkind) hne hchosen
  refine ⟨before, after, c, earlier, hkeys, hearlier, hget, increment, n, ?_, hdevice ▸ hbest, ?_⟩
  · rw [get?_chooseLayouts hafter hmore, SortedMap.get?_insert, if_pos rfl]
  · rw [← hreported]
    constructor
    · rintro ⟨p, hp, hsubject, hcode⟩
      rcases List.mem_append.mp hp with hp | hp
      · exact absurd hsubject (subject_ne_of_chooseLayouts hbefore hearlier p hp)
      · rcases List.mem_append.mp hp with hp | hp
        · exact ⟨p, hp, hcode⟩
        · exact absurd hsubject (subject_ne_of_chooseLayouts hafter hmore p hp)
    · rintro ⟨p, hp, hcode⟩
      exact ⟨p, List.mem_append_right _ (List.mem_append_left _ hp),
        (warns_chooseLayout hchosen p hp).1, hcode⟩

/-- The second of two tiles is padded beside the first one. Some conflicts are left. -/
theorem isBestOf_adjustStorage_tiles :
    ∃ k k' problems t, Source.load tilesSource .fermi = .ok k ∧
      k.markLocalTemporaries.adjustStorage = .ok (k', problems) ∧
      k.markLocalTemporaries.temporaries.get? "u" = some t ∧ t.isLocal = true ∧
      t.layout = [32, 4] ∧
      ∃ others increment n,
        IsBestOf k.device t t.layout (IsOpen k.device others t t.layout) increment n ∧
        paddedBy t.layout increment = [32, 5] ∧ n ≠ 1 := by
  obtain ⟨k, hload, hkind, ⟨t, ht, hlocal, hlayout⟩, ⟨k', problems⟩, hadjust,
      ⟨padded, hpadded, hstorage⟩, hreported⟩ :
      ∃ k, Source.load tilesSource .fermi = .ok k ∧
        k.markLocalTemporaries.device.memoryKind = .dedicated ∧
        (∃ t ∈ k.markLocalTemporaries.temporaries.get? "u",
          t.isLocal = true ∧ t.layout = [32, 4]) ∧
        ∃ out, k.markLocalTemporaries.adjustStorage = .ok out ∧
          (∃ t ∈ out.1.temporaries.get? "u", t.storageShape = some [32, 5]) ∧
          ∃ p ∈ out.2, p.subject = .var "u" ∧ p.problem.code = "W0702" := by
    decide +kernel
  have hne : t.layout ≠ [] := by simp [hlayout]
  obtain ⟨-, -, c, -, -, -, -, increment, n, hget, hbest, hiff⟩ :=
    isBestOf_adjustStorage ht hlocal hkind hne hadjust
  obtain rfl := Option.some.inj (hget.symm.trans hpadded)
  exact ⟨k, k', problems, t, hload, hadjust, ht, hlocal, hlayout, c.otherLocalSize "u", increment,
    n, hbest, Option.some.inj hstorage, hiff.mp hreported⟩

end Kernel

end LoopKernel
