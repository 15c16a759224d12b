import LoopKernel.Proofs.Storage.Padding

/-!
# Layouts chosen again

Paddings are searched from the present layout of a temporary, also when it has been padded before.
So layouts that are chosen again stay as they are exactly if no larger last extent is better than
the present one.
-/

namespace LoopKernel

variable {device : Device} {others : Nat} {t : Temporary} {layout : List Int} {best next : Padding}

/-! ## One temporary -/

/-- Whether an increment of the last extent is passed over: it does not lower the number of
conflicts, or the elements do not fit in what is left of local memory. -/
def PassesOver (device : Device) (others : Nat) (t : Temporary) (layout : List Int)
    (conflict : Option Conflict) (increment : Int) : Prop :=
  ∃ padded found, padLast layout increment = .ok padded ∧
    device.localConflict t.dtype.itemsize t.shape padded = .ok found ∧
    (conflictMultiplier conflict ≤ conflictMultiplier found ∨
      ∃ elements, elementCount padded = .ok elements ∧
        others + t.dtype.itemsize * elements < 1 <<< 64 ∧
        device.usableMemory ≤ others + t.dtype.itemsize * elements)

/-- Whether the search for a padding of a layout passes over all increments that it tries. -/
def Unimproved (device : Device) (others : Nat) (t : Temporary) (layout : List Int) : Prop :=
  ∃ conflict, device.localConflict t.dtype.itemsize t.shape layout = .ok conflict ∧
    ∀ increment, 0 < increment → increment < layout.getLastD 0 / 2 →
      PassesOver device others t layout conflict increment

/-- A larger last extent gives another layout. -/
theorem padLast_ne {padded : List Int} {increment : Int} (hne : layout ≠ []) (hpos : 0 < increment)
    (h : padLast layout increment = .ok padded) : padded ≠ layout := by
  rw [padLast_eq_ok hne h]
  intro he
  have hlast := congrArg (List.getLastD · 0) he
  simp only [List.getLastD_concat] at hlast
  omega

/-- An increment that is tried is passed over, or gives another layout. -/
theorem tryPadding_cases {increment : Int} (hne : layout ≠ []) (hpos : 0 < increment)
    (h : Kernel.tryPadding device others t layout best increment = .ok next) :
    PassesOver device others t layout best.conflict increment ∧ next.layout = best.layout ∧
        next.conflict = best.conflict ∨ next.layout ≠ layout := by
  obtain ⟨padded, found, hpadded, hfound, ⟨hle, rfl⟩ | ⟨-, elements, helements, htotal,
    ⟨hover, rfl⟩ | ⟨-, rfl⟩⟩⟩ := tryPadding_eq_ok.mp h
  · exact .inl ⟨⟨padded, found, hpadded, hfound, .inl hle⟩, rfl, rfl⟩
  · exact .inl ⟨⟨padded, found, hpadded, hfound, .inr ⟨elements, helements, htotal, hover⟩⟩,
      rfl, rfl⟩
  · exact .inr (padLast_ne hne hpos hpadded)

/-- An increment that is passed over leaves the layout as it is. -/
theorem PassesOver.tryPadding {increment : Int}
    (h : PassesOver device others t layout best.conflict increment) :
    ∃ next, Kernel.tryPadding device others t layout best increment = .ok next ∧
      next.layout = best.layout ∧ next.conflict = best.conflict := by
  obtain ⟨padded, found, hpadded, hfound, h⟩ := h
  by_cases hle : conflictMultiplier best.conflict ≤ conflictMultiplier found
  · exact ⟨best, tryPadding_eq_ok.mpr ⟨padded, found, hpadded, hfound, .inl ⟨hle, rfl⟩⟩, rfl, rfl⟩
  · obtain ⟨elements, helements, htotal, hover⟩ := h.resolve_left hle
    exact ⟨{ best with overBudget := true }, tryPadding_eq_ok.mpr ⟨padded, found, hpadded, hfound,
      .inr ⟨Nat.lt_of_not_le hle, elements, helements, htotal, .inl ⟨hover, rfl⟩⟩⟩, rfl, rfl⟩

/-- A search that has left a layout does not come back to it. -/
theorem layout_ne_of_tryPaddings {count : Nat} {increment : Int} (hne : layout ≠ [])
    (hpos : 0 < increment) (hbest : best.layout ≠ layout)
    (h : Kernel.tryPaddings device others t layout count increment best = .ok next) :
    next.layout ≠ layout := by
  induction count generalizing increment best with
  | zero =>
    rw [Kernel.tryPaddings, Attempt.pure_eq_ok] at h
    exact h ▸ hbest
  | succ count ih =>
    rw [Kernel.tryPaddings, Attempt.bind_eq_ok] at h
    obtain ⟨middle, hmiddle, h⟩ := h
    refine ih (by omega) ?_ h
    rcases tryPadding_cases hne hpos hmiddle with ⟨-, hsame, -⟩ | hother
    · exact hsame ▸ hbest
    · exact hother

/-- A search stays at a layout when it passes over all increments that it tries, and only then. -/
theorem tryPaddings_stays_iff {count : Nat} {increment : Int} (hne : layout ≠ [])
    (hpos : 0 < increment) (hbest : best.layout = layout) :
    (∃ next, Kernel.tryPaddings device others t layout count increment best = .ok next ∧
        next.layout = layout) ↔
      ∀ i, increment ≤ i → i < increment + count →
        PassesOver device others t layout best.conflict i := by
  induction count generalizing increment best with
  | zero =>
    simp only [Kernel.tryPaddings, Attempt.pure_eq_ok]
    exact ⟨fun _ i hle hlt => by omega, fun _ => ⟨best, rfl, hbest⟩⟩
  | succ count ih =>
    simp only [Kernel.tryPaddings, Attempt.bind_eq_ok]
    constructor
    · rintro ⟨next, ⟨middle, hmiddle, hrest⟩, hnext⟩ i hle hlt
      rcases tryPadding_cases hne hpos hmiddle with ⟨hover, hsame, hconflict⟩ | hother
      · by_cases hi : i = increment
        · exact hi ▸ hover
        · rw [← hconflict]
          push_cast at hlt
          have hpos : 0 < increment + 1 := by omega
          exact (ih hpos (hsame.trans hbest)).mp ⟨next, hrest, hnext⟩ i (by omega) (by omega)
      · exact absurd hnext (layout_ne_of_tryPaddings hne (by omega) hother hrest)
    · intro h
      obtain ⟨middle, hmiddle, hsame, hconflict⟩ :=
        (h increment le_rfl (by push_cast; omega)).tryPadding
      have hpos : 0 < increment + 1 := by omega
      obtain ⟨next, hrest, hnext⟩ := (ih hpos (hsame.trans hbest)).mpr
        fun i hle hlt => hconflict ▸ h i (by omega) (by push_cast; omega)
      exact ⟨next, ⟨middle, hmiddle, hrest⟩, hnext⟩

/-- The padding that is chosen for a layout is none when no increment improves it. -/
theorem bestPadding_stays_iff (hne : layout ≠ []) :
    (∃ p, Kernel.bestPadding device others t layout = .ok p ∧ p.layout = layout) ↔
      Unimproved device others t layout := by
  unfold Kernel.bestPadding Unimproved
  simp only [Attempt.bind_eq_ok]
  constructor
  · rintro ⟨p, ⟨conflict, hconflict, hp⟩, hlayout⟩
    have hover := (tryPaddings_stays_iff hne one_pos rfl).mp ⟨p, hp, hlayout⟩
    exact ⟨conflict, hconflict, fun i hpos hlt => hover i (by omega) (by omega)⟩
  · rintro ⟨conflict, hconflict, hover⟩
    have hstays : ∃ p, Kernel.tryPaddings device others t layout (layout.getLastD 0 / 2 - 1).toNat 1
        ⟨layout, conflict, none, false⟩ = .ok p ∧ p.layout = layout :=
      (tryPaddings_stays_iff hne one_pos rfl).mpr fun i hle hlt => hover i (by omega) (by omega)
    obtain ⟨p, hp, hlayout⟩ := hstays
    exact ⟨p, ⟨conflict, hconflict, hp⟩, hlayout⟩

/-- Whether a temporary has a layout, which is its shape outside local memory. -/
structure Temporary.IsLaidOut (t : Temporary) : Prop where
  storage : t.storageShape = some t.layout
  whole : t.isLocal = false → t.layout = t.shape

namespace Kernel

variable {k k' : Kernel} {names : List String} {name : String} {problems : List Diagnostic}

/-- Whether a temporary in banked local memory has a layout that no larger last extent improves. -/
def KeepsLayout (k : Kernel) (name : String) (t : Temporary) : Prop :=
  t.isLocal = true → k.device.memoryKind = .dedicated → t.layout ≠ [] →
    ∃ others, k.otherLocalBytes name = .ok others ∧ Unimproved k.device others t t.layout

/-- The layout that is chosen for a temporary is its present one when that is kept. -/
theorem chooseLayout_stays_iff (hlaid : t.IsLaidOut) :
    (∃ problems, k.chooseLayout name t = .ok (t.layout, problems)) ↔ k.KeepsLayout name t := by
  unfold chooseLayout KeepsLayout
  split
  · next hlocal =>
    rw [Bool.not_eq_true'] at hlocal
    simp [hlocal, hlaid.whole hlocal]
  · next hlocal =>
    rw [Bool.not_eq_true', Bool.not_eq_false] at hlocal
    split
    · next hkind => simp [hkind]
    · next hkind => simp [hkind]
    · next hkind hempty => simp [hempty]
    · next hkind hne =>
      have hne : t.layout ≠ [] := fun he => hne he
      simp only [hlocal, hkind, hne, ne_eq, not_false_eq_true, true_implies,
        ← bestPadding_stays_iff hne, Attempt.bind_eq_ok, Attempt.pure_eq_ok, Prod.mk.injEq]
      constructor
      · rintro ⟨_, others, hothers, p, hp, hlayout, -⟩
        exact ⟨others, hothers, p, hp, hlayout⟩
      · rintro ⟨others, hothers, p, hp, hlayout⟩
        exact ⟨_, others, hothers, p, hp, hlayout, rfl⟩

/-! ## All temporaries -/

/-- Choosing layouts leaves the temporaries that are not listed as they are. -/
theorem get?_chooseLayouts (hname : name ∉ names) (h : chooseLayouts names k = .ok (k', problems)) :
    k'.temporaries.get? name = k.temporaries.get? name := by
  refine (chooseLayouts_induction (P := fun rest c => name ∉ rest ∧
    c.temporaries.get? name = k.temporaries.get? name) h ⟨hname, rfl⟩ ?_ ?_).2
  · rintro first rest c ⟨hname, hsame⟩ -
    exact ⟨List.not_mem_of_not_mem_cons hname, hsame⟩
  · rintro first rest c t layout ⟨hname, hsame⟩ - -
    refine ⟨List.not_mem_of_not_mem_cons hname, ?_⟩
    rw [SortedMap.get?_insert, if_neg (List.ne_of_not_mem_cons hname), hsame]

/-- Choosing layouts keeps the names of the temporaries. -/
theorem contains_chooseLayouts (h : chooseLayouts names k = .ok (k', problems)) :
    k'.temporaries.contains name = k.temporaries.contains name := by
  refine chooseLayouts_induction (P := fun _ c =>
    c.temporaries.contains name = k.temporaries.contains name) h rfl (fun _ _ _ hc _ => hc) ?_
  intro first _ c t _ hsame ht _
  rw [SortedMap.contains_insert, ← hsame]
  by_cases he : name = first
  · simp [he, SortedMap.contains_iff.mpr ⟨t, ht⟩]
  · simp [he]

/-- Choosing layouts leaves all temporaries laid out that are listed or were laid out before. -/
theorem isLaidOut_of_chooseLayouts (h : chooseLayouts names k = .ok (k', problems))
    (hothers : ∀ n ∉ names, ∀ t, k.temporaries.get? n = some t → t.IsLaidOut) :
    ∀ n t, k'.temporaries.get? n = some t → t.IsLaidOut := by
  have hall := chooseLayouts_induction (P := fun rest c => ∀ n ∉ rest, ∀ t,
    c.temporaries.get? n = some t → t.IsLaidOut) h hothers ?_ ?_
  · exact fun n => hall n List.not_mem_nil
  · intro name rest c hothers hnone n hn t ht
    by_cases he : n = name
    · rw [he, hnone] at ht
      cases ht
    · exact hothers n (List.not_mem_cons_of_ne_of_not_mem he hn) t ht
  · rintro name rest c t layout hothers - ⟨_, hlayout⟩ n hn u hu
    rw [SortedMap.get?_insert] at hu
    split at hu
    · cases hu
      refine ⟨rfl, fun hlocal => ?_⟩
      change t.isLocal = false at hlocal
      rw [chooseLayout, hlocal, Bool.not_false, if_pos rfl, Attempt.pure_eq_ok,
        Prod.mk.injEq] at hlayout
      exact hlayout.1.symm
    · next he => exact hothers n (List.not_mem_cons_of_ne_of_not_mem he hn) u hu

/-- Layouts that are chosen again stay as they are when each one does. -/
theorem chooseLayouts_stays_iff (hnodup : names.Nodup)
    (hlaid : ∀ n t, k.temporaries.get? n = some t → t.IsLaidOut) :
    (∃ problems, chooseLayouts names k = .ok (k, problems)) ↔
      ∀ n ∈ names, ∀ t, k.temporaries.get? n = some t →
        ∃ problems, k.chooseLayout n t = .ok (t.layout, problems) := by
  induction names with
  | nil => simp [chooseLayouts]
  | cons first rest ih =>
    obtain ⟨hfirst, hrest⟩ := List.nodup_cons.mp hnodup
    rw [List.forall_mem_cons, ← ih hrest, chooseLayouts]
    split
    · next hnone => simp [hnone]
    · next t ht =>
      have hself : ({ t with storageShape := some t.layout } : Temporary) = t := by
        rw [← (hlaid first t ht).storage]
      have hinsert : ({ k with temporaries := k.temporaries.insert first t } : Kernel) = k := by
        rw [SortedMap.insert_of_get?_some ht]
      simp only [ht, Option.some.injEq, forall_eq', Attempt.bind_eq_ok, Attempt.pure_eq_ok,
        Prod.exists, Prod.mk.injEq]
      constructor
      · rintro ⟨_, layout, chosen, hchosen, k', later, hlater, rfl, -⟩
        -- What is stored under the first name now is what was chosen for it.
        have hkept := get?_chooseLayouts hfirst hlater
        rw [SortedMap.get?_insert, if_pos rfl, ht, Option.some.injEq] at hkept
        have hlayout : layout = t.layout := by
          have hshape := congrArg Temporary.storageShape hkept
          rw [(hlaid first t ht).storage, Option.some.injEq] at hshape
          exact hshape.symm
        subst hlayout
        rw [hself, hinsert] at hlater
        exact ⟨⟨chosen, hchosen⟩, later, hlater⟩
      · rintro ⟨⟨chosen, hchosen⟩, later, hlater⟩
        refine ⟨_, t.layout, chosen, hchosen, k, later, ?_, rfl, rfl⟩
        rw [hself, hinsert]
        exact hlater

/-- Choosing layouts gives every temporary one. -/
theorem isLaidOut_of_adjustStorage (h : k.adjustStorage = .ok (k', problems)) :
    ∀ n t, k'.temporaries.get? n = some t → t.IsLaidOut :=
  isLaidOut_of_chooseLayouts h fun _ hn t ht =>
    absurd (SortedMap.mem_keys.mpr (SortedMap.contains_iff.mpr ⟨t, ht⟩)) hn

/-- Layouts that are chosen again stay as they are when no larger last extent improves them. -/
theorem adjustStorage_stays_iff (hlaid : ∀ n t, k.temporaries.get? n = some t → t.IsLaidOut) :
    (∃ problems, k.adjustStorage = .ok (k, problems)) ↔
      ∀ n t, k.temporaries.get? n = some t → k.KeepsLayout n t := by
  rw [adjustStorage, chooseLayouts_stays_iff k.temporaries.nodup_keys hlaid]
  constructor
  · intro h n t ht
    have hkey := SortedMap.mem_keys.mpr (SortedMap.contains_iff.mpr ⟨t, ht⟩)
    exact (chooseLayout_stays_iff (hlaid n t ht)).mp (h n hkey t ht)
  · exact fun h n _ t ht => (chooseLayout_stays_iff (hlaid n t ht)).mpr (h n t ht)

/-- What is said about a layout is a warning about its temporary. -/
theorem warns_chooseLayout (h : k.chooseLayout name t = .ok (layout, problems)) :
    ∀ p ∈ problems, p.subject = .var name ∧ p.isError = false := by
  unfold chooseLayout at h
  split at h
  · cases h
    simp
  · split at h
    · cases h
      simp
    · cases h
      simp [Diagnostic.about, Diagnostic.isError, Problem.isWarning]
    · cases h
      simp
    · simp only [Attempt.bind_eq_ok, Attempt.pure_eq_ok, Prod.mk.injEq] at h
      obtain ⟨_, -, p, -, -, rfl⟩ := h
      unfold paddingProblems
      split
      · simp
      · simp [Diagnostic.about, Diagnostic.isError, Problem.isWarning]

/-- What is said about several layouts are warnings about their temporaries. -/
theorem warns_chooseLayouts (h : chooseLayouts names k = .ok (k', problems)) :
    ∀ p ∈ problems, (∃ n ∈ names, p.subject = .var n) ∧ p.isError = false := by
  induction names generalizing k problems with
  | nil =>
    rw [chooseLayouts, Attempt.pure_eq_ok, Prod.mk.injEq] at h
    rw [← h.2]
    simp
  | cons name rest ih =>
    have hrest : ∀ {k problems}, chooseLayouts rest k = .ok (k', problems) → ∀ p ∈ problems,
        (∃ n ∈ name :: rest, p.subject = .var n) ∧ p.isError = false := by
      intro k problems h p hp
      obtain ⟨⟨n, hn, hsubject⟩, hwarning⟩ := ih h p hp
      exact ⟨⟨n, List.mem_cons_of_mem name hn, hsubject⟩, hwarning⟩
    rw [chooseLayouts] at h
    split at h
    · exact hrest h
    · simp only [Attempt.bind_eq_ok, Attempt.pure_eq_ok, Prod.exists, Prod.mk.injEq] at h
      obtain ⟨layout, chosen, hchosen, _, later, hlater, rfl, rfl⟩ := h
      intro p hp
      rcases List.mem_append.mp hp with hp | hp
      · obtain ⟨hsubject, hwarning⟩ := warns_chooseLayout hchosen p hp
        exact ⟨⟨name, List.mem_cons_self, hsubject⟩, hwarning⟩
      · exact hrest hlater p hp

/-- Choosing layouts gives warnings at most. -/
theorem warnings_chooseLayouts (h : chooseLayouts names k = .ok (k', problems)) :
    problems.any Diagnostic.isError = false :=
  List.any_eq_false.mpr fun p hp => by simp [(warns_chooseLayouts h p hp).2]

end Kernel

end LoopKernel
