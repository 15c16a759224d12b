import LoopKernel.Device.Conflicts
import LoopKernel.Proofs.Checked
import LoopKernel.Proofs.SortedMap
import Mathlib.Algebra.BigOperators.Fin
import Mathlib.Data.Finset.Lattice.Fold
import Mathlib.Order.Lattice.Nat

/-!
# The load of banks

Lanes that sweep an array from one of its axes on are spread over that axis and those to its left,
so that each lane is at an element whose indices are the digits of its number. The load of a bank is
the number of different words that it then has to serve. A reported conflict is the greatest load on
the first axis, counted from the right, on which some bank serves more than one word. Another axis
can have a greater one.
-/

namespace LoopKernel.Device

/-! ## Loads -/

/-- The index on an axis of the element that a lane is at. Axes are counted from the right, and
those before the swept one stay at their first element. -/
def laneIndex (axes : List Axis) (swept lane : Nat) (axis : Fin axes.length) : Nat :=
  if swept ≤ axis then
    lane / (((axes.take axis).drop swept).map Axis.size).prod % axes[axis].size
  else 0

/-- The byte address of the element that a lane is at, in row-major order. -/
def sweptAddress (itemsize : Nat) (axes : List Axis) (swept lane : Nat) : Nat :=
  ∑ axis : Fin axes.length,
    laneIndex axes swept lane axis * (itemsize * ((axes.take axis).map Axis.stored).prod)

variable (d : Device) (itemsize : Nat)

/-- The words that hold the elements of all lanes. -/
def sweptWords (axes : List Axis) (swept : Nat) : Finset Nat :=
  (Finset.range (max d.lanes 1)).image fun lane =>
    sweptAddress itemsize axes swept lane / max d.bankWidth 1

/-- The number of different words that a bank serves. -/
def bankLoad (axes : List Axis) (swept bank : Nat) : Nat :=
  ((d.sweptWords itemsize axes swept).filter fun word => word % max d.bankCount 1 = bank).card

/-- The greatest load of a bank while lanes sweep an axis. -/
def axisLoad (axes : List Axis) (swept : Nat) : Nat :=
  (Finset.range (max d.bankCount 1)).sup (d.bankLoad itemsize axes swept)

/-- The greatest load of a bank on any axis of an array. It is one for an array without axes. -/
def worstLoad (shape storage : List Int) : Nat :=
  max 1 ((Finset.range shape.length).sup (d.axisLoad itemsize (axesOf shape storage)))

variable {d : Device} {itemsize : Nat}

/-- No bank has a greater load than the greatest. -/
theorem bankLoad_le_axisLoad (axes : List Axis) (swept bank : Nat) :
    d.bankLoad itemsize axes swept bank ≤ d.axisLoad itemsize axes swept := by
  by_cases hbank : bank < max d.bankCount 1
  · exact Finset.le_sup (f := d.bankLoad itemsize axes swept) (Finset.mem_range.mpr hbank)
  · -- words are served by banks below the number of banks only
    have hempty : d.bankLoad itemsize axes swept bank = 0 := by
      rw [bankLoad, Finset.card_eq_zero, Finset.filter_eq_empty_iff]
      intro word _ hserved
      have := Nat.mod_lt word (show 0 < max d.bankCount 1 by omega)
      omega
    rw [hempty]
    exact Nat.zero_le _

/-! ## Addresses -/

private theorem sweptAddress_cons (a : Axis) (rest : List Axis) (swept lane : Nat) :
    sweptAddress itemsize (a :: rest) swept lane =
      laneIndex (a :: rest) swept lane ⟨0, Nat.succ_pos _⟩ * itemsize +
        ∑ i : Fin rest.length, laneIndex (a :: rest) swept lane i.succ *
          (itemsize * a.stored * ((rest.take i).map Axis.stored).prod) := by
  refine (Fin.sum_univ_succ (n := rest.length) _).trans ?_
  simp [mul_assoc]

/-- A swept axis takes the last digit of the number of a lane, and leaves the others to the axes to
its left. -/
private theorem sweptAddress_cons_zero (a : Axis) (rest : List Axis) (lane : Nat) :
    sweptAddress itemsize (a :: rest) 0 lane =
      lane % a.size * itemsize + sweptAddress (itemsize * a.stored) rest 0 (lane / a.size) := by
  rw [sweptAddress_cons]
  simp [sweptAddress, laneIndex, Nat.div_div_eq_div_mul]

/-- An axis before the swept one takes nothing of the number of a lane. -/
private theorem sweptAddress_cons_succ (a : Axis) (rest : List Axis) (swept lane : Nat) :
    sweptAddress itemsize (a :: rest) (swept + 1) lane =
      sweptAddress (itemsize * a.stored) rest swept lane := by
  rw [sweptAddress_cons]
  simp [sweptAddress, laneIndex]

/-- An address that is computed is that of the element, counted from the starting address. -/
private theorem laneAddress_eq_ok {swept axis lane address stride result : Nat} {axes : List Axis}
    (h : laneAddress swept axes axis lane address stride = .ok result) :
    result = address + sweptAddress stride axes (swept - axis) lane := by
  induction axes generalizing axis lane address stride with
  | nil =>
    rw [laneAddress, Attempt.pure_eq_ok] at h
    simp [sweptAddress, h]
  | cons a rest ih =>
    simp only [laneAddress, Attempt.bind_eq_ok, checkUnsigned_eq_ok] at h
    obtain ⟨_, ⟨-, rfl⟩, _, ⟨-, rfl⟩, _, ⟨-, rfl⟩, h⟩ := h
    have hrest := ih h
    by_cases hswept : swept ≤ axis
    · rw [if_pos hswept, if_pos hswept, Nat.sub_eq_zero_of_le (by omega)] at hrest
      rw [Nat.sub_eq_zero_of_le hswept, sweptAddress_cons_zero, hrest, add_assoc]
    · rw [if_neg hswept, if_neg hswept, Nat.zero_mul, Nat.add_zero] at hrest
      rw [show swept - axis = swept - (axis + 1) + 1 by omega, sweptAddress_cons_succ, hrest]

/-- The words that are computed are those that hold the elements of all lanes. -/
private theorem wordsAlong_eq_ok {axes : List Axis} {swept : Nat} {words : List Nat}
    (h : d.wordsAlong itemsize axes swept = .ok words) :
    words.toFinset = d.sweptWords itemsize axes swept := by
  have heach : ∀ lane word,
      (do pure ((← laneAddress swept axes 0 lane 0 itemsize) / max d.bankWidth 1) :
        Checked Nat) = .ok word →
      id word = sweptAddress itemsize axes swept lane / max d.bankWidth 1 := by
    intro lane word h
    rw [Attempt.bind_eq_ok] at h
    obtain ⟨address, haddress, h⟩ := h
    rw [Attempt.pure_eq_ok] at h
    rw [← h, laneAddress_eq_ok haddress, Nat.sub_zero, Nat.zero_add]
    rfl
  have hwords := Attempt.map_of_mapM heach h
  rw [List.map_id] at hwords
  ext word
  simp [hwords, sweptWords]

/-! ## Banks -/

/-- Each bank has each of its words once. -/
private theorem getD_wordsByBank (d : Device) (words : List Nat) (bank : Nat) :
    ((d.wordsByBank words).getD bank []).Nodup ∧ ((d.wordsByBank words).getD bank []).toFinset =
      words.toFinset.filter fun word => word % max d.bankCount 1 = bank := by
  induction words using List.reverseRecOn with
  | nil => exact ⟨List.nodup_nil, rfl⟩
  | append_singleton words word ih =>
    obtain ⟨hnodup, hserved⟩ := ih
    have hstep : d.wordsByBank (words ++ [word]) =
        if ((d.wordsByBank words).getD (word % max d.bankCount 1) []).contains word then
          d.wordsByBank words
        else (d.wordsByBank words).insert (word % max d.bankCount 1)
          (word :: (d.wordsByBank words).getD (word % max d.bankCount 1) []) := by
      simp [wordsByBank, List.foldl_append]
    have hunion : (words ++ [word]).toFinset.filter (fun w => w % max d.bankCount 1 = bank) =
        if word % max d.bankCount 1 = bank then
          insert word (words.toFinset.filter fun w => w % max d.bankCount 1 = bank)
        else words.toFinset.filter fun w => w % max d.bankCount 1 = bank := by
      rw [List.toFinset_append, List.toFinset_cons, List.toFinset_nil, insert_empty_eq,
        Finset.union_comm, ← Finset.insert_eq, Finset.filter_insert]
    rw [hstep, hunion]
    by_cases hbank : word % max d.bankCount 1 = bank
    · rw [hbank, if_pos rfl, ← hserved]
      split
      · next hmem =>
        have hmem : word ∈ (d.wordsByBank words).getD bank [] := by simpa using hmem
        exact ⟨hnodup, (Finset.insert_eq_of_mem (List.mem_toFinset.mpr hmem)).symm⟩
      · next hnew =>
        have hnew : word ∉ (d.wordsByBank words).getD bank [] := by simpa using hnew
        rw [SortedMap.getD_insert, if_pos rfl]
        exact ⟨List.nodup_cons.mpr ⟨hnew, hnodup⟩, List.toFinset_cons⟩
    · rw [if_neg hbank]
      split
      · exact ⟨hnodup, hserved⟩
      · rw [SortedMap.getD_insert, if_neg (Ne.symm hbank)]
        exact ⟨hnodup, hserved⟩

/-- A bank is found to serve as many words as there are for it. -/
private theorem length_wordsByBank {axes : List Axis} {swept : Nat} {words : List Nat}
    (h : d.wordsAlong itemsize axes swept = .ok words) (bank : Nat) :
    ((d.wordsByBank words).getD bank []).length = d.bankLoad itemsize axes swept bank := by
  obtain ⟨hnodup, hserved⟩ := getD_wordsByBank d words bank
  rw [← List.toFinset_card_of_nodup hnodup, hserved, wordsAlong_eq_ok h]
  rfl

private theorem busiestBank_concat_of_none {banks : List (Nat × List Nat)}
    (h : busiestBank banks = none) (bank : Nat) (words : List Nat) :
    busiestBank (banks ++ [(bank, words)]) = some (bank, words.length) := by
  rw [busiestBank] at h ⊢
  rw [List.foldl_append, h]
  rfl

private theorem busiestBank_concat_of_some {banks : List (Nat × List Nat)} {b n : Nat}
    (h : busiestBank banks = some (b, n)) (bank : Nat) (words : List Nat) :
    busiestBank (banks ++ [(bank, words)]) =
      if n < words.length then some (bank, words.length) else some (b, n) := by
  rw [busiestBank] at h ⊢
  rw [List.foldl_append, h]
  rfl

/-- The busiest bank is the first one of those that serve the most words. -/
private theorem busiestBank_spec (banks : List (Nat × List Nat)) :
    (busiestBank banks = none ∧ banks = []) ∨ ∃ before bank words after,
      busiestBank banks = some (bank, words.length) ∧
      banks = before ++ (bank, words) :: after ∧
      (∀ other ∈ before, other.2.length < words.length) ∧
      ∀ other ∈ after, other.2.length ≤ words.length := by
  induction banks using List.reverseRecOn with
  | nil => exact .inl ⟨rfl, rfl⟩
  | append_singleton banks last ih =>
    obtain ⟨bank, words⟩ := last
    right
    rcases ih with ⟨hbusiest, rfl⟩ | ⟨before, b, served, after, hbusiest, rfl, hbefore, hafter⟩
    · exact ⟨[], bank, words, [], busiestBank_concat_of_none hbusiest bank words, rfl, by simp,
        by simp⟩
    · have hnext := busiestBank_concat_of_some hbusiest bank words
      by_cases hmore : served.length < words.length
      · rw [if_pos hmore] at hnext
        refine ⟨before ++ (b, served) :: after, bank, words, [], hnext, rfl, ?_, by simp⟩
        intro other hother
        rcases List.mem_append.mp hother with hother | hother
        · exact (hbefore other hother).trans hmore
        · rcases List.mem_cons.mp hother with rfl | hother
          · exact hmore
          · exact (hafter other hother).trans_lt hmore
      · rw [if_neg hmore] at hnext
        refine ⟨before, b, served, after ++ [(bank, words)], hnext, by simp, hbefore, ?_⟩
        intro other hother
        rcases List.mem_append.mp hother with hother | hother
        · exact hafter other hother
        · rw [List.mem_singleton.mp hother]
          exact Nat.le_of_not_lt hmore

/-- The busiest bank is the first one of those with the greatest load. -/
private theorem busiestBank_wordsByBank {axes : List Axis} {swept : Nat} {words : List Nat}
    (h : d.wordsAlong itemsize axes swept = .ok words) :
    (busiestBank (d.wordsByBank words).entries = none ∧
        ∀ bank, d.bankLoad itemsize axes swept bank = 0) ∨
      ∃ bank, busiestBank (d.wordsByBank words).entries =
          some (bank, d.bankLoad itemsize axes swept bank) ∧
        (∀ other, d.bankLoad itemsize axes swept other ≤ d.bankLoad itemsize axes swept bank) ∧
        ∀ other < bank, d.bankLoad itemsize axes swept other = 0 ∨
          d.bankLoad itemsize axes swept other < d.bankLoad itemsize axes swept bank := by
  have hload := length_wordsByBank h
  generalize d.wordsByBank words = banks at hload ⊢
  -- a bank serves nothing, or has an entry
  have hentry : ∀ bank, d.bankLoad itemsize axes swept bank = 0 ∨
      (bank, banks.getD bank []) ∈ banks.entries := by
    intro bank
    rw [← hload, SortedMap.mem_entries, SortedMap.getD]
    cases banks.get? bank <;> simp
  rcases busiestBank_spec banks.entries with
    ⟨hbusiest, hnone⟩ | ⟨before, bank, served, after, hbusiest, hsplit, hbefore, hafter⟩
  · refine .inl ⟨hbusiest, fun bank => (hentry bank).resolve_right ?_⟩
    rw [hnone]
    exact List.not_mem_nil
  · have hserved : served.length = d.bankLoad itemsize axes swept bank := by
      have hmem : (bank, served) ∈ banks.entries := by simp [hsplit]
      rw [← hload, SortedMap.getD, SortedMap.mem_entries.mp hmem, Option.getD_some]
    have hsorted := banks.sorted
    rw [hsplit, List.pairwise_append, List.pairwise_cons] at hsorted
    obtain ⟨-, ⟨hright, -⟩, -⟩ := hsorted
    simp only [hsplit, List.mem_append, List.mem_cons, Prod.mk.injEq] at hentry
    rw [hserved] at hbusiest hbefore hafter
    refine .inr ⟨bank, hbusiest, fun other => ?_, fun other hlt => (hentry other).imp_right ?_⟩
    · rcases hentry other with hzero | hmem | ⟨rfl, -⟩ | hmem
      · exact hzero ▸ Nat.zero_le _
      · exact hload other ▸ (hbefore _ hmem).le
      · exact le_rfl
      · exact hload other ▸ hafter _ hmem
    · rintro (hmem | ⟨rfl, -⟩ | hmem)
      · exact hload other ▸ hbefore _ hmem
      · exact absurd hlt (Nat.lt_irrefl _)
      · -- entries are sorted by bank
        exact absurd (Nat.compare_eq_lt.mp (hright _ hmem)) (Nat.not_lt.mpr hlt.le)

/-! ## Reports -/

/-- A conflict names the first bank of those with the greatest load while lanes sweep its axis. -/
structure Reports (d : Device) (itemsize : Nat) (axes : List Axis) (c : Conflict) : Prop where
  many : 1 < c.words
  words_eq : c.words = d.axisLoad itemsize axes c.axis
  load_bank : d.bankLoad itemsize axes c.axis c.bank = c.words
  load_before : ∀ bank < c.bank, d.bankLoad itemsize axes c.axis bank < c.words

/-- A conflict is found on an axis when a bank serves more than one word. -/
theorem conflictOnAxis_spec {axes : List Axis} {swept : Nat} {r : Option Conflict}
    (h : d.conflictOnAxis itemsize axes swept = .ok r) :
    (r = none ∧ d.axisLoad itemsize axes swept ≤ 1) ∨
      ∃ c, r = some c ∧ c.axis = swept ∧ d.Reports itemsize axes c := by
  rw [conflictOnAxis, Attempt.bind_eq_ok] at h
  obtain ⟨words, hwords, h⟩ := h
  rcases busiestBank_wordsByBank hwords with ⟨hbusiest, hzero⟩ | ⟨bank, hbusiest, hmost, hfirst⟩
  · rw [hbusiest, Attempt.pure_eq_ok] at h
    exact .inl ⟨h.symm, Finset.sup_le fun bank _ => (hzero bank).trans_le (Nat.zero_le 1)⟩
  · have haxis : d.axisLoad itemsize axes swept = d.bankLoad itemsize axes swept bank :=
      le_antisymm (Finset.sup_le fun other _ => hmost other) (bankLoad_le_axisLoad axes swept bank)
    simp only [hbusiest, Attempt.pure_eq_ok] at h
    by_cases hmany : 1 < d.bankLoad itemsize axes swept bank
    · rw [if_pos hmany] at h
      refine .inr ⟨_, h.symm, rfl, hmany, haxis.symm, rfl, fun other hlt => ?_⟩
      exact (hfirst other hlt).elim (·.trans_lt (Nat.zero_lt_of_lt hmany)) id
    · rw [if_neg hmany] at h
      exact .inl ⟨h.symm, haxis.trans_le (Nat.le_of_not_lt hmany)⟩

/-- The conflict of an array is on the first axis with one, counted from the right. -/
theorem firstConflict_spec {axes : List Axis} {sweeps : List Nat} {r : Option Conflict}
    (h : d.firstConflict itemsize axes sweeps = .ok r) :
    (r = none ∧ ∀ swept ∈ sweeps, d.axisLoad itemsize axes swept ≤ 1) ∨
      ∃ c before after, r = some c ∧ sweeps = before ++ c.axis :: after ∧
        d.Reports itemsize axes c ∧ ∀ swept ∈ before, d.axisLoad itemsize axes swept ≤ 1 := by
  induction sweeps with
  | nil =>
    rw [firstConflict, Attempt.pure_eq_ok] at h
    exact .inl ⟨h.symm, by simp⟩
  | cons swept rest ih =>
    rw [firstConflict, Attempt.bind_eq_ok] at h
    obtain ⟨found, hfound, h⟩ := h
    rcases conflictOnAxis_spec hfound with ⟨rfl, hfree⟩ | ⟨c, rfl, rfl, hreports⟩
    · rcases ih h with ⟨rfl, hrest⟩ | ⟨c, before, after, rfl, rfl, hreports, hbefore⟩
      · exact .inl ⟨rfl, List.forall_mem_cons.mpr ⟨hfree, hrest⟩⟩
      · exact .inr ⟨c, swept :: before, after, rfl, rfl, hreports,
          List.forall_mem_cons.mpr ⟨hfree, hbefore⟩⟩
    · exact .inr ⟨c, [], rest, (Attempt.pure_eq_ok.mp h).symm, rfl, hreports, by simp⟩

/-- An array has no conflict when no bank serves more than one word on any axis. A conflict that it
has is on the first axis with one. -/
theorem localConflict_spec {shape storage : List Int} {r : Option Conflict}
    (h : d.localConflict itemsize shape storage = .ok r) :
    (r = none ∧ ∀ axis < shape.length, d.axisLoad itemsize (axesOf shape storage) axis ≤ 1) ∨
      ∃ c, r = some c ∧ c.axis < shape.length ∧ d.Reports itemsize (axesOf shape storage) c ∧
        ∀ axis < c.axis, d.axisLoad itemsize (axesOf shape storage) axis ≤ 1 := by
  rcases firstConflict_spec h with ⟨rfl, hfree⟩ | ⟨c, before, after, rfl, hsplit, hreports, hbefore⟩
  · exact .inl ⟨rfl, fun axis haxis => hfree axis (List.mem_range.mpr haxis)⟩
  · have haxis : c.axis < shape.length := by
      rw [← List.mem_range, hsplit]
      simp
    refine .inr ⟨c, rfl, haxis, hreports, fun axis hlt => hbefore axis ?_⟩
    -- what follows the axis in the list of all is to its left
    have hsorted := List.pairwise_lt_range (n := shape.length)
    have hmem := List.mem_range.mpr (hlt.trans haxis)
    rw [hsplit, List.pairwise_append, List.pairwise_cons] at hsorted
    rw [hsplit, List.mem_append, List.mem_cons] at hmem
    obtain ⟨-, ⟨hright, -⟩, -⟩ := hsorted
    rcases hmem with hmem | rfl | hmem
    · exact hmem
    · exact absurd hlt (Nat.lt_irrefl _)
    · exact absurd (hright axis hmem) (Nat.not_lt.mpr hlt.le)

variable {shape storage : List Int}

/-- The worst load is bounded by what bounds the load on every axis. -/
theorem worstLoad_le_iff {n : Nat} : d.worstLoad itemsize shape storage ≤ n ↔
    1 ≤ n ∧ ∀ axis < shape.length, d.axisLoad itemsize (axesOf shape storage) axis ≤ n := by
  simp [worstLoad]

/-- No axis has a greater load than the worst. -/
theorem axisLoad_le_worstLoad {axis : Nat} (h : axis < shape.length) :
    d.axisLoad itemsize (axesOf shape storage) axis ≤ d.worstLoad itemsize shape storage :=
  (worstLoad_le_iff.mp le_rfl).2 axis h

/-- The first axis, counted from the right, with a bank that serves more than one word. -/
structure IsFirstConflicting (d : Device) (itemsize : Nat) (shape storage : List Int)
    (axis : Nat) : Prop where
  lt_length : axis < shape.length
  conflicts : 1 < d.axisLoad itemsize (axesOf shape storage) axis
  free_before : ∀ other < axis, d.axisLoad itemsize (axesOf shape storage) other ≤ 1

/-- There is one first axis at most. -/
theorem IsFirstConflicting.eq {a b : Nat} (ha : d.IsFirstConflicting itemsize shape storage a)
    (hb : d.IsFirstConflicting itemsize shape storage b) : a = b := by
  rcases Nat.lt_trichotomy a b with h | h | h
  · exact absurd ha.conflicts (Nat.not_lt.mpr (hb.free_before a h))
  · exact h
  · exact absurd hb.conflicts (Nat.not_lt.mpr (ha.free_before b h))

/-- The multiplier of an array is the greatest load of a bank on the first axis with a conflict, and
one when there is no such axis. It is at most the greatest load on any axis, which it is when no
axis has a greater load than the first one with a conflict, and only then. -/
theorem conflictMultiplier_localConflict {r : Option Conflict}
    (h : d.localConflict itemsize shape storage = .ok r) :
    (∀ first, d.IsFirstConflicting itemsize shape storage first →
        conflictMultiplier r = d.axisLoad itemsize (axesOf shape storage) first) ∧
      ((∀ axis < shape.length, d.axisLoad itemsize (axesOf shape storage) axis ≤ 1) →
        conflictMultiplier r = 1) ∧
      conflictMultiplier r ≤ d.worstLoad itemsize shape storage ∧
      (conflictMultiplier r = d.worstLoad itemsize shape storage ↔
        ∀ first, d.IsFirstConflicting itemsize shape storage first → ∀ axis < shape.length,
          d.axisLoad itemsize (axesOf shape storage) axis ≤
            d.axisLoad itemsize (axesOf shape storage) first) := by
  rcases localConflict_spec h with ⟨rfl, hfree⟩ | ⟨c, rfl, haxis, hreports, hbefore⟩
  · have hnone : ∀ first, ¬ d.IsFirstConflicting itemsize shape storage first :=
      fun first hfirst => absurd hfirst.conflicts (Nat.not_lt.mpr (hfree first hfirst.lt_length))
    have hworst : d.worstLoad itemsize shape storage = 1 :=
      le_antisymm (worstLoad_le_iff.mpr ⟨le_rfl, hfree⟩) (le_max_left _ _)
    exact ⟨fun first hfirst => absurd hfirst (hnone first), fun _ => rfl, hworst.ge,
      iff_of_true hworst.symm fun first hfirst => absurd hfirst (hnone first)⟩
  · have hconflicts := hreports.words_eq ▸ hreports.many
    have hfirst : d.IsFirstConflicting itemsize shape storage c.axis := ⟨haxis, hconflicts, hbefore⟩
    have hmultiplier : conflictMultiplier (some c) =
        d.axisLoad itemsize (axesOf shape storage) c.axis := hreports.words_eq
    rw [hmultiplier]
    refine ⟨fun first hother => by rw [hfirst.eq hother], fun hfree => ?_,
      axisLoad_le_worstLoad haxis, ?_⟩
    · exact absurd hconflicts (Nat.not_lt.mpr (hfree _ haxis))
    · constructor
      · intro heq first hother axis hlt
        rw [← hfirst.eq hother, heq]
        exact axisLoad_le_worstLoad hlt
      · intro hgreatest
        exact le_antisymm (axisLoad_le_worstLoad haxis)
          (worstLoad_le_iff.mpr ⟨hconflicts.le, hgreatest c.axis hfirst⟩)

/-- In a square tile of eight-byte elements two lanes share a bank along a row, and all of them do
along a column. The row is reported. -/
theorem conflictMultiplier_localConflict_squareTile :
    fermi.localConflict 8 [32, 32] [32, 32] = .ok (some ⟨2, 0, 0⟩) ∧
      fermi.IsFirstConflicting 8 [32, 32] [32, 32] 0 ∧
      conflictMultiplier (some ⟨2, 0, 0⟩) = fermi.axisLoad 8 (axesOf [32, 32] [32, 32]) 0 ∧
      fermi.worstLoad 8 [32, 32] [32, 32] = 32 := by
  have hrun : fermi.localConflict 8 [32, 32] [32, 32] = .ok (some ⟨2, 0, 0⟩) := by decide +kernel
  have hfirst : fermi.IsFirstConflicting 8 [32, 32] [32, 32] 0 :=
    ⟨by decide, by decide +kernel, by simp⟩
  exact ⟨hrun, hfirst, (conflictMultiplier_localConflict hrun).1 0 hfirst, by decide +kernel⟩

end LoopKernel.Device
