import LoopKernel.Number.Decimal
import Mathlib.Algebra.Order.Field.Power
import Mathlib.Algebra.Order.Field.Rat
import Mathlib.Order.Monotone.Basic
import Mathlib.Tactic.FieldSimp
import Mathlib.Tactic.Linarith
import Mathlib.Tactic.Ring

/-!
# Shortest decimals are rounded to their number

The numbers that are rounded to a magnitude lie between the middles to its two neighbours. These
intervals do not overlap, so a decimal that lies in the interval of a magnitude is the decimal of
no other one. The search for the shortest decimal always ends in the interval.
-/

namespace LoopKernel.Binary64

variable {m n : Nat} {v : ℚ} {format : DecimalFormat} {e : Int}

/-! ## Intervals -/

/-- A quarter of the distance to the next magnitude. -/
def quarter (m : Nat) : ℚ := 2 ^ ((decode m).2 - 2)

/-- Whether the magnitude below is only half as far as the one above. -/
def CloseBelow (m : Nat) : Prop := m % fractions = 0 ∧ fractions < m

instance (m : Nat) : Decidable (CloseBelow m) := inferInstanceAs (Decidable (_ ∧ _))

/-- The middle between a magnitude and the one below. -/
def lowerEnd (m : Nat) : ℚ := (4 * (decode m).1 - if CloseBelow m then 1 else 2) * quarter m

/-- The middle between a magnitude and the one above. -/
def upperEnd (m : Nat) : ℚ := (4 * (decode m).1 + 2) * quarter m

/-- Whether a number is rounded to a magnitude. A middle goes to the even one. -/
def RoundsTo (v : ℚ) (m : Nat) : Prop :=
  if m % 2 = 0 then lowerEnd m ≤ v ∧ v ≤ upperEnd m else lowerEnd m < v ∧ v < upperEnd m

theorem quarter_pos (m : Nat) : 0 < quarter m := zpow_pos (by norm_num) _

theorem fractions_eq : fractions = 4503599627370496 := rfl

theorem decode_of_zero (h : m / fractions = 0) : decode m = (m % fractions, -1074) := if_pos h

theorem decode_of_ne_zero (h : m / fractions ≠ 0) :
    decode m = (fractions + m % fractions, ((m / fractions : Nat) : Int) - 1075) := if_neg h

/-- The next magnitude has the next significand, or the least one of the next exponent. -/
theorem decode_succ (m : Nat) :
    (¬ CloseBelow (m + 1) ∧ decode (m + 1) = ((decode m).1 + 1, (decode m).2)) ∨
      (CloseBelow (m + 1) ∧ (decode m).1 + 1 = 2 * fractions ∧
        decode (m + 1) = (fractions, (decode m).2 + 1)) := by
  have hF := fractions_eq
  unfold CloseBelow
  by_cases hlast : m % fractions + 1 = fractions
  · have hquotient : (m + 1) / fractions = m / fractions + 1 := by
      rw [hF] at hlast ⊢
      omega
    have hrest : (m + 1) % fractions = 0 := by
      rw [hF] at hlast ⊢
      omega
    rw [decode_of_ne_zero (hquotient.trans_ne (Nat.succ_ne_zero _)), hquotient, hrest]
    by_cases hzero : m / fractions = 0
    · left
      rw [decode_of_zero hzero, hzero]
      refine ⟨?_, Prod.ext (by simp; omega) (by simp)⟩
      rw [hF] at hlast hzero ⊢
      omega
    · right
      rw [decode_of_ne_zero hzero]
      refine ⟨?_, by dsimp only; omega, Prod.ext (by simp) (by push_cast; ring)⟩
      rw [hF] at hlast hzero ⊢
      omega
  · have hquotient : (m + 1) / fractions = m / fractions := by
      rw [hF] at hlast ⊢
      omega
    have hrest : (m + 1) % fractions = m % fractions + 1 := by
      rw [hF] at hlast ⊢
      omega
    refine .inl ⟨by omega, ?_⟩
    by_cases hzero : m / fractions = 0
    · rw [decode_of_zero hzero, decode_of_zero (hquotient.trans hzero), hrest]
    · rw [decode_of_ne_zero hzero, decode_of_ne_zero (hquotient.trans_ne hzero), hrest, hquotient,
        Nat.add_assoc]

/-- The interval of a magnitude starts where that of the magnitude below ends. -/
theorem lowerEnd_succ (m : Nat) : lowerEnd (m + 1) = upperEnd m := by
  unfold lowerEnd upperEnd quarter
  obtain ⟨hclose, hnext⟩ | ⟨hclose, hlast, hnext⟩ := decode_succ m
  · rw [hnext, if_neg hclose]
    push_cast
    ring
  · have hlast : ((decode m).1 : ℚ) = 2 * fractions - 1 := by
      rw [eq_sub_iff_add_eq]
      exact_mod_cast hlast
    rw [hnext, if_pos hclose, hlast, show (decode m).2 + 1 - 2 = (decode m).2 - 2 + 1 by ring,
      zpow_add_one₀ two_ne_zero]
    ring

theorem lowerEnd_lt_upperEnd (m : Nat) : lowerEnd m < upperEnd m := by
  refine mul_lt_mul_of_pos_right ?_ (quarter_pos m)
  split <;> linarith

theorem strictMono_lowerEnd : StrictMono lowerEnd :=
  strictMono_nat_of_lt_succ fun m => lowerEnd_succ m ▸ lowerEnd_lt_upperEnd m

theorem RoundsTo.le (h : RoundsTo v m) : lowerEnd m ≤ v ∧ v ≤ upperEnd m := by
  unfold RoundsTo at h
  split at h
  · exact h
  · exact ⟨h.1.le, h.2.le⟩

/-- A number is not rounded to two magnitudes. -/
theorem RoundsTo.not_lt (hm : RoundsTo v m) (hn : RoundsTo v n) : ¬ m < n := by
  intro hlt
  have hbelow : v ≤ lowerEnd (m + 1) := lowerEnd_succ m ▸ hm.le.2
  have hsucc : lowerEnd (m + 1) ≤ lowerEnd n := strictMono_lowerEnd.monotone hlt
  have habove : lowerEnd n ≤ v := hn.le.1
  obtain rfl : m + 1 = n := strictMono_lowerEnd.injective (le_antisymm hsucc (habove.trans hbelow))
  -- Only the middle is in both intervals, and one of two neighbours is odd.
  unfold RoundsTo at hm hn
  rw [← lowerEnd_succ] at hm
  split at hm
  · rw [if_neg (by omega)] at hn
    exact absurd (hn.1.trans_le hm.2) (lt_irrefl _)
  · exact absurd (hm.2.trans_le habove) (lt_irrefl _)

theorem RoundsTo.unique (hm : RoundsTo v m) (hn : RoundsTo v n) : m = n :=
  le_antisymm (Nat.not_lt.mp (hn.not_lt hm)) (Nat.not_lt.mp (hm.not_lt hn))

/-! ## The grid -/

/-- A power of two as a ratio of natural numbers. -/
theorem scaled_one (shift : Int) :
    0 < (scaled 1 1 shift).1 ∧ 0 < (scaled 1 1 shift).2 ∧
      ((scaled 1 1 shift).1 : ℚ) / (scaled 1 1 shift).2 = 2 ^ (-shift) := by
  unfold scaled
  split
  · next h =>
    obtain ⟨k, rfl⟩ := Int.eq_ofNat_of_zero_le h
    simp [Nat.shiftLeft_eq, zpow_neg]
  · next h =>
    obtain ⟨k, hk⟩ := Int.eq_ofNat_of_zero_le (show 0 ≤ -shift by omega)
    simp [Nat.shiftLeft_eq, hk]

theorem scaled_one_le {shift : Int} {k : Nat} (h : shift ≤ k) : (scaled 1 1 shift).2 ≤ 2 ^ k := by
  unfold scaled
  split
  · simp only [Nat.shiftLeft_eq, Nat.one_mul]
    exact Nat.pow_le_pow_right (by decide) (by omega)
  · exact Nat.one_le_two_pow

/-- A power of ten as a ratio of natural numbers. -/
def tenPower (e : Int) : Nat × Nat :=
  if 0 ≤ e then (Nat.pow 10 e.toNat, 1) else (1, Nat.pow 10 (-e).toNat)

theorem tenPower_spec (e : Int) :
    0 < (tenPower e).1 ∧ 0 < (tenPower e).2 ∧ ((tenPower e).1 : ℚ) / (tenPower e).2 = 10 ^ e := by
  unfold tenPower
  split
  · next h =>
    obtain ⟨k, rfl⟩ := Int.eq_ofNat_of_zero_le h
    simp
  · next h =>
    obtain ⟨k, hk⟩ := Int.eq_ofNat_of_zero_le (show 0 ≤ -e by omega)
    have he : e = -(k : Int) := by omega
    simp [he, zpow_neg]

/-- The distance of two points of the grid, in parts of a unit that divides all there is. -/
def gridStep (m : Nat) (e : Int) : Nat := (scaled 1 1 (2 - (decode m).2)).2 * (tenPower e).1

/-- A number of quarters, in parts of this unit. -/
def inParts (m : Nat) (e : Int) (quarters : Nat) : Nat :=
  quarters * (scaled 1 1 (2 - (decode m).2)).1 * (tenPower e).2

/-- The quarters below a magnitude and above it, up to the ends of its interval. -/
def quartersBelow (m : Nat) : Nat := 4 * (decode m).1 - if CloseBelow m then 1 else 2

/-- Number of parts of a whole. -/
def gridParts (m : Nat) (e : Int) : Nat := (scaled 1 1 (2 - (decode m).2)).2 * (tenPower e).2

theorem gridParts_pos (m : Nat) (e : Int) : (0 : ℚ) < gridParts m e := by
  exact_mod_cast Nat.mul_pos (scaled_one _).2.1 (tenPower_spec e).2.1

theorem inParts_div (m : Nat) (e : Int) (quarters : Nat) :
    (inParts m e quarters : ℚ) / gridParts m e = quarters * quarter m := by
  obtain ⟨-, hb, hq⟩ := scaled_one (2 - (decode m).2)
  obtain ⟨-, hp, -⟩ := tenPower_spec e
  rw [neg_sub] at hq
  rw [quarter, ← hq, inParts, gridParts]
  push_cast
  field_simp

theorem gridStep_div (m : Nat) (e : Int) (n : Nat) :
    (n * gridStep m e : Nat) / (gridParts m e : ℚ) = n * 10 ^ e := by
  obtain ⟨-, hb, -⟩ := scaled_one (2 - (decode m).2)
  obtain ⟨-, hp, he⟩ := tenPower_spec e
  rw [← he, gridStep, gridParts]
  push_cast
  field_simp

/-- Whether a point of the grid is in the interval of a magnitude. -/
def InGrid (m : Nat) (e : Int) (n : Nat) : Prop :=
  if (decode m).1 % 2 = 0 then
    inParts m e (quartersBelow m) ≤ n * gridStep m e ∧
      n * gridStep m e ≤ inParts m e (4 * (decode m).1 + 2)
  else
    inParts m e (quartersBelow m) < n * gridStep m e ∧
      n * gridStep m e < inParts m e (4 * (decode m).1 + 2)

theorem decode_pos (hpos : 0 < m) : 0 < (decode m).1 := by
  have hF := fractions_eq
  by_cases hzero : m / fractions = 0
  · rw [decode_of_zero hzero]
    have := Nat.div_add_mod m fractions
    rw [hzero] at this
    simp only
    omega
  · rw [decode_of_ne_zero hzero]
    simp only
    omega

theorem even_decode (m : Nat) : (decode m).1 % 2 = m % 2 := by
  have hF := fractions_eq
  by_cases hzero : m / fractions = 0
  · rw [decode_of_zero hzero, hF]
    simp only
    omega
  · rw [decode_of_ne_zero hzero, hF]
    simp only
    omega

theorem InGrid.roundsTo (hpos : 0 < m) (h : InGrid m e n) : RoundsTo (n * 10 ^ e) m := by
  have hlower : lowerEnd m = inParts m e (quartersBelow m) / (gridParts m e : ℚ) := by
    have := decode_pos hpos
    rw [inParts_div, lowerEnd, quartersBelow, Nat.cast_sub (by split <;> omega)]
    push_cast
    rfl
  have hupper : upperEnd m = inParts m e (4 * (decode m).1 + 2) / (gridParts m e : ℚ) := by
    rw [inParts_div, upperEnd]
    push_cast
    rfl
  unfold InGrid at h
  unfold RoundsTo
  rw [even_decode] at h
  rw [hlower, hupper, ← gridStep_div m e, div_le_div_iff_of_pos_right (gridParts_pos m e),
    div_le_div_iff_of_pos_right (gridParts_pos m e),
    div_lt_div_iff_of_pos_right (gridParts_pos m e),
    div_lt_div_iff_of_pos_right (gridParts_pos m e)]
  exact_mod_cast h

instance (m : Nat) (e : Int) (n : Nat) : Decidable (InGrid m e n) :=
  inferInstanceAs (Decidable (ite _ _ _))

/-- The point that is chosen is the one below the magnitude or above it, and in the interval. -/
theorem gridPoint?_cases (format : DecimalFormat) (m : Nat) (e : Int) :
    let below := inParts m e (4 * (decode m).1) / gridStep m e
    (∃ n, gridPoint? format m e = some n ∧ InGrid m e n) ∨
      (gridPoint? format m e = none ∧ ¬ InGrid m e below ∧ ¬ InGrid m e (below + 1)) := by
  intro below
  have hholds (n : Nat) : (if (decode m).1 % 2 = 0 then
        decide (inParts m e (quartersBelow m) ≤ n * gridStep m e) &&
          decide (n * gridStep m e ≤ inParts m e (4 * (decode m).1 + 2))
      else
        decide (inParts m e (quartersBelow m) < n * gridStep m e) &&
          decide (n * gridStep m e < inParts m e (4 * (decode m).1 + 2))) =
        decide (InGrid m e n) := by
    unfold InGrid
    split <;> simp
  have hten :
      (if 0 ≤ e then (Nat.pow 10 e.toNat, 1) else (1, Nat.pow 10 (-e).toNat)) = tenPower e :=
    rfl
  unfold gridPoint?
  rw [hten]
  dsimp only
  split
  · next hin _ => exact .inl ⟨_, rfl, of_decide_eq_true ((hholds below).symm.trans hin)⟩
  · next _ hin => exact .inl ⟨_, rfl, of_decide_eq_true ((hholds (below + 1)).symm.trans hin)⟩
  · next hbelow habove =>
    exact .inr ⟨rfl, of_decide_eq_false ((hholds below).symm.trans hbelow),
      of_decide_eq_false ((hholds (below + 1)).symm.trans habove)⟩
  · next hbelow habove =>
    have hbelow := of_decide_eq_true ((hholds below).symm.trans hbelow)
    have habove := of_decide_eq_true ((hholds (below + 1)).symm.trans habove)
    refine .inl ?_
    split
    · exact ⟨_, rfl, hbelow⟩
    · split
      · exact ⟨_, rfl, habove⟩
      · split
        · exact ⟨_, rfl, hbelow⟩
        · exact ⟨_, rfl, habove⟩

/-- A grid that is fine enough has a point in the interval: the one below the magnitude. -/
theorem inGrid_of_fine (hpos : 0 < m) (hfine : gridStep m e ≤ inParts m e 1) :
    InGrid m e (inParts m e (4 * (decode m).1) / gridStep m e) := by
  have hstep : 0 < gridStep m e := Nat.mul_pos (scaled_one _).2.1 (tenPower_spec e).1
  have hbelow := Nat.div_mul_le_self (inParts m e (4 * (decode m).1)) (gridStep m e)
  have habove := Nat.lt_div_mul_add (a := inParts m e (4 * (decode m).1)) hstep
  have hadd (i j : Nat) : inParts m e (i + j) = inParts m e i + inParts m e j := by
    unfold inParts
    ring
  have hmono {i j : Nat} (h : i ≤ j) : inParts m e i ≤ inParts m e j :=
    Nat.mul_le_mul_right _ (Nat.mul_le_mul_right _ h)
  have hlow : inParts m e (quartersBelow m) + inParts m e 1 ≤ inParts m e (4 * (decode m).1) := by
    have := decode_pos hpos
    rw [← hadd]
    refine hmono ?_
    unfold quartersBelow
    split <;> omega
  have hone :
      inParts m e (4 * (decode m).1) + inParts m e 1 ≤ inParts m e (4 * (decode m).1 + 2) := by
    rw [← hadd]
    exact hmono (by omega)
  unfold InGrid
  split
  · exact ⟨by omega, by omega⟩
  · exact ⟨by omega, by omega⟩

/-! ## The search -/

theorem le_decode (m : Nat) : -1074 ≤ (decode m).2 := by
  by_cases hzero : m / fractions = 0
  · rw [decode_of_zero hzero]
  · have hone : (1 : Int) ≤ ((m / fractions : Nat) : Int) := by
      exact_mod_cast Nat.one_le_iff_ne_zero.mpr hzero
    rw [decode_of_ne_zero hzero]
    simp only
    linarith

/-- The last grid of the search is fine enough for every magnitude. -/
theorem gridStep_le_last (m : Nat) : gridStep m (-330) ≤ inParts m (-330) 1 := by
  have hstep : (scaled 1 1 (2 - (decode m).2)).2 ≤ 2 ^ 1076 :=
    scaled_one_le (by have := le_decode m; omega)
  have hunit : 0 < (scaled 1 1 (2 - (decode m).2)).1 := (scaled_one _).1
  calc gridStep m (-330) ≤ 2 ^ 1076 := by rwa [gridStep, tenPower, if_neg (by decide), Nat.mul_one]
    _ ≤ (tenPower (-330)).2 := by decide +kernel
    _ ≤ inParts m (-330) 1 := by
      rw [inParts, Nat.one_mul]
      exact Nat.le_mul_of_pos_left _ hunit

/-- A search that comes to the last grid ends in the interval. -/
theorem inGrid_shortestFrom (hpos : 0 < m) {fuel : Nat} (h : e - fuel < -330) (he : -330 ≤ e) :
    InGrid m (shortestFrom format m fuel e).2 (shortestFrom format m fuel e).1 := by
  induction fuel generalizing e with
  | zero => omega
  | succ fuel ih =>
    unfold shortestFrom
    obtain ⟨n, hn, hin⟩ | ⟨hnone, hbelow, -⟩ := gridPoint?_cases format m e
    · rw [hn]
      exact hin
    · rw [hnone]
      refine ih (by push_cast at h; omega) ?_
      by_contra hlast
      obtain rfl : e = -330 := by omega
      exact hbelow (inGrid_of_fine hpos (gridStep_le_last m))

/-- The shortest decimal of a positive magnitude is rounded to it. -/
theorem roundsTo_shortest (format : DecimalFormat) (hpos : 0 < m) :
    RoundsTo ((shortest format m).1 * 10 ^ (shortest format m).2) m :=
  (inGrid_shortestFrom hpos (by decide) (by decide)).roundsTo hpos

end LoopKernel.Binary64
