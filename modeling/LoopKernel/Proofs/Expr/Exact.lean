import LoopKernel.Proofs.Expr.Evaluation
import Mathlib.Algebra.BigOperators.Ring.Finset
import Mathlib.Data.Rat.Floor

/-!
# Exact values of expressions

The value that an expression has among the rational numbers, where floor divisions and remainders go
by a quotient that is rounded to an integer. A value that is computed is exact, with quotients that
leave no negative remainder. These are the floors of the exact quotients where divisors are
positive. A negative divisor gives the floor exactly if it leaves no remainder.
-/

namespace LoopKernel.Expr

/-- The floor of the quotient. -/
def floorQuotient (x y : ℚ) : ℤ := ⌊x / y⌋

/-- The integer quotient that leaves no negative remainder. -/
def euclideanQuotient (x y : ℚ) : ℤ := if 0 < y then ⌊x / y⌋ else ⌈x / y⌉

/-- The exact result of an operation, for a way to round quotients. -/
def exactBinary (rounded : ℚ → ℚ → ℤ) : BinaryOp → ℚ → ℚ → Option ℚ
  | .quotient, x, y => if y = 0 then none else some (x / y)
  | .floorDiv, x, y => if y = 0 then none else some (rounded x y)
  | .remainder, x, y => if y = 0 then none else some (x - y * rounded x y)
  | .power, x, y => if y.den = 1 ∧ 0 ≤ y.num then some (x ^ y.num.toNat) else none

mutual

/-- The exact value of an expression of integers and variables, for a way to round quotients. -/
def exactValue (rounded : ℚ → ℚ → ℤ) (env : String → Option Int) : Expr → Option ℚ
  | .int n => some n
  | .var name => (env name).map Int.cast
  | .sum terms => (exactValues rounded env terms).map List.sum
  | .product factors => (exactValues rounded env factors).map List.prod
  | .binary op a b => do
    exactBinary rounded op (← a.exactValue rounded env) (← b.exactValue rounded env)
  | _ => none

/-- The exact values of several expressions. -/
def exactValues (rounded : ℚ → ℚ → ℤ) (env : String → Option Int) : List Expr → Option (List ℚ)
  | [] => some []
  | e :: rest => do pure ((← e.exactValue rounded env) :: (← exactValues rounded env rest))

end

variable {rounded : ℚ → ℚ → ℤ} {env : String → Option Int} {e a b p : Expr} {es : List Expr}
  {op : BinaryOp} {x y n : Int} {values : List Int}

/-! ## Rounded quotients -/

/-- Quotients of integers are divided so that no negative remainder is left. -/
theorem euclideanQuotient_intCast (hy : y ≠ 0) : euclideanQuotient x y = x / y := by
  obtain ⟨d, rfl | rfl⟩ := y.eq_nat_or_neg
  · have hpos : (0 : ℚ) < ((d : ℤ) : ℚ) := by
      rw [Int.cast_pos]
      omega
    rw [euclideanQuotient, if_pos hpos, Int.cast_natCast, Rat.floor_intCast_div_natCast]
  · have hneg : ¬(0 : ℚ) < ((-(d : ℤ) : ℤ) : ℚ) := by
      rw [Int.cast_pos]
      omega
    rw [euclideanQuotient, if_neg hneg, Int.cast_neg, Int.cast_natCast, div_neg, Int.ceil_neg,
      Rat.floor_intCast_div_natCast, Int.ediv_neg]

/-- The floor is the quotient without negative remainder exactly if a negative divisor leaves no
remainder. -/
theorem floorQuotient_intCast_iff (hy : y ≠ 0) :
    floorQuotient x y = x / y ↔ (y < 0 → y ∣ x) := by
  have hy' : (y : ℚ) ≠ 0 := Int.cast_ne_zero.mpr hy
  rw [← euclideanQuotient_intCast hy, floorQuotient, euclideanQuotient]
  split
  · next hpos =>
    rw [Int.cast_pos] at hpos
    exact iff_of_true rfl fun hneg => absurd hneg hpos.not_gt
  · next hpos =>
    rw [Int.cast_pos] at hpos
    have hneg : y < 0 := by omega
    constructor
    · intro h _
      -- the quotient lies between its floor and its ceiling
      have hquotient : (x : ℚ) / y = (⌊(x : ℚ) / y⌋ : ℤ) :=
        le_antisymm (h ▸ Int.le_ceil _) (Int.floor_le _)
      rw [div_eq_iff hy'] at hquotient
      exact ⟨⌊(x : ℚ) / y⌋, by exact_mod_cast hquotient.trans (mul_comm _ _)⟩
    · intro h
      obtain ⟨k, rfl⟩ := h hneg
      rw [Int.cast_mul, mul_div_cancel_left₀ _ hy', Int.floor_intCast, Int.ceil_intCast]

/-! ## Operations -/

/-- Powers of zero, one and minus one repeat with period two. -/
private theorem pow_of_natAbs_le_one {base : Int} (hbase : base.natAbs ≤ 1) (exponent : Nat) :
    base ^ (if exponent = 0 then 0 else 2 - exponent % 2) = base ^ exponent := by
  split
  · next hzero => rw [hzero]
  · next hpos =>
    obtain rfl | rfl | rfl : base = 0 ∨ base = 1 ∨ base = -1 := by omega
    · rw [zero_pow (by omega), zero_pow hpos]
    · rw [one_pow, one_pow]
    · rcases Nat.even_or_odd exponent with heven | hodd
      · rw [Nat.even_iff.mp heven, heven.neg_one_pow]
        rfl
      · rw [Nat.odd_iff.mp hodd, hodd.neg_one_pow]
        rfl

/-- Powers that exist are exact. -/
theorem eq_pow_of_power64? {base : Int} {exponent : Nat} (h : power64? base exponent = some n) :
    n = base ^ exponent := by
  unfold power64? at h
  split at h
  · next hbase =>
    rw [Option.some.injEq, Int.pow_eq, pow_of_natAbs_le_one hbase] at h
    exact h.symm
  · split at h
    · unfold WordRange.fit? at h
      split at h
      · exact (Option.some.inj h).symm
      · cases h
    · cases h

/-- A floor division or remainder is exact exactly if its quotient is rounded as it is computed. -/
theorem exactBinary_eq_some_iff (hop : op = .floorDiv ∨ op = .remainder) (hy : y ≠ 0)
    (h : applyBinary op x y = .ok (some n)) :
    exactBinary rounded op x y = some (n : ℚ) ↔ rounded x y = x / y := by
  have hy' : (y : ℚ) ≠ 0 := Int.cast_ne_zero.mpr hy
  rcases hop with rfl | rfl <;>
    simp only [applyBinary, if_neg hy, Attempt.bind_eq_ok, WordRange.check_eq_ok,
      Attempt.pure_eq_ok, Option.some.injEq] at h <;>
    obtain ⟨_, ⟨-, rfl⟩, rfl⟩ := h
  · rw [exactBinary, if_neg hy', Option.some.injEq, Int.cast_inj]
  · rw [exactBinary, if_neg hy', Option.some.injEq, Int.emod_def, Int.cast_sub, Int.cast_mul,
      sub_right_inj, mul_right_inj' hy', Int.cast_inj]

/-- The result of an operation is exact if a quotient is rounded as it is computed. -/
theorem exactBinary_of_applyBinary (haccepts : acceptsRight op y = true)
    (hrounded : op = .floorDiv ∨ op = .remainder → y ≠ 0 → rounded x y = x / y)
    (h : applyBinary op x y = .ok (some n)) : exactBinary rounded op x y = some (n : ℚ) := by
  cases op with
  | floorDiv =>
    have hy : y ≠ 0 := by simpa [acceptsRight] using haccepts
    exact (exactBinary_eq_some_iff (.inl rfl) hy h).mpr (hrounded (.inl rfl) hy)
  | remainder =>
    have hy : y ≠ 0 := by simpa [acceptsRight] using haccepts
    exact (exactBinary_eq_some_iff (.inr rfl) hy h).mpr (hrounded (.inr rfl) hy)
  | power =>
    have hnonneg : 0 ≤ y := (of_decide_eq_true haccepts).1
    simp only [applyBinary, Attempt.pure_eq_ok] at h
    obtain ⟨k, rfl⟩ := Int.eq_ofNat_of_zero_le hnonneg
    rw [eq_pow_of_power64? h]
    simp [exactBinary]
  | quotient =>
    simp only [applyBinary] at h
    split at h
    · cases h
    · next hy =>
      have hy' : (y : ℚ) ≠ 0 := Int.cast_ne_zero.mpr hy
      simp only [Attempt.bind_eq_ok, WordRange.check_eq_ok, Attempt.pure_eq_ok] at h
      obtain ⟨_, ⟨-, rfl⟩, h⟩ := h
      split at h
      · next hdvd =>
        obtain ⟨k, rfl⟩ := Int.dvd_of_emod_eq_zero hdvd
        rw [Option.some.injEq, Int.mul_ediv_cancel_left k hy] at h
        rw [exactBinary, if_neg hy', ← h, Int.cast_mul, mul_div_cancel_left₀ _ hy']
      · cases h

/-- A floor division or remainder that is computed safely has a result. -/
theorem exists_applyBinary_eq_ok (hop : op = .floorDiv ∨ op = .remainder) (hy : y ≠ 0)
    (hsafe : (applyBinary op x y).Safe) : ∃ n, applyBinary op x y = .ok (some n) := by
  obtain ⟨r, hr⟩ := Attempt.exists_eq_ok_of_safe hsafe
  cases r with
  | some n => exact ⟨n, hr⟩
  | none =>
    rcases hop with rfl | rfl <;>
      simp only [applyBinary, if_neg hy, Attempt.bind_eq_ok, Attempt.pure_eq_ok, reduceCtorEq,
        and_false, exists_false] at hr

/-! ## Expressions -/

/-- Exact values of all parts are taken together. -/
theorem exactValues_of_forall₂
    (h : List.Forall₂ (fun e (n : Int) => e.exactValue rounded env = some (n : ℚ)) es values) :
    exactValues rounded env es = some (values.map Int.cast) := by
  induction h with
  | nil => rfl
  | cons hvalue _ ih =>
    rw [exactValues, hvalue, ih]
    rfl

/-- A value is exact if the values of the parts are, and if a quotient is rounded as it is
computed. -/
theorem exactValue_of_children (h : e.HasValue env n)
    (hchildren : ∀ c ∈ e.children, ∀ m, c.HasValue env m →
      c.exactValue rounded env = some (m : ℚ))
    (hrounded : ∀ op a b x y, e = .binary op a b → (op = .floorDiv ∨ op = .remainder) →
      a.HasValue env x → b.HasValue env y → y ≠ 0 → rounded x y = x / y) :
    e.exactValue rounded env = some (n : ℚ) := by
  have hexact : ∀ values, List.Forall₂ (HasValue env) e.children values →
      exactValues rounded env e.children = some (values.map Int.cast) := by
    intro values hvalues
    exact exactValues_of_forall₂ (((List.forall₂_and_left _ _).mpr ⟨hchildren, hvalues⟩).imp
      fun _ m hc => hc.1 m hc.2)
  cases e with
  | int m => rw [exactValue, hasValue_int.mp h]
  | var name => rw [exactValue, hasValue_var.mp h, Option.map_some]
  | sum es =>
    obtain ⟨values, hvalues, rfl⟩ := exists_values_of_sum h
    have hterms : exactValues rounded env es = _ := hexact values hvalues
    rw [exactValue, hterms, Option.map_some, Int.cast_list_sum]
  | product es =>
    obtain ⟨values, hvalues, rfl⟩ := exists_values_of_product h
    have hfactors : exactValues rounded env es = _ := hexact values hvalues
    rw [exactValue, hfactors, Option.map_some, Int.cast_list_prod]
  | binary op a b =>
    obtain ⟨x, y, hx, hy, haccepts, h⟩ := hasValue_binary_iff.mp h
    rw [exactValue, hchildren a (by simp [children]) x hx, hchildren b (by simp [children]) y hy]
    exact exactBinary_of_applyBinary haccepts (fun hop => hrounded op a b x y rfl hop hx hy) h
  | _ => simp [HasValue, evalInt] at h

/-- Whether a floor division or remainder has a negative divisor that leaves a remainder. -/
def DividesUnevenly (env : String → Option Int) (e : Expr) : Prop :=
  ∃ op a b x y, e = .binary op a b ∧ (op = .floorDiv ∨ op = .remainder) ∧ a.HasValue env x ∧
    b.HasValue env y ∧ y < 0 ∧ ¬y ∣ x

/-- Values are exact if the quotients that evaluation comes to are rounded as they are computed. -/
theorem exactValue_of_hasValue (e : Expr)
    (hrounded : ∀ op a b x y, e.Reaches env (.binary op a b) → (op = .floorDiv ∨ op = .remainder) →
      a.HasValue env x → b.HasValue env y → y ≠ 0 → rounded x y = x / y) :
    ∀ n, e.HasValue env n → e.exactValue rounded env = some (n : ℚ) := by
  revert hrounded
  apply induction_on_children ?_ e
  intro e ih hrounded n h
  refine exactValue_of_children h (fun c hc => ih c hc fun op a b x y hp => ?_) ?_
  · exact hrounded op a b x y (.head (visits_of_mem_children h hc) hp)
  · rintro op a b x y rfl
    exact hrounded op a b x y .refl

/-- An uneven division that evaluation comes to makes a value inexact among floors. -/
theorem not_dividesUnevenly_of_exact
    (henv : ∀ name n, env name = some n → WordRange.signed64.Holds n)
    (hints : ∀ n, p.Contains (.int n) → WordRange.signed64.Holds n)
    (hexact : ∀ q, p.Reaches env q → ∀ n, q.HasValue env n →
      q.exactValue floorQuotient env = some (n : ℚ)) : ¬p.DividesUnevenly env := by
  rintro ⟨op, a, b, x, y, rfl, hop, hx, hy, hneg, hdvd⟩
  have hy0 : y ≠ 0 := hneg.ne
  have haccepts : acceptsRight op y = true := by rcases hop with rfl | rfl <;> simpa [acceptsRight]
  have hquotient : op ≠ .quotient := by rcases hop with rfl | rfl <;> decide
  have hwordx := holds_of_hasValue henv a (fun n hn => hints n (.head (by simp [children]) hn)) x hx
  have hwordy := holds_of_hasValue henv b (fun n hn => hints n (.head (by simp [children]) hn)) y hy
  -- minus one leaves no remainder, so the quotient is a word
  have hsafe : (applyBinary op x y).Safe := by
    rw [safe_applyBinary_iff hwordx hwordy]
    rintro ⟨-, -, rfl⟩
    exact hdvd (neg_dvd.mpr (one_dvd x))
  obtain ⟨n, hn⟩ := exists_applyBinary_eq_ok hop hy0 hsafe
  have hvalue := hexact _ .refl n (hasValue_binary_iff.mpr ⟨x, y, hx, hy, haccepts, hn⟩)
  have hleft := hexact a (.single (.left hquotient hy haccepts)) x hx
  have hright := hexact b (.single (.right hquotient)) y hy
  rw [exactValue, hleft, hright] at hvalue
  exact hdvd ((floorQuotient_intCast_iff hy0).mp ((exactBinary_eq_some_iff hop hy0 hn).mp hvalue)
    hneg)

/-- Evaluation overflows exactly if it comes to a division of the least word by minus one. The value
of an expression is a word and exact, with integer quotients that leave no negative remainder. The
values that evaluation comes to are all exact with the floors of quotients exactly if no floor
division and no remainder on the way has a negative divisor that leaves a remainder. -/
theorem evalInt_exact_iff (henv : ∀ name n, env name = some n → WordRange.signed64.Holds n)
    (hints : ∀ n, e.Contains (.int n) → WordRange.signed64.Holds n) :
    ((∃ r, e.evalInt env = .ok r) ↔ ∀ p, e.Reaches env p → ¬p.DividesLeast env) ∧
      (∀ n, e.HasValue env n →
        WordRange.signed64.Holds n ∧ e.exactValue euclideanQuotient env = some (n : ℚ)) ∧
      ((∀ p, e.Reaches env p → ∀ n, p.HasValue env n →
          p.exactValue floorQuotient env = some (n : ℚ)) ↔
        ∀ p, e.Reaches env p → ¬p.DividesUnevenly env) := by
  refine ⟨?_, fun n h => ⟨holds_of_hasValue henv e hints n h, ?_⟩, ?_, ?_⟩
  · rw [← safe_evalInt_iff henv e hints]
    exact ⟨fun ⟨r, hr⟩ => hr ▸ Attempt.safe_ok r, Attempt.exists_eq_ok_of_safe⟩
  · exact exactValue_of_hasValue e (fun _ _ _ _ _ _ _ _ _ => euclideanQuotient_intCast) n h
  · intro hexact p hp
    exact not_dividesUnevenly_of_exact henv (fun n hn => hints n (hp.contains.trans hn))
      fun q hq => hexact q (hp.trans hq)
  · intro heven p hp
    refine exactValue_of_hasValue p fun op a b x y hq hop hx hy hy0 => ?_
    rw [floorQuotient_intCast_iff hy0]
    intro hneg
    by_contra hdvd
    exact heven _ (hp.trans hq) ⟨op, a, b, x, y, rfl, hop, hx, hy, hneg, hdvd⟩

/-- `i // 2 + 7 % -2`. -/
def mixedDivisions : Expr :=
  .sum [.binary .floorDiv (.var "i") (.int 2), .binary .remainder (.int 7) (.int (-2))]

/-- With `i = -7` the quotient is the floor `-4` and the remainder is `1`, which goes with the
quotient `-3`. With the floor `-4` of `7 / -2` the remainder would be `-1`. -/
theorem evalInt_exact_iff_mixedDivisions :
    mixedDivisions.HasValue (fun _ => some (-7)) (-3) ∧
      mixedDivisions.exactValue euclideanQuotient (fun _ => some (-7)) = some (-3) ∧
      mixedDivisions.exactValue floorQuotient (fun _ => some (-7)) = some (-5) ∧
      (∀ p, mixedDivisions.Reaches (fun _ => some (-7)) p → ¬p.DividesLeast fun _ => some (-7)) ∧
      ∃ p, mixedDivisions.Reaches (fun _ => some (-7)) p ∧
        p.DividesUnevenly (fun _ => some (-7)) := by
  have hliterals : mixedDivisions.LiteralsFit := by
    simp [mixedDivisions, LiteralsFit, AllLiteralsFit]
  have hvalue : mixedDivisions.HasValue (fun _ => some (-7)) (-3) := by decide
  have hfloor : mixedDivisions.exactValue floorQuotient (fun _ => some (-7)) = some (-5) := by
    decide +kernel
  have henv : ∀ name n, (fun _ => some (-7) : String → Option Int) name = some n →
      WordRange.signed64.Holds n := by
    rintro _ _ ⟨⟩
    decide
  obtain ⟨hsafe, hexact, hfloors⟩ := evalInt_exact_iff henv fun n => hliterals.holds_of_contains
  refine ⟨hvalue, (hexact _ hvalue).2, hfloor, hsafe.mp ⟨_, hvalue⟩, ?_⟩
  by_contra hnone
  push Not at hnone
  have hthree := hfloors.mpr hnone _ .refl _ hvalue
  rw [hfloor] at hthree
  norm_num at hthree

end LoopKernel.Expr
