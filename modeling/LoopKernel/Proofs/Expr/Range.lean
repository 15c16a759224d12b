import LoopKernel.Expr.Evaluation
import LoopKernel.Proofs.Affine.Range

/-!
# Ranges of expressions

The literals of an expression, its affine form, and its integer value. Negation and evaluation keep
to words, apart from a division of the least word by minus one; an affine form is computed within
words if bounds on its parts say so.
-/

namespace LoopKernel

/-! ## Literals -/

namespace Expr

mutual

/-- Whether the integers in an expression have negations within words. -/
def LiteralsFit : Expr → Prop
  | .int n => n.natAbs < 2 ^ 63
  | .float _ | .var _ | .tagged _ _ => True
  | .subscript _ index => AllLiteralsFit index
  | .sum es | .product es => AllLiteralsFit es
  | .binary _ a b => a.LiteralsFit ∧ b.LiteralsFit
  | .call _ args => AllLiteralsFit args
  | .reduction _ _ body => body.LiteralsFit

/-- Whether the integers in several expressions have negations within words. -/
def AllLiteralsFit : List Expr → Prop
  | [] => True
  | e :: rest => e.LiteralsFit ∧ AllLiteralsFit rest

end

variable {e f l r : Expr} {es : List Expr}

theorem allLiteralsFit_append {fs : List Expr} :
    AllLiteralsFit (es ++ fs) ↔ AllLiteralsFit es ∧ AllLiteralsFit fs := by
  induction es with
  | nil => simp [AllLiteralsFit]
  | cons e rest ih => simp [AllLiteralsFit, ih, and_assoc]

/-- Negating does not overflow. -/
theorem LiteralsFit.safe_negate (h : e.LiteralsFit) : e.negate.Safe := by
  unfold Expr.negate
  split
  · next n =>
    rw [LiteralsFit] at h
    refine Attempt.Safe.bind (safe_check64 ?_) fun _ _ => Attempt.safe_pure _
    rwa [Int.natAbs_neg]
  · exact Attempt.safe_pure _
  · exact Attempt.safe_pure _

theorem LiteralsFit.negate (h : e.LiteralsFit) (hf : e.negate = .ok f) : f.LiteralsFit := by
  unfold Expr.negate at hf
  split at hf
  · next n =>
    simp only [Attempt.bind_eq_ok, WordRange.check_eq_ok, Attempt.pure_eq_ok] at hf
    obtain ⟨_, ⟨-, rfl⟩, rfl⟩ := hf
    rw [LiteralsFit] at h ⊢
    rwa [Int.natAbs_neg]
  · rw [← Attempt.pure_eq_ok.mp hf]
    trivial
  · rw [← Attempt.pure_eq_ok.mp hf]
    exact ⟨by simp [LiteralsFit], h, trivial⟩

theorem LiteralsFit.add (hl : l.LiteralsFit) (hr : r.LiteralsFit) : (l.add r).LiteralsFit := by
  unfold Expr.add
  split
  · exact allLiteralsFit_append.mpr ⟨hl, hr, trivial⟩
  · exact ⟨hl, hr, trivial⟩

theorem LiteralsFit.mul (hl : l.LiteralsFit) (hr : r.LiteralsFit) : (l.mul r).LiteralsFit := by
  unfold Expr.mul
  split
  · exact allLiteralsFit_append.mpr ⟨hl, hr, trivial⟩
  · exact ⟨hl, hr, trivial⟩

end Expr

/-! ## Affine forms -/

namespace Affine

variable {f g : Affine} {A B : Option String → Nat}

/-- Bounds for a product of two forms of which one is constant. -/
def mulBound (A B : Option String → Nat) : Option String → Nat
  | none => A none * B none
  | some name => A none * B (some name) + A (some name) * B none

theorem le_mulBound_left (p : Option String) : A p * B none ≤ mulBound A B p := by
  cases p with
  | none => exact le_rfl
  | some _ => exact Nat.le_add_left _ _

theorem le_mulBound_right (p : Option String) : A none * B p ≤ mulBound A B p := by
  cases p with
  | none => exact le_rfl
  | some _ => exact Nat.le_add_right _ _

/-- Bounds for the constant one. -/
def unit : Option String → Nat
  | none => 1
  | some _ => 0

theorem mulBound_unit (B : Option String → Nat) : mulBound unit B = B := by
  funext p
  cases p with
  | none => exact Nat.one_mul _
  | some _ => simp [mulBound, unit]

/-- Whether a form that may not exist is computed, and is within bounds if it exists. -/
abbrev Fits (x : Checked (Option Affine)) (bound : Option String → Nat) : Prop :=
  x.Gives fun f => f.Within bound

/-- Products within words are computed. -/
theorem fits_mulAffine? (hf : f.Within A) (hg : g.Within B)
    (h : ∀ p, mulBound A B p < 2 ^ 63) : Fits (Expr.mulAffine? f g) (mulBound A B) := by
  have hright : ∀ p, B p * f.constant.natAbs ≤ mulBound A B p := fun p =>
    (Nat.mul_comm _ _).le.trans ((Nat.mul_le_mul_right _ (hf none)).trans (le_mulBound_right p))
  have hleft : ∀ p, A p * g.constant.natAbs ≤ mulBound A B p := fun p =>
    (Nat.mul_le_mul_left _ (hg none)).trans (le_mulBound_left p)
  unfold Expr.mulAffine?
  split
  · exact Attempt.gives_bind.mpr ⟨safe_scale hg fun p => (hright p).trans_lt (h p), fun s hs =>
      Attempt.gives_some ((hg.scale hs).mono hright)⟩
  split
  · exact Attempt.gives_bind.mpr ⟨safe_scale hf fun p => (hleft p).trans_lt (h p), fun s hs =>
      Attempt.gives_some ((hf.scale hs).mono hleft)⟩
  · exact Attempt.gives_none

end Affine

namespace Expr

open LoopKernel.Affine (Fits mulBound unit)

variable {e f l r : Expr} {total : Affine} {A B : Option String → Nat} {es fs : List Expr}

/-- A sum goes on after its first terms. -/
theorem fits_sum_append (h : Fits (sumToAffine? total es) A)
    (hnext : ∀ t, t.Within A → Fits (sumToAffine? t fs) B) :
    Fits (sumToAffine? total (es ++ fs)) B := by
  induction es generalizing total with
  | nil => exact hnext total (h.2 total rfl)
  | cons e rest ih =>
    rw [sumToAffine?] at h
    rw [List.cons_append, sumToAffine?]
    obtain ⟨hsafe, hadds⟩ := (Attempt.gives_bind_option (by rfl)).mp h
    refine (Attempt.gives_bind_option (by rfl)).mpr ⟨hsafe, fun f hf => ?_⟩
    obtain ⟨hadd, hrest⟩ := Attempt.gives_bind.mp (hadds f hf)
    exact Attempt.gives_bind.mpr ⟨hadd, fun t ht => ih (hrest t ht)⟩

/-- A product goes on after its first factors. -/
theorem fits_product_append (h : Fits (productToAffine? total es) A)
    (hnext : ∀ t, t.Within A → Fits (productToAffine? t fs) B) :
    Fits (productToAffine? total (es ++ fs)) B := by
  induction es generalizing total with
  | nil => exact hnext total (h.2 total rfl)
  | cons e rest ih =>
    rw [productToAffine?] at h
    rw [List.cons_append, productToAffine?]
    obtain ⟨hsafe, hmuls⟩ := (Attempt.gives_bind_option (by rfl)).mp h
    refine (Attempt.gives_bind_option (by rfl)).mpr ⟨hsafe, fun f hf => ?_⟩
    obtain ⟨hmul, hrest⟩ := (Attempt.gives_bind_option (by rfl)).mp (hmuls f hf)
    exact (Attempt.gives_bind_option (by rfl)).mpr ⟨hmul, fun t ht => ih (hrest t ht)⟩

/-- One term is added to a total. -/
theorem fits_sum_one (htotal : total.Within A) (he : Fits e.toAffine? B)
    (h : ∀ p, A p + B p < 2 ^ 63) : Fits (sumToAffine? total [e]) fun p => A p + B p := by
  rw [sumToAffine?]
  refine (Attempt.gives_bind_option (by rfl)).mpr ⟨he.1, fun f hf => ?_⟩
  exact Attempt.gives_bind.mpr ⟨Affine.safe_add htotal (he.2 f hf) h, fun t ht =>
    Attempt.gives_some (htotal.add (he.2 f hf) ht)⟩

/-- A total is multiplied by one factor. -/
theorem fits_product_one (htotal : total.Within A) (he : Fits e.toAffine? B)
    (h : ∀ p, mulBound A B p < 2 ^ 63) : Fits (productToAffine? total [e]) (mulBound A B) := by
  rw [productToAffine?]
  refine (Attempt.gives_bind_option (by rfl)).mpr ⟨he.1, fun f hf => ?_⟩
  have hmul := Affine.fits_mulAffine? htotal (he.2 f hf) h
  exact (Attempt.gives_bind_option (by rfl)).mpr
    ⟨hmul.1, fun t ht => Attempt.gives_some (hmul.2 t ht)⟩

/-- The affine form of a sum is within the sums of the bounds. -/
theorem fits_add (hl : Fits l.toAffine? A) (hr : Fits r.toAffine? B)
    (h : ∀ p, A p + B p < 2 ^ 63) : Fits (l.add r).toAffine? fun p => A p + B p := by
  have hzero : (Affine.const 0).Within fun _ => 0 := .const le_rfl
  unfold Expr.add
  split
  · exact fits_sum_append hl fun t ht => fits_sum_one ht hr h
  · have hfirst := fits_sum_one hzero hl fun p =>
      (Nat.zero_add _).le.trans_lt ((Nat.le_add_right _ _).trans_lt (h p))
    simp only [Nat.zero_add] at hfirst
    exact fits_sum_append hfirst fun t ht => fits_sum_one ht hr h

/-- The affine form of a product is within the products of the bounds. -/
theorem fits_mul (hl : Fits l.toAffine? A) (hA : ∀ p, A p < 2 ^ 63) (hr : Fits r.toAffine? B)
    (h : ∀ p, mulBound A B p < 2 ^ 63) : Fits (l.mul r).toAffine? (mulBound A B) := by
  have hone : (Affine.const 1).Within unit := .const le_rfl
  unfold Expr.mul
  split
  · exact fits_product_append hl fun t ht => fits_product_one ht hr h
  · have hfirst := fits_product_one hone hl (by rwa [Affine.mulBound_unit])
    rw [Affine.mulBound_unit] at hfirst
    exact fits_product_append hfirst fun t ht => fits_product_one ht hr h

/-- The affine form of a negation is within the same bounds. -/
theorem fits_negate (he : Fits e.toAffine? A) (hA : ∀ p, A p < 2 ^ 63) (h : e.negate = .ok f) :
    Fits f.toAffine? A := by
  have hunit : ∀ {n : Int}, n.natAbs = 1 → (Affine.const n).Within unit := fun hn => .const hn.le
  unfold negate at h
  split at h
  · next n =>
    simp only [Attempt.bind_eq_ok, WordRange.check_eq_ok, Attempt.pure_eq_ok] at h
    obtain ⟨_, ⟨-, rfl⟩, rfl⟩ := h
    refine Attempt.gives_some (.const ?_)
    rw [Int.natAbs_neg]
    exact he.2 _ rfl none
  · rw [← Attempt.pure_eq_ok.mp h]
    exact Attempt.gives_none
  · rw [← Attempt.pure_eq_ok.mp h]
    have hminus : Fits (Expr.int (-1)).toAffine? unit := Attempt.gives_some (hunit rfl)
    have hsign := fits_product_one (hunit rfl : (Affine.const 1).Within unit) hminus
      (by
        rw [Affine.mulBound_unit]
        rintro (_ | _) <;> norm_num [unit])
    rw [Affine.mulBound_unit] at hsign
    have hall := fits_product_append hsign fun t ht => fits_product_one ht he
      (by rwa [Affine.mulBound_unit])
    rwa [Affine.mulBound_unit] at hall

end Expr

/-! ## Values -/

namespace Expr

open Attempt (Gives)

variable {env : String → Option Int} {a b n : Int}

/-- Powers that exist are words. -/
theorem holds_of_power64? {exponent : Nat} (h : power64? a exponent = some n) :
    WordRange.signed64.Holds n := by
  unfold power64? at h
  split at h
  · next hbase =>
    cases h
    have hpower : ∀ k, (a.pow k).natAbs ≤ 1 := fun k => by
      rw [Int.pow_eq, Int.natAbs_pow]
      exact pow_le_one₀ (Nat.zero_le _) hbase
    have hone := hpower (if exponent = 0 then 0 else 2 - exponent % 2)
    change -9223372036854775808 ≤ _ ∧ _ ≤ 9223372036854775807
    omega
  · split at h
    · exact WordRange.holds_of_fit? h
    · cases h

/-- Quotients of words are words, apart from the one of the least word by minus one. -/
theorem holds_ediv (ha : WordRange.signed64.Holds a)
    (h : ¬ (a = WordRange.signed64.least ∧ b = -1)) : WordRange.signed64.Holds (a / b) := by
  change -9223372036854775808 ≤ a ∧ a ≤ 9223372036854775807 at ha
  change ¬ (a = -9223372036854775808 ∧ b = -1) at h
  change -9223372036854775808 ≤ _ ∧ _ ≤ 9223372036854775807
  have hle := Int.natAbs_ediv_le_natAbs a b
  have hdivision := Int.mul_ediv_add_emod a b
  by_contra hout
  obtain hquotient : a / b = 9223372036854775808 := by omega
  -- Only the least word is as large in absolute value, and only minus one gives it back.
  rw [hquotient] at hdivision
  rcases eq_or_ne b 0 with rfl | hb
  · rw [Int.ediv_zero] at hquotient
    cases hquotient
  · have hnonneg := Int.emod_nonneg a hb
    have hlt := Int.emod_lt a hb
    omega

/-- An operation on words gives a word, unless the least word is divided by minus one. -/
theorem gives_applyBinary {op : BinaryOp} (ha : WordRange.signed64.Holds a)
    (hb : WordRange.signed64.Holds b)
    (h : op ≠ .power → ¬ (a = WordRange.signed64.least ∧ b = -1)) :
    Gives (applyBinary op a b) WordRange.signed64.Holds := by
  have hquotient : op ≠ .power → WordRange.signed64.Holds (a / b) := fun hop =>
    holds_ediv ha (h hop)
  have hgoes : ∀ next : Int → Checked (Option Int), op ≠ .power →
      (b ≠ 0 → Gives (next (a / b)) WordRange.signed64.Holds) →
      Gives (if b = 0 then pure none else do next (← check64 (a / b)))
        WordRange.signed64.Holds := by
    intro next hop hnext
    split
    · exact Attempt.gives_none
    · next hb0 =>
      refine Attempt.gives_bind.mpr ⟨WordRange.safe_check.mpr (hquotient hop), fun q hq => ?_⟩
      rw [← (WordRange.check_eq_ok.mp hq).2]
      exact hnext hb0
  cases op with
  | power => exact Attempt.gives_pure fun n => holds_of_power64?
  | floorDiv => exact hgoes _ nofun fun _ => Attempt.gives_some (hquotient nofun)
  | quotient =>
    refine hgoes _ nofun fun _ => Attempt.gives_pure fun n hn => ?_
    split at hn
    · cases hn
      exact hquotient nofun
    · cases hn
  | remainder =>
    refine hgoes _ nofun fun hb0 => Attempt.gives_some ?_
    have hnonneg := Int.emod_nonneg a hb0
    have hlt := Int.emod_lt a hb0
    change -9223372036854775808 ≤ b ∧ b ≤ 9223372036854775807 at hb
    change -9223372036854775808 ≤ _ ∧ _ ≤ 9223372036854775807
    omega

/-- Whether two values are the least word and minus one, whose quotient is no word. -/
def isLeastByMinusOne (x y : Checked (Option Int)) : Bool :=
  match x, y with
  | .ok (some a), .ok (some b) => a = WordRange.signed64.least && b = -1
  | _, _ => false

mutual

/-- Whether no division in an expression divides the least word by minus one. -/
def dividesWithin (env : String → Option Int) : Expr → Bool
  | .sum es | .product es => allDivideWithin env es
  | .binary op a b =>
    a.dividesWithin env && b.dividesWithin env &&
      (op = .power || !isLeastByMinusOne (a.evalInt env) (b.evalInt env))
  | _ => true

/-- Whether no division in several expressions divides the least word by minus one. -/
def allDivideWithin (env : String → Option Int) : List Expr → Bool
  | [] => true
  | e :: rest => e.dividesWithin env && allDivideWithin env rest

end

mutual

/-- An expression in which no division leaves the words is evaluated, to a word if it has a value.
-/
theorem gives_evalInt (henv : ∀ name n, env name = some n → WordRange.signed64.Holds n) :
    (e : Expr) → e.LiteralsFit → e.dividesWithin env = true →
    Gives (e.evalInt env) WordRange.signed64.Holds
  | .int n, he, _ => by
    rw [LiteralsFit] at he
    refine Attempt.gives_some ?_
    rw [← WordRange.safe_check]
    exact safe_check64 he
  | .var name, _, _ => Attempt.gives_pure fun n hn => henv name n hn
  | .sum es, he, h => by
    rw [LiteralsFit] at he
    rw [dividesWithin] at h
    exact gives_evalSum henv es 0 (by decide) he h
  | .product es, he, h => by
    rw [LiteralsFit] at he
    rw [dividesWithin] at h
    exact gives_evalProduct henv es 1 (by decide) he h
  | .binary op a b, he, h => by
    rw [LiteralsFit] at he
    simp only [dividesWithin, Bool.and_eq_true] at h
    obtain ⟨⟨ha, hb⟩, hdivision⟩ := h
    have hleft := gives_evalInt henv a he.1 ha
    have hright := gives_evalInt henv b he.2 hb
    have hwords : ∀ x y, a.evalInt env = .ok (some x) → b.evalInt env = .ok (some y) →
        Gives (applyBinary op x y) WordRange.signed64.Holds := by
      intro x y hx hy
      refine gives_applyBinary (hleft.2 x hx) (hright.2 y hy) fun hop => ?_
      rw [not_and_or]
      simpa [hop, hx, hy, isLeastByMinusOne] using hdivision
    have hgoes : Gives (do
        let some y ← b.evalInt env | pure none
        if acceptsRight op y then
          let some x ← a.evalInt env | pure none
          applyBinary op x y
        else pure none) WordRange.signed64.Holds := by
      refine (Attempt.gives_bind_option (by rfl)).mpr ⟨hright.1, fun y hy => ?_⟩
      dsimp only
      split
      · exact (Attempt.gives_bind_option (by rfl)).mpr ⟨hleft.1, fun x hx => hwords x y hx hy⟩
      · exact Attempt.gives_none
    cases op with
    | quotient =>
      exact (Attempt.gives_bind_option (by rfl)).mpr ⟨hleft.1, fun x hx =>
        (Attempt.gives_bind_option (by rfl)).mpr ⟨hright.1, fun y hy => hwords x y hx hy⟩⟩
    | _ => exact hgoes
  | .float _, _, _ | .tagged _ _, _, _ | .subscript _ _, _, _ | .call _ _, _, _
  | .reduction _ _ _, _, _ => Attempt.gives_none

theorem gives_evalSum (henv : ∀ name n, env name = some n → WordRange.signed64.Holds n) :
    (es : List Expr) → (total : Int) → WordRange.signed64.Holds total → AllLiteralsFit es →
    allDivideWithin env es = true → Gives (evalSum env total es) WordRange.signed64.Holds
  | [], total, htotal, _, _ => Attempt.gives_some htotal
  | e :: rest, total, htotal, hes, h => by
    rw [AllLiteralsFit] at hes
    rw [allDivideWithin, Bool.and_eq_true] at h
    rw [evalSum]
    refine (Attempt.gives_bind_option (by rfl)).mpr
      ((gives_evalInt henv e hes.1 h.1).mono fun n hn => ?_)
    dsimp only
    split
    · next next hnext =>
      exact gives_evalSum henv rest next (WordRange.holds_of_fit? hnext) hes.2 h.2
    · exact Attempt.gives_none

theorem gives_evalProduct (henv : ∀ name n, env name = some n → WordRange.signed64.Holds n) :
    (es : List Expr) → (total : Int) → WordRange.signed64.Holds total → AllLiteralsFit es →
    allDivideWithin env es = true → Gives (evalProduct env total es) WordRange.signed64.Holds
  | [], total, htotal, _, _ => Attempt.gives_some htotal
  | e :: rest, total, htotal, hes, h => by
    rw [AllLiteralsFit] at hes
    rw [allDivideWithin, Bool.and_eq_true] at h
    rw [evalProduct]
    refine (Attempt.gives_bind_option (by rfl)).mpr
      ((gives_evalInt henv e hes.1 h.1).mono fun n hn => ?_)
    dsimp only
    split
    · next next hnext =>
      exact gives_evalProduct henv rest next (WordRange.holds_of_fit? hnext) hes.2 h.2
    · exact Attempt.gives_none

end

end Expr

end LoopKernel
