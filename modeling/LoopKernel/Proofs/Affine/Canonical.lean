import LoopKernel.Proofs.Affine.Constraint
import LoopKernel.Proofs.Affine.Content
import Mathlib.Tactic.Linarith

/-!
# Normal forms of constraints

A normalized constraint is in lowest terms: no common divisor of its coefficients is left, except in
an equality without solutions, and an equality starts with a positive coefficient. Normalizing such
a constraint again changes nothing. Two of them with the same integer solutions are equal, provided
that they have variables and solutions: a half-space or a hyperplane of integer points has only one
description in lowest terms, up to the sign of an equality.
-/

namespace LoopKernel

/-! ## Half-spaces and hyperplanes -/

section Lattice

variable {V : Type} [AddCommGroup V] {L M : V →ₗ[Int] Int} {u w : V} {a b : Int}

/-- A function that takes the value one is determined up to its sign by where it is zero, among the
functions that do so. -/
theorem eq_or_eq_neg_of_ker (hL : L u = 1) (hM : M w = 1) (hker : ∀ v, L v = 0 → M v = 0) :
    M = L ∨ M = -L := by
  have hmultiple : ∀ v, M v = L v * M u := by
    intro v
    have hzero : M (v - L v • u) = 0 := hker _ (by simp [hL])
    rw [map_sub, map_smul, smul_eq_mul] at hzero
    omega
  have hunit : IsUnit (M u) := IsUnit.of_mul_eq_one (L w) (by rw [mul_comm, ← hmultiple, hM])
  refine (Int.isUnit_iff.mp hunit).imp (fun hone => ?_) fun hone => ?_ <;>
  · ext v
    rw [hmultiple, hone]
    simp

/-- A hyperplane of integer points has two descriptions in lowest terms, one the negation of the
other. -/
theorem eq_or_eq_neg_of_hyperplane (hL : L u = 1) (hM : M w = 1)
    (h : ∀ v, a + L v = 0 → b + M v = 0) : M = L ∧ b = a ∨ M = -L ∧ b = -a := by
  have hat : b + M (-a • u) = 0 := h _ (by simp [hL])
  have hker : ∀ v, L v = 0 → M v = 0 := by
    intro v hv
    have hmoved := h (-a • u + v) (by simp [hL, hv])
    rw [map_add] at hmoved
    omega
  rw [map_smul, smul_eq_mul] at hat
  refine (eq_or_eq_neg_of_ker hL hM hker).imp (fun heq => ⟨heq, ?_⟩) fun heq => ⟨heq, ?_⟩ <;>
  · rw [heq] at hat
    simp [hL] at hat
    omega

/-- A half-space of integer points has one description in lowest terms. -/
theorem eq_of_halfspace (hL : L u = 1) (hM : M w = 1) (h : ∀ v, 0 ≤ a + L v ↔ 0 ≤ b + M v) :
    M = L ∧ b = a := by
  -- Going from a point of the half-space in a direction in which the one function does not fall,
  -- the other one does not fall either.
  have hdirection : ∀ v, 0 ≤ L v → 0 ≤ M v := by
    intro v hv
    by_contra hfall
    have hfar : 0 ≤ a + L (-a • u + (|b + M (-a • u)| + 1) • v) := by
      have hadvance : 0 ≤ (|b + M (-a • u)| + 1) * L v := mul_nonneg (by positivity) hv
      simpa [hL] using hadvance
    have hbelow := (h _).mp hfar
    rw [map_add, map_smul M _ v, smul_eq_mul] at hbelow
    nlinarith [le_abs_self (b + M (-a • u)), abs_nonneg (b + M (-a • u))]
  have hker : ∀ v, L v = 0 → M v = 0 := by
    intro v hv
    have hup := hdirection v hv.ge
    have hdown := hdirection (-v) (by simp [hv])
    rw [map_neg] at hdown
    omega
  have heq : M = L := by
    refine (eq_or_eq_neg_of_ker hL hM hker).resolve_right fun hneg => ?_
    have hup := hdirection u (by omega)
    rw [hneg, LinearMap.neg_apply, hL] at hup
    omega
  refine ⟨heq, ?_⟩
  have hfrom := (h (-a • u)).mp (by simp [hL])
  have hback := (h (-b • u)).mpr (by simp [heq, hL])
  rw [heq, map_smul, hL, smul_eq_mul] at hfrom
  rw [map_smul, hL, smul_eq_mul] at hback
  omega

end Lattice

namespace Affine

variable {f g : Affine} {n : Nat}

/-! ## Parts of a normalization -/

/-- The form with its coefficients and its constant negated, whether words hold them or not. -/
def opposite (f : Affine) : Affine := ⟨f.coeffs.mapValues fun _ c => -c, -f.constant⟩

theorem entries_opposite (f : Affine) :
    f.opposite.coeffs.entries = f.coeffs.entries.map fun e => (e.1, -e.2) := rfl

theorem coeff_opposite (f : Affine) (name : String) : f.opposite.coeff name = -f.coeff name := by
  rw [opposite, coeff, coeff, SortedMap.getD, SortedMap.getD, SortedMap.get?_mapValues]
  cases f.coeffs.get? name <;> simp

theorem proper_opposite (hf : f.Proper) : f.opposite.Proper := by
  rw [proper_iff] at hf ⊢
  rw [entries_opposite, List.forall_mem_map]
  exact fun e he => neg_ne_zero.mpr (hf e he)

/-- A negation that does not overflow gives the opposite form. -/
theorem eq_opposite_of_neg (h : f.neg = .ok g) : g = f.opposite := by
  rw [neg, scale, if_neg (by decide)] at h
  simp only [Attempt.bind_eq_ok, WordRange.check_eq_ok, Attempt.pure_eq_ok] at h
  obtain ⟨coeffs, hcoeffs, _, ⟨-, rfl⟩, rfl⟩ := h
  unfold scaleCoeffs at hcoeffs
  split at hcoeffs
  · rw [Attempt.pure_eq_ok] at hcoeffs
    simp only [← hcoeffs, mul_neg_one, opposite]
  · simp at hcoeffs

/-- The opposite form has the same content. -/
theorem content_opposite (h : f.content = .ok n) : f.opposite.content = .ok n := by
  have hvalues : f.opposite.coeffs.values = f.coeffs.values.map fun c => -c :=
    SortedMap.values_mapValues ..
  rw [content_eq_ok, hvalues]
  simpa only [List.forall_mem_map, Int.natAbs_neg, Int.dvd_neg] using content_eq_ok.mp h

/-- Coefficients divided by their greatest common divisor have no common divisor. -/
theorem content_divideCoeffs (h : f.content = .ok n) (hn : 0 < n) (constant : Int) :
    (Constraint.divideCoeffs f n constant).content = .ok 1 := by
  obtain ⟨hwords, hdvd⟩ := content_eq_ok.mp h
  have hvalues : (Constraint.divideCoeffs f n constant).coeffs.values =
      f.coeffs.values.map fun c => c / (n : Int) := SortedMap.values_mapValues ..
  rw [content_eq_ok, hvalues]
  simp only [List.forall_mem_map]
  refine ⟨fun c hc => ?_, fun d => ?_⟩
  · have hle := Int.ofNat_le.mpr (Int.natAbs_ediv_le_natAbs c n)
    have hleast : WordRange.signed64.least ≤ 0 := by decide
    exact ⟨hleast.trans (Int.natCast_nonneg _), hle.trans (hwords c hc).2⟩
  · have hquotient : ∀ c ∈ f.coeffs.values, (d : Int) ∣ c / n ↔ ((d * n : Nat) : Int) ∣ c := by
      intro c hc
      rw [Int.dvd_div_iff_mul_dvd ((hdvd n).mp dvd_rfl c hc), Nat.cast_mul, mul_comm]
    rw [forall₂_congr hquotient, ← hdvd, ← Nat.mul_dvd_mul_iff_right hn, one_mul]

/-- Whether a form has no first coefficient that is negative. -/
def Oriented (f : Affine) : Prop := ∀ e ∈ f.coeffs.entries.head?, 0 ≤ e.2

/-- Orienting an oriented form changes nothing. -/
theorem Oriented.orient_eq (h : f.Oriented) : Constraint.orient f = .ok f := by
  unfold Constraint.orient
  split
  · next name c rest hentries =>
    have hfirst : 0 ≤ c := h (name, c) (by rw [hentries]; rfl)
    rw [if_neg hfirst.not_gt]
    rfl
  · rfl

/-- Of a form with variables and its opposite only one is oriented. -/
theorem Oriented.not_opposite (h : f.Oriented) (hf : f.Proper) (hvar : f.isConstant = false) :
    ¬f.opposite.Oriented := by
  intro hopposite
  rw [proper_iff] at hf
  unfold Oriented at h hopposite
  rw [entries_opposite] at hopposite
  unfold isConstant SortedMap.isEmpty at hvar
  cases hentries : f.coeffs.entries with
  | nil => simp [hentries] at hvar
  | cons first rest =>
    rw [hentries] at h hopposite hf
    have hne := hf first List.mem_cons_self
    have hpos := h first rfl
    have hneg := hopposite (first.1, -first.2) rfl
    omega

/-- Orienting a form gives an oriented one: the form itself or its opposite. -/
theorem orient_cases (h : Constraint.orient f = .ok g) :
    g.Oriented ∧ (g = f ∨ g = f.opposite) := by
  unfold Constraint.orient at h
  split at h
  · next name c rest hentries =>
    split at h
    · next hc =>
      have hopposite := eq_opposite_of_neg h
      refine ⟨?_, .inr hopposite⟩
      rw [Oriented, hopposite, entries_opposite, hentries]
      simpa using hc.le
    · next hc =>
      rw [Attempt.pure_eq_ok] at h
      refine ⟨?_, .inl h.symm⟩
      rw [← h, Oriented, hentries]
      simpa using hc
  · next hentries =>
    rw [Attempt.pure_eq_ok] at h
    refine ⟨?_, .inl h.symm⟩
    rw [← h, Oriented, hentries]
    simp

end Affine

namespace Constraint

variable {c d : Constraint} {f : Affine} {n : Nat}

/-! ## Normal forms -/

/-- Whether a constraint is in lowest terms. The coefficients have a common divisor only in an
equality whose constant it does not divide, and an equality is oriented. -/
structure Normal (c : Constraint) : Prop where
  lowest : ∃ n, c.form.content = .ok n ∧
    (1 < n → c.relation = .equality ∧ ¬(n : Int) ∣ c.form.constant)
  oriented : c.relation = .equality → c.form.Oriented

/-- Normalizing what is in lowest terms changes nothing. -/
theorem Normal.normalize_eq (h : c.Normal) : c.normalize = .ok c := by
  obtain ⟨n, hn, hlowest⟩ := h.lowest
  have horiented := h.oriented
  obtain ⟨relation, f⟩ := c
  rw [normalize, Attempt.bind_eq_ok]
  refine ⟨n, hn, ?_⟩
  cases relation with
  | inequality =>
    have htighten : tighten f n = f := if_neg fun hg => nomatch (hlowest hg).1
    rw [Attempt.pure_eq_ok, htighten]
  | equality =>
    have hreduce : reduce f n = f :=
      if_neg fun hg => (hlowest hg.1).2 (Int.dvd_of_emod_eq_zero hg.2)
    simp only [hreduce, Attempt.bind_eq_ok, Attempt.pure_eq_ok]
    exact ⟨f, (horiented rfl).orient_eq, rfl⟩

/-- An equality in lowest terms has a content that its constant does not share. -/
private theorem exists_content_reduce (h : f.content = .ok n) :
    ∃ m, (reduce f n).content = .ok m ∧ (1 < m → ¬(m : Int) ∣ (reduce f n).constant) := by
  unfold reduce
  split
  · next hg =>
    exact ⟨1, Affine.content_divideCoeffs h (by omega) _, fun h => absurd h (lt_irrefl 1)⟩
  · next hg => exact ⟨n, h, fun hn hdvd => hg ⟨hn, Int.emod_eq_zero_of_dvd hdvd⟩⟩

/-- A normalized constraint is in lowest terms. -/
theorem normal_normalize (h : c.normalize = .ok d) : d.Normal := by
  obtain ⟨hsame, n, hn, ⟨hrelation, hd⟩ | ⟨hrelation, hd⟩⟩ := normalize_cases h
  · refine ⟨?_, fun hequality => ?_⟩
    · rw [hd]
      unfold tighten
      split
      · exact ⟨1, Affine.content_divideCoeffs hn (by omega) _, fun h => absurd h (lt_irrefl 1)⟩
      · exact ⟨n, hn, fun h => absurd h ‹_›⟩
    · rw [hsame, hrelation] at hequality
      cases hequality
  · have hequality := hsame.trans hrelation
    obtain ⟨m, hm, hlowest⟩ := exists_content_reduce hn
    obtain ⟨horiented, heq | hopposite⟩ := Affine.orient_cases hd
    · rw [← heq] at hm hlowest
      exact ⟨⟨m, hm, fun hg => ⟨hequality, hlowest hg⟩⟩, fun _ => horiented⟩
    · have hcontent := Affine.content_opposite hm
      rw [← hopposite] at hcontent
      refine ⟨⟨m, hcontent, fun hg => ⟨hequality, ?_⟩⟩, fun _ => horiented⟩
      rw [hopposite, Affine.opposite, Int.dvd_neg]
      exact hlowest hg

/-! ## Uniqueness -/

/-- In lowest terms, the linear part of a constraint with variables and solutions takes the value
one. -/
theorem Normal.exists_linear_eq_one (h : c.Normal) (hproper : c.form.Proper)
    (hvar : c.form.isConstant = false) (hsat : ∃ x, c.Holds x) : ∃ u, c.form.linear u = 1 := by
  obtain ⟨n, hn, hlowest⟩ := h.lowest
  obtain ⟨x, hx⟩ := hsat
  have hpos := Affine.content_pos hproper hvar hn
  have hone : n = 1 := by
    by_contra hne
    obtain ⟨hrelation, hdvd⟩ := hlowest (by omega)
    rw [Holds, hrelation, Relation.Holds, Affine.value_eq_linear, add_eq_zero_iff_eq_neg] at hx
    rw [hx, Int.dvd_neg] at hdvd
    exact hdvd (Affine.content_dvd_linear hn x)
  obtain ⟨u, hu⟩ := Affine.exists_linear_eq_content hn
  exact ⟨u, by rw [hu, hone, Nat.cast_one]⟩

/-- Two constraints of one kind in lowest terms with variables and the same solutions are equal. -/
theorem Normal.eq_of_holds_iff (hc : c.Normal) (hd : d.Normal) (hcproper : c.form.Proper)
    (hdproper : d.form.Proper) (hrelation : d.relation = c.relation)
    (hcvar : c.form.isConstant = false) (hdvar : d.form.isConstant = false)
    (hsat : ∃ x, c.Holds x) (h : ∀ x, c.Holds x ↔ d.Holds x) : c = d := by
  obtain ⟨u, hu⟩ := hc.exists_linear_eq_one hcproper hcvar hsat
  obtain ⟨w, hw⟩ := hd.exists_linear_eq_one hdproper hdvar (hsat.imp fun x hx => (h x).mp hx)
  have hcoeff : ∀ name, d.form.linear = c.form.linear → c.form.coeff name = d.form.coeff name := by
    intro name hlinear
    rw [← Affine.linear_single, ← Affine.linear_single, hlinear]
  have hcoriented := hc.oriented
  have hdoriented := hd.oriented
  obtain ⟨relation, f⟩ := c
  obtain ⟨_, g⟩ := d
  cases hrelation
  rw [Constraint.mk.injEq]
  refine ⟨rfl, ?_⟩
  cases relation with
  | inequality =>
    obtain ⟨hlinear, hconstant⟩ := eq_of_halfspace hu hw h
    exact Affine.ext_of_coeff hcproper hdproper (hcoeff · hlinear) hconstant.symm
  | equality =>
    obtain ⟨hlinear, hconstant⟩ | ⟨hlinear, hconstant⟩ :=
      eq_or_eq_neg_of_hyperplane hu hw fun x => (h x).mp
    · exact Affine.ext_of_coeff hcproper hdproper (hcoeff · hlinear) hconstant.symm
    · have hopposite : g = f.opposite := by
        refine Affine.ext_of_coeff hdproper (Affine.proper_opposite hcproper) (fun name => ?_)
          hconstant
        rw [Affine.coeff_opposite, ← Affine.linear_single, ← Affine.linear_single, hlinear,
          LinearMap.neg_apply]
      exact absurd (hopposite ▸ hdoriented rfl)
        (Affine.Oriented.not_opposite (hcoriented rfl) hcproper hcvar)

/-- Normalizing keeps what is required of the form. -/
theorem relation_normalize (h : c.normalize = .ok d) : d.relation = c.relation :=
  (normalize_cases h).1

/-- Normalizing keeps whether there are variables. -/
theorem isConstant_normalize (h : c.normalize = .ok d) :
    d.form.isConstant = c.form.isConstant := Affine.isConstant_congr (vars_normalize h)

/-- A normalized constraint has the same integer solutions and is its own normal form. Two
constraints of one kind that have variables and solutions have the same normal form exactly if they
have the same solutions. -/
theorem normalize_canonical {c c' : Constraint} (hproper : c.form.Proper)
    (h : c.normalize = .ok c') :
    (∀ x, c'.Holds x ↔ c.Holds x) ∧ c'.normalize = .ok c' ∧
      ∀ d d' : Constraint, d.form.Proper → d.normalize = .ok d' → d.relation = c.relation →
        c.form.isConstant = false → d.form.isConstant = false →
        (∃ x, c.Holds x) → (∃ x, d.Holds x) → (c' = d' ↔ ∀ x, c.Holds x ↔ d.Holds x) := by
  refine ⟨fun x => normalize_holds h, (normal_normalize h).normalize_eq, ?_⟩
  intro d d' hdproper hd hrelation hcvar hdvar hcsat hdsat
  constructor
  · rintro rfl x
    rw [← normalize_holds h, normalize_holds hd]
  · intro hsame
    have hrelation' : d'.relation = c'.relation := by
      rw [relation_normalize hd, relation_normalize h, hrelation]
    refine (normal_normalize h).eq_of_holds_iff (normal_normalize hd) (proper_normalize hproper h)
      (proper_normalize hdproper hd) hrelation' (by rw [isConstant_normalize h, hcvar])
      (by rw [isConstant_normalize hd, hdvar]) (hcsat.imp fun x => (normalize_holds h).mpr) ?_
    intro x
    rw [normalize_holds h, normalize_holds hd, hsame]

/-- `a * i + b * j + constant`, required to be nonnegative. -/
def planar (a b constant : Int) : Constraint :=
  ⟨.inequality, ⟨.ofList [("i", a), ("j", b)], constant⟩⟩

/-- Rounding makes `4 i + 6 j ≥ 5` and `6 i + 9 j ≥ 7` the same, so they have the same solutions. -/
theorem normalize_canonical_rounded :
    (planar 4 6 (-5)).normalize = .ok (planar 2 3 (-3)) ∧
      (planar 6 9 (-7)).normalize = .ok (planar 2 3 (-3)) ∧
      ∀ x, (planar 4 6 (-5)).Holds x ↔ (planar 6 9 (-7)).Holds x := by
  have hfirst : (planar 4 6 (-5)).normalize = .ok (planar 2 3 (-3)) := by decide
  have hsecond : (planar 6 9 (-7)).normalize = .ok (planar 2 3 (-3)) := by decide
  have hcanonical := (normalize_canonical (by decide) hfirst).2.2 (planar 6 9 (-7))
    (planar 2 3 (-3)) (by decide) hsecond rfl (by decide) (by decide) ⟨fun _ => 1, by decide⟩
    ⟨fun _ => 1, by decide⟩
  exact ⟨hfirst, hsecond, hcanonical.mp rfl⟩

end Constraint

end LoopKernel
