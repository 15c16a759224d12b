import LoopKernel.Proofs.Affine.Form
import Mathlib.Algebra.Module.LinearMap.Defs
import Mathlib.Data.Int.GCD

/-!
# The common divisor of the coefficients

An affine form is its constant plus a linear function of the assignment. The values of the linear
function are the multiples of the greatest common divisor of the coefficients: it divides each of
them, and by Bézout's identity it is one of them. A form without stored zeros is determined by its
constant and the linear function.
-/

namespace LoopKernel.Affine

variable {f g : Affine} {n : Nat}

/-! ## The linear part -/

/-- A form without its constant, as a linear function of the assignment. -/
def linear (f : Affine) : (String → Int) →ₗ[Int] Int where
  toFun x := (f.coeffs.entries.map fun e => e.2 * x e.1).sum
  map_add' x y := by simp only [Pi.add_apply, mul_add, List.sum_map_add]
  map_smul' k x := by
    simp only [Pi.smul_apply, smul_eq_mul, RingHom.id_apply, ← List.sum_map_mul_left,
      mul_left_comm]

/-- The value is the constant plus that of the linear part. -/
theorem value_eq_linear (f : Affine) (x : String → Int) : f.value x = f.constant + f.linear x := rfl

/-- The linear part has the coefficients. -/
theorem linear_single (f : Affine) (name : String) :
    f.linear (Pi.single name 1) = f.coeff name := by
  rw [coeff_eq_value, value_eq_linear, value_eq_linear, map_zero]
  change _ = f.constant + f.linear (Pi.single name 1) - (f.constant + 0)
  omega

/-- Forms without stored zeros are equal if their coefficients and constants are. -/
theorem ext_of_coeff (hf : f.Proper) (hg : g.Proper) (hcoeff : ∀ name, f.coeff name = g.coeff name)
    (hconstant : f.constant = g.constant) : f = g := by
  have hcoeffs : f.coeffs = g.coeffs := by
    apply SortedMap.ext_get?
    intro name
    have hname := hcoeff name
    have hfname := hf name
    have hgname := hg name
    unfold coeff SortedMap.getD at hname
    cases hfget : f.coeffs.get? name <;> cases hgget : g.coeffs.get? name <;> simp_all
  cases f
  cases g
  simp_all

/-- A form without stored zeros that is not constant has a coefficient. -/
theorem exists_coeff_ne_zero (hf : f.Proper) (hvar : f.isConstant = false) :
    ∃ name, f.coeff name ≠ 0 := by
  by_contra hnone
  push Not at hnone
  rw [isConstant_of_coeff hf hnone] at hvar
  cases hvar

/-! ## The content -/

/-- The content is computed when each coefficient has an absolute value within words, and it is the
number whose divisors are those of all coefficients. -/
theorem content_eq_ok : f.content = .ok n ↔
    (∀ c ∈ f.coeffs.values, WordRange.signed64.Holds c.natAbs) ∧
      ∀ d : Nat, d ∣ n ↔ ∀ c ∈ f.coeffs.values, (d : Int) ∣ c := by
  have general : ∀ (l : List Int) (start : Nat),
      (l.foldlM (fun g c => do
        let _ ← magnitude c
        pure (Nat.gcd g c.natAbs)) start : Checked Nat) = .ok n ↔
      (∀ c ∈ l, WordRange.signed64.Holds c.natAbs) ∧
        ∀ d : Nat, d ∣ n ↔ d ∣ start ∧ ∀ c ∈ l, (d : Int) ∣ c := by
    intro l
    induction l with
    | nil =>
      intro start
      simp only [List.foldlM_nil, Attempt.pure_eq_ok, List.not_mem_nil, false_imp_iff, implies_true,
        and_true, true_and]
      exact ⟨fun h d => h ▸ Iff.rfl,
        fun h => Nat.dvd_antisymm ((h _).mpr dvd_rfl) ((h _).mp dvd_rfl)⟩
    | cons c rest ih =>
      intro start
      simp only [List.foldlM_cons, Attempt.bind_eq_ok, Attempt.pure_eq_ok, magnitude,
        WordRange.check_eq_ok, List.forall_mem_cons]
      constructor
      · rintro ⟨_, ⟨_, ⟨hc, rfl⟩, rfl⟩, hrest⟩
        obtain ⟨hwords, hdvd⟩ := (ih _).mp hrest
        refine ⟨⟨hc, hwords⟩, fun d => ?_⟩
        rw [hdvd, Nat.dvd_gcd_iff, Int.natCast_dvd, and_assoc]
      · rintro ⟨⟨hc, hwords⟩, hdvd⟩
        refine ⟨_, ⟨_, ⟨hc, rfl⟩, rfl⟩, (ih _).mpr ⟨hwords, fun d => ?_⟩⟩
        rw [hdvd, Nat.dvd_gcd_iff, Int.natCast_dvd, and_assoc]
  simpa [content] using general f.coeffs.values 0

/-- The content is a value of the linear part. -/
theorem exists_linear_eq_content (h : f.content = .ok n) : ∃ u, f.linear u = n := by
  unfold content at h
  have hcoeffs : ∀ c ∈ f.coeffs.values, ∃ u, f.linear u = c := by
    intro c hc
    obtain ⟨name, hname⟩ := SortedMap.mem_values.mp hc
    refine ⟨Pi.single name 1, ?_⟩
    rw [linear_single, coeff, SortedMap.getD, hname, Option.getD_some]
  refine Attempt.foldlM_induction (P := fun _ (g : Nat) => ∃ u, f.linear u = g)
    ⟨0, map_zero _⟩ ?_ h
  rintro - g c next hc ⟨u, hu⟩ hnext
  simp only [Attempt.bind_eq_ok, Attempt.pure_eq_ok] at hnext
  obtain ⟨-, -, rfl⟩ := hnext
  obtain ⟨v, hv⟩ := hcoeffs c hc
  refine ⟨Int.gcdA g c • u + Int.gcdB g c • v, ?_⟩
  have hbezout : (Nat.gcd g c.natAbs : Int) = _ := Int.gcd_eq_gcd_ab g c
  rw [map_add, map_smul, map_smul, hu, hv, smul_eq_mul, smul_eq_mul, hbezout]
  ring

/-- The content divides every value of the linear part. -/
theorem content_dvd_linear (h : f.content = .ok n) (x : String → Int) : (n : Int) ∣ f.linear x := by
  apply List.dvd_sum
  intro term hterm
  obtain ⟨e, he, rfl⟩ := List.mem_map.mp hterm
  exact (content_dvd h e he).mul_right _

/-- A form without stored zeros that is not constant has a positive content. -/
theorem content_pos (hf : f.Proper) (hvar : f.isConstant = false) (h : f.content = .ok n) :
    0 < n := by
  obtain ⟨name, hname⟩ := exists_coeff_ne_zero hf hvar
  rw [Nat.pos_iff_ne_zero]
  rintro rfl
  have hdvd := content_dvd_linear h (Pi.single name 1)
  rw [linear_single, Int.natCast_zero, zero_dvd_iff] at hdvd
  exact hname hdvd

end LoopKernel.Affine
