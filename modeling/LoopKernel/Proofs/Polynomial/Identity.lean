import LoopKernel.Proofs.Polynomial.Canonical
import Mathlib.Combinatorics.Nullstellensatz

/-!
# Polynomials that agree at integers

Polynomials in canonical form that have the same values wherever the variables are signed 64-bit
words are equal. They are read as polynomials of the mathematical kind, which is injective on
canonical ones; their exponents are smaller than the number of words, and a polynomial that vanishes
on so large a grid is zero.
-/

namespace LoopKernel

variable {P : String → Prop}

namespace Monomial

variable {a b : Monomial}

/-- The exponents of all variables, zero for those that do not occur. -/
noncomputable def exponents (a : Monomial) : String →₀ ℕ :=
  Finsupp.onFinset a.keys.toFinset (fun name => a.getD name 0) fun name hne => by
    rw [List.mem_toFinset, SortedMap.mem_keys, SortedMap.contains_iff]
    rw [SortedMap.getD] at hne
    cases h : a.get? name with
    | none => exact absurd (by rw [h]; rfl) hne
    | some e => exact ⟨e, rfl⟩

theorem exponents_apply (a : Monomial) (name : String) : a.exponents name = a.getD name 0 := rfl

/-- Exponents fit in unsigned 32-bit words. -/
theorem exponents_lt (ha : a.Over P) (name : String) : a.exponents name < 2 ^ 32 := by
  rw [exponents_apply, SortedMap.getD]
  cases h : a.get? name with
  | none => decide
  | some e => exact (ha name e h).2.2

/-- Monomials whose stored exponents are positive are determined by all their exponents. -/
theorem eq_of_exponents (ha : a.Over P) (hb : b.Over P) (h : a.exponents = b.exponents) :
    a = b := by
  apply SortedMap.ext_get?
  intro name
  have hname : a.getD name 0 = b.getD name 0 := DFunLike.congr_fun h name
  rw [SortedMap.getD, SortedMap.getD] at hname
  cases hga : a.get? name with
  | none =>
    cases hgb : b.get? name with
    | none => rfl
    | some e =>
      rw [hga, hgb] at hname
      exact absurd hname (hb name e hgb).2.1.ne
  | some d =>
    cases hgb : b.get? name with
    | none =>
      rw [hga, hgb] at hname
      exact absurd hname (ha name d hga).2.1.ne'
    | some e =>
      rw [hga, hgb] at hname
      exact congrArg some hname

/-- The product of the powers is the value. -/
theorem prod_exponents (env : String → Rat) (a : Monomial) :
    (a.exponents.prod fun name e => env name ^ e) = a.value env := by
  have hsupport : a.exponents.support ⊆ a.keys.toFinset := Finsupp.support_onFinset_subset
  rw [Finsupp.prod_of_support_subset _ hsupport _ fun name _ => pow_zero (env name),
    List.prod_toFinset _ (SortedMap.nodup_keys a), value, SortedMap.keys, List.map_map]
  congr 1
  apply List.map_congr_left
  rintro ⟨name, e⟩ he
  rw [Function.comp_apply, exponents_apply, SortedMap.getD, SortedMap.mem_entries.mp he]
  rfl

end Monomial

namespace Polynomial

variable {p q : Polynomial}

/-- The polynomial as a sum of mathematical monomials. -/
noncomputable def toMvPolynomial (p : Polynomial) : MvPolynomial String Rat :=
  (p.terms.entries.map fun e => MvPolynomial.monomial e.1.exponents e.2).sum

/-- Both kinds of polynomial have the same values. -/
theorem eval_toMvPolynomial (env : String → Rat) (p : Polynomial) :
    MvPolynomial.eval env p.toMvPolynomial = p.value env := by
  rw [toMvPolynomial, map_list_sum, List.map_map, value]
  congr 1
  apply List.map_congr_left
  intro e _
  rw [Function.comp_apply, MvPolynomial.eval_monomial, Monomial.prod_exponents]

/-- The coefficients of the mathematical polynomial are the stored ones. -/
theorem coeff_toMvPolynomial (hp : p.Over P) {a : Monomial} (ha : a.Over P) :
    p.toMvPolynomial.coeff a.exponents = p.terms.getD a 0 := by
  have hcoeff : p.toMvPolynomial.coeff a.exponents =
      (p.terms.entries.map fun e => if e.1 = a then e.2 else 0).sum := by
    rw [toMvPolynomial, ← MvPolynomial.lcoeff_apply, map_list_sum, List.map_map]
    congr 1
    apply List.map_congr_left
    rintro ⟨b, c⟩ he
    have hb := (hp b c (SortedMap.mem_entries.mp he)).2
    rw [Function.comp_apply, MvPolynomial.lcoeff_apply, MvPolynomial.coeff_monomial]
    exact if_congr ⟨Monomial.eq_of_exponents hb ha, fun h => h ▸ rfl⟩ rfl rfl
  have hothers : ∀ l : List (Monomial × Rat), (∀ e ∈ l, e.1 ≠ a) →
      (l.map fun e => if e.1 = a then e.2 else 0).sum = 0 := by
    intro l hl
    apply List.sum_eq_zero
    intro n hn
    obtain ⟨e, he, rfl⟩ := List.mem_map.mp hn
    exact if_neg (hl e he)
  rw [hcoeff, SortedMap.getD]
  cases h : p.terms.get? a with
  | none =>
    refine hothers _ fun e he hea => ?_
    rw [← hea, SortedMap.mem_entries.mp he] at h
    cases h
  | some c =>
    rw [((SortedMap.perm_entries_erase h).map _).sum_eq, List.map_cons, List.sum_cons, if_pos rfl,
      hothers, add_zero, Option.getD_some]
    rintro ⟨b, d⟩ he rfl
    have hget := SortedMap.mem_entries.mp he
    rw [SortedMap.get?_erase, if_pos rfl] at hget
    cases hget

/-- The exponents of the mathematical polynomial fit in unsigned 32-bit words. -/
theorem lt_of_mem_support (hp : p.Over P) {m : String →₀ ℕ} (hm : m ∈ p.toMvPolynomial.support)
    (name : String) : m name < 2 ^ 32 := by
  obtain ⟨e, he, hne⟩ : ∃ e ∈ p.terms.entries,
      (MvPolynomial.monomial e.1.exponents e.2).coeff m ≠ 0 := by
    apply Classical.byContradiction
    intro hnone
    refine MvPolynomial.mem_support_iff.mp hm ?_
    rw [toMvPolynomial, ← MvPolynomial.lcoeff_apply, map_list_sum, List.map_map]
    apply List.sum_eq_zero
    intro n hn
    obtain ⟨e, he, rfl⟩ := List.mem_map.mp hn
    exact Classical.byContradiction fun hne => hnone ⟨e, he, hne⟩
  rw [MvPolynomial.coeff_monomial] at hne
  split at hne
  · next hexponents =>
    rw [← hexponents]
    exact Monomial.exponents_lt (hp e.1 e.2 (SortedMap.mem_entries.mp he)).2 name
  · exact absurd rfl hne

/-- A polynomial is determined by its mathematical one. -/
theorem eq_of_toMvPolynomial (hp : p.Over P) (hq : q.Over P)
    (h : p.toMvPolynomial = q.toMvPolynomial) : p = q := by
  have hstored : ∀ {p q : Polynomial}, p.Over P → q.Over P → p.toMvPolynomial = q.toMvPolynomial →
      ∀ a c, p.terms.get? a = some c → q.terms.get? a = some c := by
    intro p q hp hq h a c hc
    obtain ⟨hne, ha⟩ := hp a c hc
    have hcoeff := coeff_toMvPolynomial hp ha
    rw [h, coeff_toMvPolynomial hq ha, SortedMap.getD, SortedMap.getD, hc, Option.getD_some]
      at hcoeff
    cases hd : q.terms.get? a with
    | none =>
      rw [hd, Option.getD_none] at hcoeff
      exact absurd hcoeff.symm hne
    | some d =>
      rw [hd, Option.getD_some] at hcoeff
      rw [hcoeff]
  have hterms : p.terms = q.terms := by
    apply SortedMap.ext_get?
    intro a
    apply Option.ext
    intro c
    exact ⟨hstored hp hq h a c, hstored hq hp h.symm a c⟩
  cases p
  cases q
  cases hterms
  rfl

/-- A mathematical polynomial with small exponents that vanishes wherever the variables are signed
64-bit words is zero. -/
private theorem eq_zero_of_words {f : MvPolynomial String Rat}
    (hdegree : ∀ m ∈ f.support, ∀ name, m name < 2 ^ 32)
    (hzero : ∀ env : String → Int, (∀ v, WordRange.signed64.Holds (env v)) →
      MvPolynomial.eval (fun v => (env v : Rat)) f = 0) : f = 0 := by
  obtain ⟨names, g, rfl⟩ := MvPolynomial.exists_finset_rename f
  have hinjective : Function.Injective (Subtype.val : names → String) := Subtype.val_injective
  let grid : Finset Rat := (Finset.range (2 ^ 32)).image Nat.cast
  suffices hg : g = 0 by rw [hg, map_zero]
  refine MvPolynomial.eq_zero_of_eval_zero_at_prod_finset g (fun _ => grid) (fun i => ?_) ?_
  · rw [Finset.card_image_of_injective _ Nat.cast_injective, Finset.card_range,
      ← MvPolynomial.degreeOf_rename_of_injective hinjective,
      MvPolynomial.degreeOf_lt_iff (by decide)]
    exact fun m hm => hdegree m hm i
  · intro x hx
    have hgrid : ∀ i, ∃ n : ℕ, n < 2 ^ 32 ∧ (n : Rat) = x i := fun i => by
      simpa only [grid, Finset.mem_image, Finset.mem_range] using hx i
    choose n hn hxn using hgrid
    let env (v : String) : ℕ := if h : v ∈ names then n ⟨v, h⟩ else 0
    have henv : ∀ v, WordRange.signed64.Holds (env v) := by
      intro v
      have hsmall : env v < 2 ^ 32 := by
        by_cases h : v ∈ names
        · exact (dif_pos h).trans_lt (hn ⟨v, h⟩)
        · exact (dif_neg h).trans_lt (by decide)
      change -9223372036854775808 ≤ (env v : Int) ∧ (env v : Int) ≤ 9223372036854775807
      omega
    have hpoint : (fun v => ((env v : Int) : Rat)) ∘ Subtype.val = x := by
      funext i
      rw [Function.comp_apply, Int.cast_natCast, ← hxn i]
      exact congrArg Nat.cast (dif_pos i.2)
    have hvanish := hzero (fun v => env v) henv
    rwa [MvPolynomial.eval_rename, hpoint] at hvanish

/-- Canonical polynomials that agree wherever the variables are signed 64-bit words are equal. -/
theorem eq_of_forall_value (hp : p.Over P) (hq : q.Over P)
    (h : ∀ env : String → Int, (∀ v, WordRange.signed64.Holds (env v)) →
      p.value (fun v => env v) = q.value (fun v => env v)) : p = q := by
  apply eq_of_toMvPolynomial hp hq
  rw [← sub_eq_zero]
  apply eq_zero_of_words
  · intro m hm name
    rcases Finset.mem_union.mp (MvPolynomial.support_sub _ _ _ hm) with hm | hm
    · exact lt_of_mem_support hp hm name
    · exact lt_of_mem_support hq hm name
  · intro env henv
    rw [map_sub, eval_toMvPolynomial, eval_toMvPolynomial, h env henv, sub_self]

end Polynomial

end LoopKernel
