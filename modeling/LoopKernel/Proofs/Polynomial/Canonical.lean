import LoopKernel.Polynomial.Summation
import LoopKernel.Proofs.NameSet
import LoopKernel.Proofs.Polynomial.Value

/-!
# Polynomials in canonical form

No operation stores a zero coefficient or a factor with exponent zero, and none brings in variables
that its operands lack. Both are kept by every operation as one invariant, in which the variables
may be restricted to those with some property.
-/

namespace LoopKernel

variable {P Q : String → Prop} {name : String}

namespace Monomial

/-- Whether all factors are powers of variables with a property, with exponents that are positive
and fit in unsigned 32-bit words. -/
def Over (P : String → Prop) (a : Monomial) : Prop :=
  ∀ name exponent, a.get? name = some exponent → P name ∧ 0 < exponent ∧ exponent < 2 ^ 32

variable {a b c : Monomial}

theorem Over.mono (ha : a.Over P) (hPQ : ∀ name, P name → Q name) : a.Over Q :=
  fun name exponent h => (ha name exponent h).imp_left (hPQ name)

theorem over_one : one.Over P := nofun

/-- Setting an exponent that is positive and fits. -/
theorem over_insert {exponent : Nat} (ha : a.Over P) (hname : P name) (hpos : 0 < exponent)
    (hfits : exponent < 2 ^ 32) : Over P (a.insert name exponent) := by
  intro other e h
  rw [SortedMap.get?_insert] at h
  split at h
  · next hother =>
    cases h
    exact ⟨hother ▸ hname, hpos, hfits⟩
  · exact ha other e h

theorem over_var (hname : P name) : (var name).Over P :=
  over_insert over_one hname Nat.one_pos (by decide)

/-- What remains without a variable does not mention it. -/
theorem over_erase (ha : a.Over P) : Over (fun v => v ≠ name ∧ P v) (a.erase name) := by
  intro other e h
  rw [SortedMap.get?_erase] at h
  split at h
  · cases h
  · next hne =>
    obtain ⟨hother, hexponent⟩ := ha other e h
    exact ⟨⟨hne, hother⟩, hexponent⟩

/-- Exponents of a product are sums of positive ones, and are checked to fit. -/
theorem over_mul (ha : a.Over P) (hb : b.Over P) (h : a.mul b = .ok c) : c.Over P := by
  unfold mul at h
  apply Attempt.foldlM_induction (P := fun _ (m : Monomial) => m.Over P) ha _ h
  rintro _ m ⟨other, exponent⟩ next hmem hm hnext
  simp only [Attempt.bind_eq_ok, Attempt.pure_eq_ok, checkUnsigned_eq_ok] at hnext
  obtain ⟨_, ⟨hfits, rfl⟩, rfl⟩ := hnext
  obtain ⟨hother, hpos, -⟩ := hb other exponent (SortedMap.mem_entries.mp hmem)
  exact over_insert hm hother (Nat.add_pos_right _ hpos) hfits

end Monomial

namespace Polynomial

/-- Whether no stored coefficient is zero and every stored exponent is at least one. -/
def Canonical (p : Polynomial) : Prop :=
  ∀ e ∈ p.terms.entries, e.2 ≠ 0 ∧ ∀ factor ∈ e.1.entries, 1 ≤ factor.2

instance (p : Polynomial) : Decidable p.Canonical :=
  inferInstanceAs (Decidable (∀ e ∈ p.terms.entries, _ ∧ ∀ factor ∈ e.1.entries, 1 ≤ factor.2))

/-- Whether all terms have nonzero coefficients and are over variables with a property. -/
def Over (P : String → Prop) (p : Polynomial) : Prop :=
  ∀ monomial c, p.terms.get? monomial = some c → c ≠ 0 ∧ monomial.Over P

variable {p q r value lower upper : Polynomial} {monomial : Monomial} {c : Rat} {k : Nat}

theorem Over.mono (hp : p.Over P) (hPQ : ∀ v, P v → Q v) : p.Over Q :=
  fun monomial c h => (hp monomial c h).imp_right fun hm => hm.mono hPQ

theorem Over.canonical (hp : p.Over P) : p.Canonical := by
  rintro ⟨monomial, c⟩ he
  obtain ⟨hc, hmonomial⟩ := hp monomial c (SortedMap.mem_entries.mp he)
  exact ⟨hc, fun factor hfactor => (hmonomial _ _ (SortedMap.mem_entries.mp hfactor)).2.1⟩

/-- The variables of a polynomial are those of its monomials. -/
theorem mem_vars {v : String} : v ∈ p.vars ↔ ∃ e ∈ p.terms.entries, v ∈ e.1.keys := by
  have general : ∀ (keys : List Monomial) (names : NameSet),
      v ∈ keys.foldl (fun names monomial => names.addAll monomial.keys) names ↔
        v ∈ names ∨ ∃ monomial ∈ keys, v ∈ monomial.keys := by
    intro keys
    induction keys with
    | nil => simp
    | cons monomial rest ih =>
      intro names
      rw [List.foldl_cons, ih, NameSet.mem_addAll]
      simp only [List.mem_cons, exists_eq_or_imp]
      rw [or_comm (a := v ∈ monomial.keys), or_assoc]
  rw [vars, general]
  simp only [NameSet.not_mem_empty, false_or, SortedMap.keys, List.mem_map]
  constructor
  · rintro ⟨_, ⟨e, he, rfl⟩, hv⟩
    exact ⟨e, he, hv⟩
  · rintro ⟨e, he, hv⟩
    exact ⟨e.1, ⟨e, he, rfl⟩, hv⟩

/-- A polynomial is over its own variables. -/
theorem Over.vars (hp : p.Over P) : p.Over (· ∈ p.vars) := by
  intro monomial c h
  obtain ⟨hc, hmonomial⟩ := hp monomial c h
  refine ⟨hc, fun v exponent hv => ⟨?_, (hmonomial v exponent hv).2⟩⟩
  refine mem_vars.mpr ⟨(monomial, c), SortedMap.mem_entries.mpr h, ?_⟩
  rw [SortedMap.mem_keys, SortedMap.contains_iff]
  exact ⟨exponent, hv⟩

/-! ## Building blocks -/

theorem over_zero : zero.Over P := nofun

private theorem over_single (hmonomial : monomial.Over P) (hc : c ≠ 0) :
    Over P ⟨(∅ : SortedMap Monomial Rat).insert monomial c⟩ := by
  intro other d h
  rw [SortedMap.get?_insert] at h
  split at h
  · next hother =>
    cases h
    exact ⟨hc, hother ▸ hmonomial⟩
  · cases h

theorem over_constant : (constant c).Over P := by
  unfold constant
  split
  · exact over_zero
  · next hc => exact over_single Monomial.over_one hc

theorem over_ofInt {n : Int} : (ofInt n).Over P := over_constant

theorem over_var (hname : P name) : (var name).Over P :=
  over_single (Monomial.over_var hname) one_ne_zero

/-- A term is dropped when its coefficient becomes zero. -/
theorem over_addTerm (hp : p.Over P) (hmonomial : monomial.Over P)
    (h : p.addTerm monomial c = .ok q) : q.Over P := by
  unfold addTerm at h
  split at h
  · rw [Attempt.pure_eq_ok] at h
    exact h ▸ hp
  · rw [Attempt.bind_eq_ok] at h
    obtain ⟨total, -, h⟩ := h
    split at h
    · rw [Attempt.pure_eq_ok] at h
      subst h
      intro other d hd
      rw [SortedMap.get?_erase] at hd
      split at hd
      · cases hd
      · exact hp other d hd
    · next htotal =>
      rw [Attempt.pure_eq_ok] at h
      subst h
      intro other d hd
      rw [SortedMap.get?_insert] at hd
      split at hd
      · next hother =>
        cases hd
        exact ⟨htotal, hother ▸ hmonomial⟩
      · exact hp other d hd

/-! ## Operations -/

/-- A loop over the terms of a polynomial keeps the invariant if each step does. -/
private theorem over_foldlM {step : Polynomial → Monomial × Rat → Checked Polynomial}
    (hq : q.Over Q) (hp : p.Over P)
    (hstep : ∀ p monomial c r, monomial.Over Q → p.Over P → step p (monomial, c) = .ok r →
      r.Over P) (h : q.terms.entries.foldlM step p = .ok r) : r.Over P := by
  apply Attempt.foldlM_induction (P := fun _ (p : Polynomial) => p.Over P) hp _ h
  rintro _ p ⟨monomial, c⟩ next hmem hdone hnext
  exact hstep p monomial c next (hq monomial c (SortedMap.mem_entries.mp hmem)).2 hdone hnext

theorem over_scale (hp : p.Over P) (h : p.scale c = .ok r) : r.Over P := by
  refine over_foldlM hp over_zero (fun out monomial d next hm hout hnext => ?_) h
  simp only [Attempt.bind_eq_ok] at hnext
  obtain ⟨_, -, hnext⟩ := hnext
  exact over_addTerm hout hm hnext

/-- Multiplying by zero leaves no terms. -/
theorem eq_zero_of_scale (h : p.scale 0 = .ok r) : r = zero := by
  unfold scale at h
  apply Attempt.foldlM_induction (P := fun _ (out : Polynomial) => out = zero) rfl _ h
  rintro _ out ⟨monomial, c⟩ next _ rfl hnext
  simp only [Attempt.bind_eq_ok] at hnext
  obtain ⟨product, hproduct, hnext⟩ := hnext
  rw [Fraction.mul_eq_ok hproduct, mul_zero, addTerm, if_pos rfl, Attempt.pure_eq_ok] at hnext
  exact hnext.symm

theorem over_add (hp : p.Over P) (hq : q.Over P) (h : p.add q = .ok r) : r.Over P :=
  over_foldlM hq hp (fun _ _ _ _ hm hout hnext => over_addTerm hout hm hnext) h

theorem over_sub (hp : p.Over P) (hq : q.Over P) (h : p.sub q = .ok r) : r.Over P := by
  unfold sub at h
  rw [Attempt.bind_eq_ok] at h
  obtain ⟨negated, hnegated, h⟩ := h
  exact over_add hp (over_scale hq hnegated) h

private theorem over_addScaledTerms (hp : p.Over P) (hq : q.Over P) (hm : monomial.Over P)
    (h : p.addScaledTerms q monomial c = .ok r) : r.Over P := by
  refine over_foldlM hq hp (fun out other d next hother hout hnext => ?_) h
  simp only [Attempt.bind_eq_ok] at hnext
  obtain ⟨product, hproduct, _, -, hnext⟩ := hnext
  exact over_addTerm hout (Monomial.over_mul hm hother hproduct) hnext

theorem over_mul (hp : p.Over P) (hq : q.Over P) (h : p.mul q = .ok r) : r.Over P :=
  over_foldlM hp over_zero (fun _ _ _ _ hm hout hnext => over_addScaledTerms hout hq hm hnext) h

theorem over_pow (hp : p.Over P) (h : p.pow k = .ok r) : r.Over P := by
  induction k generalizing r with
  | zero =>
    rw [pow, Attempt.pure_eq_ok] at h
    exact h ▸ over_ofInt
  | succ k ih =>
    rw [pow, Attempt.bind_eq_ok] at h
    obtain ⟨power, hpower, h⟩ := h
    exact over_mul (ih hpower) hp h

/-! ## Coefficients and substitution -/

private theorem over_addToPower {l out : List Polynomial} (hl : ∀ d ∈ l, d.Over P)
    (hm : monomial.Over P) (h : addToPower monomial c k l = .ok out) : ∀ d ∈ out, d.Over P := by
  induction k, l using addToPower.induct generalizing out with
  | case1 =>
    simp only [addToPower, Attempt.bind_eq_ok, Attempt.pure_eq_ok] at h
    obtain ⟨first, hfirst, rfl⟩ := h
    rw [List.forall_mem_singleton]
    exact over_addTerm over_zero hm hfirst
  | case2 p rest =>
    simp only [addToPower, Attempt.bind_eq_ok, Attempt.pure_eq_ok] at h
    obtain ⟨first, hfirst, rfl⟩ := h
    rw [List.forall_mem_cons] at hl ⊢
    exact ⟨over_addTerm hl.1 hm hfirst, hl.2⟩
  | case3 k ih =>
    simp only [addToPower, Attempt.bind_eq_ok, Attempt.pure_eq_ok] at h
    obtain ⟨rest', hrest, rfl⟩ := h
    rw [List.forall_mem_cons]
    exact ⟨over_zero, ih hl hrest⟩
  | case4 k p rest ih =>
    simp only [addToPower, Attempt.bind_eq_ok, Attempt.pure_eq_ok] at h
    obtain ⟨rest', hrest, rfl⟩ := h
    rw [List.forall_mem_cons] at hl ⊢
    exact ⟨hl.1, ih hl.2 hrest⟩

/-- Coefficients by powers of a variable do not mention it. -/
theorem over_coefficientsIn {cs : List Polynomial} (hp : p.Over P)
    (h : p.coefficientsIn name = .ok cs) : ∀ d ∈ cs, d.Over fun v => v ≠ name ∧ P v := by
  unfold coefficientsIn at h
  apply Attempt.foldlM_induction
    (P := fun _ (cs : List Polynomial) => ∀ d ∈ cs, d.Over fun v => v ≠ name ∧ P v) _ _ h
  · exact fun d hd => absurd hd List.not_mem_nil
  · rintro _ cs ⟨monomial, c⟩ next hmem hdone hnext
    have hm := (hp monomial c (SortedMap.mem_entries.mp hmem)).2
    exact over_addToPower hdone (Monomial.over_erase hm) hnext

theorem over_addPowers {cs : List Polynomial} (hvalue : value.Over P) (hp : p.Over P)
    (hcs : ∀ d ∈ cs, d.Over P) (h : addPowers value p k cs = .ok r) : r.Over P := by
  induction cs generalizing p k with
  | nil =>
    rw [addPowers, Attempt.pure_eq_ok] at h
    exact h ▸ hp
  | cons d rest ih =>
    rw [List.forall_mem_cons] at hcs
    simp only [addPowers, Attempt.bind_eq_ok] at h
    obtain ⟨power, hpower, product, hproduct, next, hnext, h⟩ := h
    exact ih (over_add hp (over_mul hcs.1 (over_pow hvalue hpower) hproduct) hnext) hcs.2 h

/-- The variable that is replaced need not have the property. -/
theorem over_substitute (hp : p.Over fun v => v ≠ name → P v) (hvalue : value.Over P)
    (h : p.substitute name value = .ok r) : r.Over P := by
  unfold substitute at h
  rw [Attempt.bind_eq_ok] at h
  obtain ⟨cs, hcs, h⟩ := h
  refine over_addPowers hvalue over_zero (fun d hd => ?_) h
  exact (over_coefficientsIn hp hcs d hd).mono fun v hv => hv.2 hv.1

/-! ## Sums -/

private theorem over_addBernoulliTerms {j : Nat} {numbers : List Rat} (hp : p.Over P)
    (hq : q.Over P) (h : addBernoulliTerms k p q j numbers = .ok r) : r.Over P := by
  induction numbers generalizing j q with
  | nil =>
    rw [addBernoulliTerms, Attempt.pure_eq_ok] at h
    exact h ▸ hq
  | cons b rest ih =>
    simp only [addBernoulliTerms, Attempt.bind_eq_ok] at h
    obtain ⟨_, -, _, -, h⟩ := h
    split at h
    · exact ih hq h
    · simp only [Attempt.bind_eq_ok] at h
      obtain ⟨power, hpower, term, hterm, next, hnext, h⟩ := h
      exact ih (over_add hq (over_scale (over_pow hp hpower) hterm) hnext) h

private theorem over_powerSum (hp : p.Over P) (h : powerSum k p = .ok r) : r.Over P := by
  unfold powerSum at h
  simp only [Attempt.bind_eq_ok] at h
  obtain ⟨_, -, total, htotal, _, -, out, hout, h⟩ := h
  have hsum : out.Over P := over_scale (over_addBernoulliTerms hp over_zero htotal) hout
  split at h
  · exact over_add hsum over_ofInt h
  · rw [Attempt.pure_eq_ok] at h
    exact h ▸ hsum

private theorem over_addRangeSums {cs : List Polynomial} (hlower : lower.Over P)
    (hupper : upper.Over P) (hp : p.Over P) (hcs : ∀ d ∈ cs, d.Over P)
    (h : addRangeSums lower upper p k cs = .ok r) : r.Over P := by
  induction cs generalizing p k with
  | nil =>
    rw [addRangeSums, Attempt.pure_eq_ok] at h
    exact h ▸ hp
  | cons d rest ih =>
    rw [List.forall_mem_cons] at hcs
    unfold addRangeSums at h
    split at h
    · exact ih hp hcs.2 h
    · simp only [Attempt.bind_eq_ok] at h
      obtain ⟨high, hhigh, low, hlow, range, hrange, product, hproduct, next, hnext, h⟩ := h
      have hdifference := over_sub (over_powerSum hupper hhigh) (over_powerSum hlower hlow) hrange
      exact ih (over_add hp (over_mul hcs.1 hdifference hproduct) hnext) hcs.2 h

/-- The variable of a sum need not have the property. -/
theorem over_sumOver (hp : p.Over fun v => v ≠ name → P v) (hlower : lower.Over P)
    (hupper : upper.Over P) (h : p.sumOver name lower upper = .ok r) : r.Over P := by
  unfold sumOver at h
  simp only [Attempt.bind_eq_ok] at h
  obtain ⟨below, hbelow, cs, hcs, h⟩ := h
  refine over_addRangeSums (over_sub hlower over_ofInt hbelow) hupper over_zero (fun d hd => ?_) h
  exact (over_coefficientsIn hp hcs d hd).mono fun v hv => hv.2 hv.1

/-! ## Built polynomials -/

/-- The polynomials that the operations build, as long as nothing overflows. -/
inductive Built : Polynomial → Prop
  | zero : Built zero
  | constant (c : Rat) : Built (constant c)
  | ofInt (n : Int) : Built (ofInt n)
  | var (name : String) : Built (var name)
  | add {p q r : Polynomial} (hp : Built p) (hq : Built q) (h : p.add q = .ok r) : Built r
  | sub {p q r : Polynomial} (hp : Built p) (hq : Built q) (h : p.sub q = .ok r) : Built r
  | mul {p q r : Polynomial} (hp : Built p) (hq : Built q) (h : p.mul q = .ok r) : Built r
  | scale {p r : Polynomial} {c : Rat} (hp : Built p) (h : p.scale c = .ok r) : Built r
  | pow {p r : Polynomial} {k : Nat} (hp : Built p) (h : p.pow k = .ok r) : Built r
  | substitute {p value r : Polynomial} {name : String} (hp : Built p) (hvalue : Built value)
      (h : p.substitute name value = .ok r) : Built r
  | sumOver {p lower upper r : Polynomial} {name : String} (hp : Built p) (hlower : Built lower)
      (hupper : Built upper) (h : p.sumOver name lower upper = .ok r) : Built r

/-- Built polynomials are canonical. -/
theorem Built.over (hp : Built p) : p.Over fun _ => True := by
  induction hp with
  | zero => exact over_zero
  | constant c => exact over_constant
  | ofInt n => exact over_ofInt
  | var name => exact over_var trivial
  | add _ _ h hp hq => exact over_add hp hq h
  | sub _ _ h hp hq => exact over_sub hp hq h
  | mul _ _ h hp hq => exact over_mul hp hq h
  | scale _ h hp => exact over_scale hp h
  | pow _ h hp => exact over_pow hp h
  | substitute _ _ h hp hvalue =>
    exact over_substitute (hp.mono fun _ _ _ => trivial) hvalue h
  | sumOver _ _ _ h hp hlower hupper =>
    exact over_sumOver (hp.mono fun _ _ _ => trivial) hlower hupper h

end Polynomial

end LoopKernel
