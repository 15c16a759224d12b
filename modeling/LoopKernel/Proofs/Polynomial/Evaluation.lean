import LoopKernel.Proofs.Overflow
import LoopKernel.Proofs.Polynomial.Identity
import LoopKernel.Proofs.Polynomial.Summation

/-!
# Evaluation of polynomials

Where all variables have values, evaluation gives the exact value unless it overflows, and it turns
each operation on polynomials into the same operation on numbers. No result mentions a variable that
its operands lack, so no value is missing that was there before.
-/

namespace LoopKernel.Polynomial

variable {P : String → Prop} {p q r : Polynomial} {given : String → Option Int} {a b : Rat}

/-- Values for all variables, zero for those that have none. -/
def valuesOf (given : String → Option Int) (name : String) : Rat := ((given name).getD 0 : Int)

theorem valuesOf_eq {name : String} {n : Int} (h : given name = some n) :
    valuesOf given name = n := by
  rw [valuesOf, h, Option.getD_some]

theorem valuesOf_update (name : String) (n : Int) :
    valuesOf (Function.update given name (some n)) = Function.update (valuesOf given) name n := by
  funext v
  by_cases h : v = name
  · subst h
    rw [Function.update_self, valuesOf_eq (Function.update_self ..)]
  · rw [Function.update_of_ne h, valuesOf, Function.update_of_ne h]
    rfl

/-- The value depends on the variables that occur. -/
theorem value_congr {env env' : String → Rat} (hp : p.Over P) (h : ∀ v, P v → env v = env' v) :
    value env p = value env' p := by
  unfold value Monomial.value
  congr 1
  apply List.map_congr_left
  rintro ⟨monomial, c⟩ he
  have hmonomial := (hp monomial c (SortedMap.mem_entries.mp he)).2
  congr 2
  apply List.map_congr_left
  rintro ⟨v, exponent⟩ hv
  have hname := (hmonomial v exponent (SortedMap.mem_entries.mp hv)).1
  simp only [h v hname]

/-- A polynomial without variables is a constant. -/
theorem Over.eq_constant (hp : p.Over fun _ => False) : p = constant (value (fun _ => 0) p) := by
  apply eq_of_forall_value hp over_constant
  intro env _
  rw [value_constant]
  exact value_congr hp fun _ h => h.elim

/-! ## When values are missing -/

private theorem causeless_evalTerm {factors : List (String × Nat)} {c : Rat}
    (h : ∀ e ∈ factors, (given e.1).isSome = true) : (evalTerm given c factors).Causeless := by
  induction factors generalizing c with
  | nil => exact Attempt.causeless_pure c
  | cons factor rest ih =>
    obtain ⟨name, exponent⟩ := factor
    rw [List.forall_mem_cons] at h
    obtain ⟨n, hn⟩ := Option.isSome_iff_exists.mp h.1
    simp only at hn
    simp only [evalTerm, hn]
    exact (Attempt.causeless_liftM _).bind fun term _ => ih h.2

/-- Evaluation gives the value when all variables have one, unless it overflows. -/
theorem eval_of_over (hp : p.Over fun v => (given v).isSome = true) (hsafe : (p.eval given).Safe) :
    p.eval given = .ok (p.value (valuesOf given)) := by
  have hcauseless : (p.eval given).Causeless := by
    refine Attempt.Causeless.foldlM fun total e he => ?_
    have hmonomial := (hp e.1 e.2 (SortedMap.mem_entries.mp he)).2
    refine (causeless_evalTerm fun factor hfactor => ?_).bind fun term _ =>
      Attempt.causeless_liftM _
    exact (hmonomial factor.1 factor.2 (SortedMap.mem_entries.mp hfactor)).1
  obtain ⟨a, ha⟩ := hcauseless.exists_eq_ok hsafe
  rw [ha, eval_eq_ok (valuesOf given) (fun name n h => valuesOf_eq h) ha]

private theorem isSome_of_evalTerm {factors : List (String × Nat)} {c : Rat}
    (h : evalTerm given c factors = .ok a) : ∀ e ∈ factors, (given e.1).isSome = true := by
  induction factors generalizing c with
  | nil => exact fun e he => absurd he List.not_mem_nil
  | cons factor rest ih =>
    obtain ⟨n, term, hn, -, h⟩ := evalTerm_cons_eq_ok.mp h
    exact List.forall_mem_cons.mpr ⟨Option.isSome_of_eq_some hn, ih h⟩

/-- Evaluation that has a result found a value for every variable, and the result is exact. -/
theorem over_of_eval (hp : p.Over P) (h : p.eval given = .ok a) :
    p.Over (fun v => (given v).isSome = true) ∧ a = p.value (valuesOf given) := by
  refine ⟨fun monomial c hc => ?_, eval_eq_ok (valuesOf given) (fun name n h => valuesOf_eq h) h⟩
  have hgiven : ∀ e ∈ p.terms.entries, ∀ factor ∈ e.1.entries, (given factor.1).isSome = true := by
    unfold eval at h
    apply Attempt.foldlM_induction (P := fun done _ =>
      ∀ e ∈ done, ∀ factor ∈ e.1.entries, (given factor.1).isSome = true) _ _ h
    · exact fun e he => absurd he List.not_mem_nil
    · intro done total e next _ hdone hnext
      simp only [Attempt.bind_eq_ok] at hnext
      obtain ⟨term, hterm, -⟩ := hnext
      rw [List.forall_mem_append, List.forall_mem_singleton]
      exact ⟨hdone, isSome_of_evalTerm hterm⟩
  obtain ⟨hne, hmonomial⟩ := hp monomial c hc
  refine ⟨hne, fun v exponent hv => ⟨?_, (hmonomial v exponent hv).2⟩⟩
  exact hgiven _ (SortedMap.mem_entries.mpr hc) _ (SortedMap.mem_entries.mpr hv)

/-! ## One law for each operation -/

section Laws

variable (hp : p.Over P) (hq : q.Over P) (ha : p.eval given = .ok a) (hb : q.eval given = .ok b)
  (hsafe : (r.eval given).Safe)

include hp ha hsafe

theorem eval_scale {c : Rat} (h : p.scale c = .ok r) : r.eval given = .ok (a * c) := by
  obtain ⟨hpv, rfl⟩ := over_of_eval hp ha
  rw [eval_of_over (over_scale hpv h) hsafe, value_scale _ h]

theorem eval_pow {k : Nat} (h : p.pow k = .ok r) : r.eval given = .ok (a ^ k) := by
  obtain ⟨hpv, rfl⟩ := over_of_eval hp ha
  rw [eval_of_over (over_pow hpv h) hsafe, value_pow _ h]

include hq hb

theorem eval_add (h : p.add q = .ok r) : r.eval given = .ok (a + b) := by
  obtain ⟨hpv, rfl⟩ := over_of_eval hp ha
  obtain ⟨hqv, rfl⟩ := over_of_eval hq hb
  rw [eval_of_over (over_add hpv hqv h) hsafe, value_add _ h]

theorem eval_sub (h : p.sub q = .ok r) : r.eval given = .ok (a - b) := by
  obtain ⟨hpv, rfl⟩ := over_of_eval hp ha
  obtain ⟨hqv, rfl⟩ := over_of_eval hq hb
  rw [eval_of_over (over_sub hpv hqv h) hsafe, value_sub _ h]

theorem eval_mul (h : p.mul q = .ok r) : r.eval given = .ok (a * b) := by
  obtain ⟨hpv, rfl⟩ := over_of_eval hp ha
  obtain ⟨hqv, rfl⟩ := over_of_eval hq hb
  rw [eval_of_over (over_mul hpv hqv h) hsafe, value_mul _ h]

end Laws

/-- Adding coefficients times powers of a polynomial. -/
theorem value_addPowers (env : String → Rat) {value' out : Polynomial} {k : Nat}
    {cs : List Polynomial} (h : addPowers value' out k cs = .ok r) :
    value env r = value env out + powersValue env (value env value') k cs := by
  induction cs generalizing out k with
  | nil =>
    rw [addPowers, Attempt.pure_eq_ok] at h
    rw [h, powersValue, add_zero]
  | cons c rest ih =>
    simp only [addPowers, Attempt.bind_eq_ok] at h
    obtain ⟨power, hpower, product, hproduct, next, hnext, h⟩ := h
    rw [ih h, value_add env hnext, value_mul env hproduct, value_pow env hpower, powersValue,
      add_assoc]

/-- Replacing a variable gives it the value of what takes its place. -/
theorem value_substitute (env : String → Rat) {name : String}
    (h : p.substitute name q = .ok r) :
    value env r = value (Function.update env name (value env q)) p := by
  unfold substitute at h
  rw [Attempt.bind_eq_ok] at h
  obtain ⟨cs, hcs, h⟩ := h
  rw [value_addPowers env h, value_zero, zero_add, powersValue_coefficientsIn env hcs]

theorem eval_substitute {name : String} {n : Int} (hp : p.Over P) (hq : q.Over P)
    (hb : q.eval given = .ok n) (ha : p.eval (Function.update given name (some n)) = .ok a)
    (hsafe : (r.eval given).Safe) (h : p.substitute name q = .ok r) : r.eval given = .ok a := by
  obtain ⟨hpv, rfl⟩ := over_of_eval hp ha
  obtain ⟨hqv, hn⟩ := over_of_eval hq hb
  have hrest : p.Over fun v => v ≠ name → (given v).isSome = true :=
    hpv.mono fun v hv hne => by rwa [Function.update_of_ne hne] at hv
  rw [eval_of_over (over_substitute hrest hqv h) hsafe, value_substitute _ h, ← hn, valuesOf_update]

/-! ## Coefficients in one variable -/

/-- The sum of coefficients times powers, term by term. -/
theorem powersValue_eq_sum (env : String → Rat) (x : Rat) (k : Nat) (cs : List Polynomial) :
    powersValue env x k cs =
      (((cs.map (value env)).zipIdx k).map fun term => term.1 * x ^ term.2).sum := by
  induction cs generalizing k with
  | nil => rfl
  | cons c rest ih =>
    rw [powersValue, ih, List.map_cons, List.zipIdx_cons, List.map_cons, List.sum_cons]

/-- The values of the coefficients times the powers of the variable add up to the value of the
polynomial. -/
theorem eval_coefficientsIn {name : String} {n : Int} {cs : List Polynomial} (hp : p.Over P)
    (ha : p.eval given = .ok a) (hn : given name = some n) (hcs : p.coefficientsIn name = .ok cs)
    (hsafe : ∀ c ∈ cs, (c.eval given).Safe) :
    ∃ values, cs.mapM (eval given) = .ok values ∧
      a = (values.zipIdx.map fun term => term.1 * (n : Rat) ^ term.2).sum := by
  obtain ⟨hpv, rfl⟩ := over_of_eval hp ha
  have hvalues : ∀ l ⊆ cs, l.mapM (eval given) = .ok (l.map (value (valuesOf given))) := by
    intro l
    induction l with
    | nil => exact fun _ => rfl
    | cons c rest ih =>
      intro hl
      obtain ⟨hc, hrest⟩ := List.cons_subset.mp hl
      have hover := (over_coefficientsIn hpv hcs c hc).mono fun v hv => hv.2
      rw [List.mapM_cons, eval_of_over hover (hsafe c hc), ih hrest]
      rfl
  refine ⟨_, hvalues cs (List.Subset.refl cs), ?_⟩
  rw [← powersValue_eq_sum, powersValue_coefficientsIn _ hcs, ← valuesOf_update,
    Function.update_eq_self_iff.mpr hn.symm]

/-- The sum of the coefficients times the powers of the variable is the polynomial itself. -/
theorem eq_of_addPowers {name : String} {cs : List Polynomial} (hp : p.Over P)
    (hcs : p.coefficientsIn name = .ok cs) (h : addPowers (var name) zero 0 cs = .ok r) :
    r = p := by
  have hp' : p.Over fun _ => True := hp.mono fun _ _ => trivial
  have hr : r.Over fun _ => True := over_addPowers (over_var trivial) over_zero
    (fun d hd => (over_coefficientsIn hp' hcs d hd).mono fun _ _ => trivial) h
  apply eq_of_forall_value hr hp'
  intro env _
  rw [value_addPowers _ h, value_zero, zero_add, value_var, powersValue_coefficientsIn _ hcs,
    Function.update_eq_self]

/-! ## Built polynomials -/

/-- Built polynomials are canonical: they are equal when they agree on all words, and evaluation is
exact unless it overflows. It commutes with sums, differences, products, multiples, powers and
substitution of a polynomial with an integer value, and a polynomial is the sum of its coefficients
in a variable times the powers of the variable. -/
theorem built_canonical (hp : p.Built) (hq : q.Built) :
    p.Canonical ∧
      (p = q ↔ ∀ env : String → Int, (∀ v, WordRange.signed64.Holds (env v)) →
        p.value (fun v => env v) = q.value (fun v => env v)) ∧
      ∀ given : String → Option Int,
        (∀ env : String → Int, (∀ v ∈ p.vars, given v = some (env v)) → (p.eval given).Safe →
          p.eval given = .ok (p.value fun v => env v)) ∧
        (∀ a b r, p.eval given = .ok a → q.eval given = .ok b → (r.eval given).Safe →
          (p.add q = .ok r → r.eval given = .ok (a + b)) ∧
          (p.sub q = .ok r → r.eval given = .ok (a - b)) ∧
          (p.mul q = .ok r → r.eval given = .ok (a * b)) ∧
          (∀ c, p.scale c = .ok r → r.eval given = .ok (a * c)) ∧
          ∀ k, p.pow k = .ok r → r.eval given = .ok (a ^ k)) ∧
        (∀ (name : String) (n : Int) (a : Rat) (r : Polynomial), q.eval given = .ok n →
          p.eval (Function.update given name (some n)) = .ok a → (r.eval given).Safe →
          p.substitute name q = .ok r → r.eval given = .ok a) ∧
        ∀ name cs, p.coefficientsIn name = .ok cs →
          (∀ r, addPowers (var name) zero 0 cs = .ok r → r = p) ∧
          ∀ (n : Int) (a : Rat), given name = some n → p.eval given = .ok a →
            (∀ c ∈ cs, (c.eval given).Safe) →
            ∃ values, cs.mapM (eval given) = .ok values ∧
              a = (values.zipIdx.map fun term => term.1 * (n : Rat) ^ term.2).sum := by
  have hpo := hp.over
  have hqo := hq.over
  refine ⟨hpo.canonical, ⟨fun h env _ => by rw [h], eq_of_forall_value hpo hqo⟩, fun given => ?_⟩
  refine ⟨fun env henv hsafe => ?_, fun a b r ha hb hsafe => ?_,
    fun name n a r hb ha hsafe => eval_substitute hpo hqo hb ha hsafe,
    fun name cs hcs => ⟨fun r => eq_of_addPowers hpo hcs,
      fun n a hn ha => eval_coefficientsIn hpo ha hn hcs⟩⟩
  · have hgiven : p.Over fun v => (given v).isSome = true :=
      hpo.vars.mono fun v hv => by rw [henv v hv]; rfl
    rw [eval_of_over hgiven hsafe, value_congr hpo.vars fun v hv => valuesOf_eq (henv v hv)]
  · exact ⟨eval_add hpo hqo ha hb hsafe, eval_sub hpo hqo ha hb hsafe,
      eval_mul hpo hqo ha hb hsafe, fun c => eval_scale hpo ha hsafe,
      fun k => eval_pow hpo ha hsafe⟩

/-- One less than a variable times one more is the square less one: both are built, and they agree
at all words. -/
theorem built_canonical_square :
    ∃ below, (var "n").sub (ofInt 1) = .ok below ∧ ∃ above, (var "n").add (ofInt 1) = .ok above ∧
      ∃ product, below.mul above = .ok product ∧ ∃ square, (var "n").pow 2 = .ok square ∧
        ∃ difference, square.sub (ofInt 1) = .ok difference ∧ product = difference := by
  obtain ⟨below, hbelow, above, habove, product, hproduct, square, hsquare, difference,
      hdifference, -⟩ : ∃ below, (var "n").sub (ofInt 1) = .ok below ∧
      ∃ above, (var "n").add (ofInt 1) = .ok above ∧
      ∃ product, below.mul above = .ok product ∧ ∃ square, (var "n").pow 2 = .ok square ∧
      ∃ difference, square.sub (ofInt 1) = .ok difference ∧ True := by decide +kernel
  have hbuilt : Built product :=
    .mul (.sub (.var "n") (.ofInt 1) hbelow) (.add (.var "n") (.ofInt 1) habove) hproduct
  have hbuilt' : Built difference := .sub (.pow (.var "n") hsquare) (.ofInt 1) hdifference
  have hequal := (built_canonical hbuilt hbuilt').2.1.mpr fun env _ => by
    rw [value_mul _ hproduct, value_sub _ hbelow, value_add _ habove, value_sub _ hdifference,
      value_pow _ hsquare, value_var, value_ofInt]
    push_cast
    ring
  exact ⟨below, hbelow, above, habove, product, hproduct, square, hsquare, difference,
    hdifference, hequal⟩

end LoopKernel.Polynomial
