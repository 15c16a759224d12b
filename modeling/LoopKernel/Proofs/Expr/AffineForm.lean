import LoopKernel.Proofs.Expr.Evaluation
import LoopKernel.Proofs.Expr.Occurrence

/-!
# Affine forms of expressions

The affine form of an expression stores no zeros and has no variables that the expression lacks.
Where the expression has a value, the form has the same one. The form adds its terms in another
order than the expression, so the computation of its value can overflow where that of the expression
does not.
-/

namespace LoopKernel

namespace Affine

variable {env : String → Option Int} {x : String → Int} {f : Affine}

/-- The absolute values of the constant and of all terms, together. -/
def magnitudeAt (x : String → Int) (f : Affine) : Nat :=
  f.constant.natAbs + (f.coeffs.entries.map fun e => (e.2 * x e.1).natAbs).sum

/-- Terms are added up without overflow while they and the total together are within words. -/
private theorem safe_evalTerms (hx : ∀ name n, env name = some n → x name = n)
    {terms : List (String × Int)} {total : Int}
    (h : total.natAbs + (terms.map fun e => (e.2 * x e.1).natAbs).sum < 2 ^ 63) :
    (evalTerms env total terms).Safe := by
  induction terms generalizing total with
  | nil => exact Attempt.safe_pure _
  | cons term rest ih =>
    obtain ⟨name, c⟩ := term
    rw [List.map_cons, List.sum_cons] at h
    unfold evalTerms
    split
    · exact Attempt.safe_pure _
    · next n hn =>
      rw [← hx name n hn]
      dsimp only at h
      refine (safe_check64 (by omega)).bind fun product hproduct => ?_
      obtain ⟨-, rfl⟩ := WordRange.check_eq_ok.mp hproduct
      refine (safe_check64 (by omega)).bind fun next hnext => ?_
      obtain ⟨-, rfl⟩ := WordRange.check_eq_ok.mp hnext
      exact ih (by omega)

/-- Evaluation does not overflow while the constant and all terms together are within words. -/
theorem safe_eval (hx : ∀ name n, env name = some n → x name = n)
    (h : f.magnitudeAt x < 2 ^ 63) : (f.eval env).Safe :=
  safe_evalTerms hx h

end Affine

namespace Expr

/-- Whether a form stands for an expression. -/
structure Represents (f : Affine) (e : Expr) : Prop where
  proper : f.Proper
  occurs : ∀ name ∈ f.vars, e.OccursFree name
  defined : ∀ env n, e.HasValue env n → ∀ name ∈ f.vars, (env name).isSome = true
  value : ∀ env n, e.HasValue env n → ∀ x : String → Int,
    (∀ name m, env name = some m → x name = m) → f.value x = n

/-- Whether a form comes from two others by an operation. -/
structure Combines (op : Int → Int → Int) (total g next : Affine) : Prop where
  proper : total.Proper → g.Proper → next.Proper
  vars : ∀ name ∈ next.vars, name ∈ total.vars ∨ name ∈ g.vars
  value : ∀ x, next.value x = op (total.value x) (g.value x)

/-- Whether a form comes from another one by an operation with several expressions. -/
structure Accumulates (op : Int → Int → Int) (total : Affine) (es : List Expr) (f : Affine) :
    Prop where
  proper : total.Proper → f.Proper
  occurs : ∀ name ∈ f.vars, name ∈ total.vars ∨ ∃ e ∈ es, e.OccursFree name
  defined : ∀ env values, List.Forall₂ (HasValue env) es values →
    ∀ name ∈ f.vars, name ∈ total.vars ∨ (env name).isSome = true
  value : ∀ env values, List.Forall₂ (HasValue env) es values → ∀ x : String → Int,
    (∀ name m, env name = some m → x name = m) → f.value x = values.foldl op (total.value x)

variable {op : Int → Int → Int} {total next f g : Affine} {e : Expr} {es : List Expr}

/-- Nothing is taken in from no expressions. -/
theorem Accumulates.nil : Accumulates op total [] total where
  proper h := h
  occurs _ h := .inl h
  defined _ _ _ _ h := .inl h
  value env values hvalues x _ := by
    cases hvalues
    rfl

/-- One more expression is taken in first. -/
theorem Accumulates.cons (hg : Represents g e) (hnext : Combines op total g next)
    (hrest : Accumulates op next es f) : Accumulates op total (e :: es) f where
  proper h := hrest.proper (hnext.proper h hg.proper)
  occurs name h := by
    rcases hrest.occurs name h with h | ⟨c, hc, h⟩
    · exact (hnext.vars name h).imp_right fun h =>
        ⟨e, List.mem_cons_self, hg.occurs name h⟩
    · exact .inr ⟨c, List.mem_cons_of_mem e hc, h⟩
  defined env values hvalues name h := by
    obtain ⟨n, rest, hn, hothers, rfl⟩ := List.forall₂_cons_left_iff.mp hvalues
    rcases hrest.defined env rest hothers name h with h | h
    · exact (hnext.vars name h).imp_right (hg.defined env n hn name)
    · exact .inr h
  value env values hvalues x hx := by
    obtain ⟨n, rest, hn, hothers, rfl⟩ := List.forall₂_cons_left_iff.mp hvalues
    rw [hrest.value env rest hothers x hx, hnext.value x, hg.value env n hn x hx, List.foldl_cons]

/-- Sums of forms. -/
theorem combines_add (h : total.add g = .ok next) : Combines (· + ·) total g next where
  proper htotal _ := Affine.proper_add htotal h
  vars _ := (Affine.mem_vars_add h).1
  value x := Affine.value_add x h

/-- Products of forms of which one is constant. -/
theorem combines_mul (h : mulAffine? total g = .ok (some next)) :
    Combines (· * ·) total g next := by
  unfold mulAffine? at h
  split at h
  · next hconstant =>
    simp only [Attempt.bind_eq_ok, Attempt.pure_eq_ok, Option.some.injEq] at h
    obtain ⟨_, h, rfl⟩ := h
    exact ⟨fun _ hg => Affine.proper_scale hg h,
      fun _ hname => .inr (Affine.of_mem_vars_scale h hname),
      fun x => by rw [Affine.value_scale x h, Affine.value_of_isConstant x hconstant, mul_comm]⟩
  · split at h
    · next hconstant =>
      simp only [Attempt.bind_eq_ok, Attempt.pure_eq_ok, Option.some.injEq] at h
      obtain ⟨_, h, rfl⟩ := h
      exact ⟨fun htotal _ => Affine.proper_scale htotal h,
        fun _ hname => .inl (Affine.of_mem_vars_scale h hname),
        fun x => by rw [Affine.value_scale x h, Affine.value_of_isConstant x hconstant]⟩
    · cases h

theorem accumulates_of_sumToAffine?
    (hes : ∀ e ∈ es, ∀ g, e.toAffine? = .ok (some g) → Represents g e)
    (h : sumToAffine? total es = .ok (some f)) : Accumulates (· + ·) total es f := by
  induction es generalizing total with
  | nil =>
    rw [sumToAffine?, Attempt.pure_eq_ok, Option.some.injEq] at h
    exact h ▸ .nil
  | cons e rest ih =>
    rw [sumToAffine?, Attempt.bind_option_eq_some (by rfl)] at h
    obtain ⟨g, hg, h⟩ := h
    obtain ⟨next, hnext, h⟩ := Attempt.bind_eq_ok.mp h
    rw [List.forall_mem_cons] at hes
    exact .cons (hes.1 g hg) (combines_add hnext) (ih hes.2 h)

theorem accumulates_of_productToAffine?
    (hes : ∀ e ∈ es, ∀ g, e.toAffine? = .ok (some g) → Represents g e)
    (h : productToAffine? total es = .ok (some f)) : Accumulates (· * ·) total es f := by
  induction es generalizing total with
  | nil =>
    rw [productToAffine?, Attempt.pure_eq_ok, Option.some.injEq] at h
    exact h ▸ .nil
  | cons e rest ih =>
    rw [productToAffine?, Attempt.bind_option_eq_some (by rfl)] at h
    obtain ⟨g, hg, h⟩ := h
    obtain ⟨next, hnext, h⟩ := (Attempt.bind_option_eq_some (by rfl)).mp h
    rw [List.forall_mem_cons] at hes
    exact .cons (hes.1 g hg) (combines_mul hnext) (ih hes.2 h)

/-- Nothing that a constant starts with has variables. -/
theorem Accumulates.represents {c : Int} (h : Accumulates op (.const c) es f)
    (hchildren : e.children = es) (hbound : e.boundHere = [])
    (hvalue : ∀ env n, e.HasValue env n →
      ∃ values, List.Forall₂ (HasValue env) es values ∧ n = values.foldl op c) :
    Represents f e where
  proper := h.proper (Affine.proper_const c)
  occurs name hname := by
    obtain ⟨c, hc, hoccurs⟩ := (h.occurs name hname).resolve_left List.not_mem_nil
    exact .child (hchildren ▸ hc) (hbound ▸ List.not_mem_nil) hoccurs
  defined env n hn name hname := by
    obtain ⟨values, hvalues, -⟩ := hvalue env n hn
    exact (h.defined env values hvalues name hname).resolve_left List.not_mem_nil
  value env n hn x hx := by
    obtain ⟨values, hvalues, rfl⟩ := hvalue env n hn
    rw [h.value env values hvalues x hx, Affine.value_const]

theorem represents_const (n : Int) : Represents (.const n) (.int n) where
  proper := Affine.proper_const n
  occurs _ h := by cases h
  defined _ _ _ _ h := by cases h
  value env m h x _ := by rw [Affine.value_const, hasValue_int.mp h]

theorem represents_var (name : String) : Represents (.var name) (.var name) where
  proper := Affine.proper_var name
  occurs other h := by
    obtain rfl := Affine.of_mem_vars_term h
    exact .var
  defined env n h other hother := by
    obtain rfl := Affine.of_mem_vars_term hother
    rw [hasValue_var.mp h, Option.isSome_some]
  value env n h x hx := by rw [Affine.value_var, hx name n (hasValue_var.mp h)]

/-- The affine form of an expression stands for it. -/
theorem represents_of_toAffine? :
    ∀ (e : Expr) (f : Affine), e.toAffine? = .ok (some f) → Represents f e := by
  apply induction_on_children
  intro e ih f h
  cases e with
  | int n =>
    rw [toAffine?, Attempt.pure_eq_ok, Option.some.injEq] at h
    exact h ▸ represents_const n
  | var name =>
    rw [toAffine?, Attempt.pure_eq_ok, Option.some.injEq] at h
    exact h ▸ represents_var name
  | sum es =>
    rw [toAffine?] at h
    refine (accumulates_of_sumToAffine? ih h).represents rfl rfl fun env n hn => ?_
    obtain ⟨values, hvalues, rfl⟩ := exists_values_of_sum hn
    exact ⟨values, hvalues, List.sum_eq_foldl⟩
  | product es =>
    rw [toAffine?] at h
    refine (accumulates_of_productToAffine? ih h).represents rfl rfl fun env n hn => ?_
    obtain ⟨values, hvalues, rfl⟩ := exists_values_of_product hn
    exact ⟨values, hvalues, List.prod_eq_foldl⟩
  | _ => cases h

/-- An affine form stores no zeros, its variables occur in the expression, and wherever the
expression has a value, the form has the same one. That value is computed unless it overflows, which
cannot happen while the constant and all terms together are within words. -/
theorem toAffine?_agrees (h : e.toAffine? = .ok (some f)) :
    f.Proper ∧ (∀ name ∈ f.vars, e.OccursFree name) ∧
      ∀ env n, e.HasValue env n → ∀ x : String → Int, (∀ name m, env name = some m → x name = m) →
        f.value x = n ∧ ((f.eval env).Safe → f.eval env = .ok (some n)) ∧
          (f.magnitudeAt x < 2 ^ 63 → (f.eval env).Safe) := by
  have hf := represents_of_toAffine? e f h
  refine ⟨hf.proper, hf.occurs, fun env n hn x hx => ?_⟩
  have hvalue := hf.value env n hn x hx
  refine ⟨hvalue, fun hsafe => ?_, Affine.safe_eval hx⟩
  obtain ⟨r, hr⟩ := Attempt.exists_eq_ok_of_safe hsafe
  obtain ⟨m, rfl⟩ := Option.isSome_iff_exists.mp (Affine.eval_isSome (hf.defined env n hn) hr)
  rw [hr, Affine.eval_eq_ok x hx hr, hvalue]

/-- `2 * (x + 3 * y) + 0 * z + x * -2 + 5`. -/
def cancelledTerms : Expr :=
  .sum [.product [.int 2, .sum [.var "x", .product [.int 3, .var "y"]]],
    .product [.int 0, .var "z"], .product [.var "x", .int (-2)], .int 5]

/-- The form is `6 * y + 5`. -/
theorem toAffine?_agrees_cancelledTerms :
    ∃ f, cancelledTerms.toAffine? = .ok (some f) ∧ f.vars = ["y"] ∧ f.Proper ∧
      cancelledTerms.OccursFree "y" ∧ cancelledTerms.HasValue (fun _ => some 2) 17 ∧
      f.eval (fun _ => some 2) = .ok (some 17) := by
  have hform : cancelledTerms.toAffine? =
      .ok (some ⟨(∅ : SortedMap String Int).insert "y" 6, 5⟩) := by
    decide +kernel
  have hvalue : cancelledTerms.HasValue (fun _ => some 2) 17 := by decide +kernel
  obtain ⟨hproper, hoccurs, heval⟩ := toAffine?_agrees hform
  obtain ⟨-, hsafe, hwords⟩ := heval _ _ hvalue (fun _ => 2) (by rintro _ _ ⟨⟩; rfl)
  exact ⟨_, hform, by decide +kernel, hproper, hoccurs "y" (by decide +kernel), hvalue,
    hsafe (hwords (by decide +kernel))⟩

end Expr

end LoopKernel
