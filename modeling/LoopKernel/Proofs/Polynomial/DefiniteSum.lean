import LoopKernel.Proofs.Polynomial.Evaluation

/-!
# Definite sums evaluate exactly

Where the bounds of a sum have integer values, the sum evaluates to the values of the polynomial at
the integers between them, added up. Bounds that are the wrong way round give the negative of the
sum over the integers that lie strictly between them.
-/

namespace LoopKernel.Polynomial

variable {p lower upper r : Polynomial} {given : String → Option Int} {env : String → Int}
  {name : String}

/-- Evaluation gives the value for an assignment that agrees with the given one on the variables
that occur, unless it overflows. -/
theorem eval_eq_value {P : String → Prop} (hp : p.Over P)
    (hgiven : ∀ v, P v → given v = some (env v))
    (hsafe : (p.eval given).Safe) : p.eval given = .ok (p.value fun v => env v) := by
  have hsome : p.Over fun v => (given v).isSome = true :=
    hp.mono fun v hv => by rw [hgiven v hv, Option.isSome_some]
  rw [eval_of_over hsome hsafe, value_congr hp fun v hv => valuesOf_eq (hgiven v hv)]

/-- The sum of a polynomial over a range of a variable evaluates to the sum of its values at the
integers of the range, and to the negative of the sum over the integers that are left out when the
range ends before the integer in front of it. -/
theorem eval_sumOver (hp : p.Built) (hlower : lower.Built) (hupper : upper.Built)
    (hlowerFree : name ∉ lower.vars) (hupperFree : name ∉ upper.vars)
    (hgiven : ∀ v, v ≠ name → v ∈ p.vars ∨ v ∈ lower.vars ∨ v ∈ upper.vars →
      given v = some (env v))
    {lo hi : Int} (hlo : lower.value (fun v => env v) = lo)
    (hhi : upper.value (fun v => env v) = hi)
    (h : p.sumOver name lower upper = .ok r) (hsafe : (r.eval given).Safe) :
    (lo - 1 ≤ hi → r.eval given = .ok (∑ x ∈ Finset.Icc lo hi,
        p.value (Function.update (fun v => (env v : Rat)) name x))) ∧
      (hi < lo - 1 → r.eval given = .ok (-∑ x ∈ Finset.Icc (hi + 1) (lo - 1),
        p.value (Function.update (fun v => (env v : Rat)) name x))) := by
  have hr : r.Over fun v => given v = some (env v) := by
    refine over_sumOver (hp.over.vars.mono fun v hv hne => hgiven v hne (.inl hv))
      (hlower.over.vars.mono fun v hv => hgiven v (fun hname => ?_) (.inr (.inl hv)))
      (hupper.over.vars.mono fun v hv => hgiven v (fun hname => ?_) (.inr (.inr hv))) h
    · exact hlowerFree (hname ▸ hv)
    · exact hupperFree (hname ▸ hv)
  have heval := eval_eq_value hr (fun v hv => hv) hsafe
  constructor
  · intro hrange
    rw [heval, value_sumOver _ hlo hhi (by omega) h]
  · intro hrange
    rw [heval, value_sumOver_backward _ hlo hhi (by omega) h]

/-- The squares from `n` to `m`, where `n` is five and `m` is two: three and four are left out. -/
theorem eval_sumOver_squares :
    ∃ square, (var "i").pow 2 = .ok square ∧ ∃ r, square.sumOver "i" (var "n") (var "m") = .ok r ∧
      r.eval (fun v => if v = "n" then some 5 else if v = "m" then some 2 else none) =
        .ok (-(3 ^ 2 + 4 ^ 2)) := by
  obtain ⟨square, hsquare, r, hr, hsafe, hfree⟩ : ∃ square, (var "i").pow 2 = .ok square ∧
      ∃ r, square.sumOver "i" (var "n") (var "m") = .ok r ∧
        (r.eval fun v => if v = "n" then some 5 else if v = "m" then some 2 else none).Safe ∧
        ∀ v ∈ square.vars, v = "i" := by
    decide +kernel
  have hgiven : ∀ v, v ≠ "i" → v ∈ square.vars ∨ v ∈ (var "n").vars ∨ v ∈ (var "m").vars →
      (if v = "n" then some 5 else if v = "m" then some 2 else none : Option Int) =
        some (if v = "n" then 5 else 2) := by
    have hn : ∀ v ∈ (var "n").vars, v = "n" := by decide
    have hm : ∀ v ∈ (var "m").vars, v = "m" := by decide
    rintro v hne (hv | hv | hv)
    · exact absurd (hfree v hv) hne
    · rw [hn v hv]
      rfl
    · rw [hm v hv]
      rfl
  have hlo : (var "n").value (fun v => ((if v = "n" then 5 else 2 : Int) : Rat)) = (5 : Int) := by
    rw [value_var]
    rfl
  have hhi : (var "m").value (fun v => ((if v = "n" then 5 else 2 : Int) : Rat)) = (2 : Int) := by
    rw [value_var]
    rfl
  obtain ⟨-, hbackward⟩ := eval_sumOver (.pow (.var "i") hsquare) (.var "n") (.var "m")
    (by decide) (by decide) hgiven hlo hhi hr hsafe
  have hbetween : Finset.Icc (2 + 1 : Int) (5 - 1) = {3, 4} := by decide
  refine ⟨square, hsquare, r, hr, ?_⟩
  rw [hbackward (by decide), hbetween, Finset.sum_pair (by decide)]
  simp only [value_pow _ hsquare, value_var, Function.update_self]
  norm_num

end LoopKernel.Polynomial
