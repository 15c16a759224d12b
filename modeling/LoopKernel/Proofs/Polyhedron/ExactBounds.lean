import LoopKernel.Proofs.Overflow
import LoopKernel.Proofs.Polyhedron.Bounds
import LoopKernel.Proofs.Polyhedron.Projection

/-!
# When a dimension has bounds

A constraint can be solved for a variable when the variable has a unit coefficient, or when no other
variable occurs, so that the quotient can be rounded. A dimension has bounds exactly if all
constraints can be solved for it. The bounds are then in the other variables, and an integer is
within them exactly if it satisfies the constraints.
-/

namespace LoopKernel

namespace Constraint

/-- Whether a constraint can be solved for a variable: the variable has no coefficient other than
zero and plus or minus one, or it occurs alone. -/
def SolvableFor (c : Constraint) (name : String) : Prop :=
  c.UnitIn name ∨ (c.form.without name).isConstant = true

instance (c : Constraint) (name : String) : Decidable (c.SolvableFor name) :=
  inferInstanceAs (Decidable (_ ∨ _))

end Constraint

namespace DimBounds

variable {name : String} {a b : Int} {rest : Affine} {c : Constraint}

/-! ## Solving one constraint -/

/-- The only cause for which there is no lower bound is a coefficient other than one beside other
variables. -/
theorem causeless_lowerFrom_iff :
    (lowerFrom name a rest).Causeless ↔ a = 1 ∨ rest.isConstant = true := by
  unfold lowerFrom
  split
  · next hone => exact iff_of_true (Attempt.causeless_liftM _) (.inl hone)
  · next hne =>
    split
    · next hconstant =>
      refine iff_of_true ?_ (.inr hconstant)
      exact (Attempt.causeless_liftM _).bind fun _ _ => Attempt.causeless_pure _
    · next hvar => exact iff_of_false (fun h => h _ rfl) (not_or.mpr ⟨hne, hvar⟩)

/-- The only cause for which there is no upper bound is a coefficient other than one beside other
variables. -/
theorem causeless_upperFrom_iff :
    (upperFrom name b rest).Causeless ↔ b = 1 ∨ rest.isConstant = true := by
  unfold upperFrom
  split
  · next hone => exact iff_of_true (Attempt.causeless_pure _) (.inl hone)
  · next hne =>
    split
    · next hconstant => exact iff_of_true (Attempt.causeless_pure _) (.inr hconstant)
    · next hvar => exact iff_of_false (fun h => h _ rfl) (not_or.mpr ⟨hne, hvar⟩)

/-- A constraint that adds to the bounds of a variable can be solved for it. -/
theorem solvableFor_of_addFrom {bounds next : DimBounds} (hc : c.involves name = true)
    (h : addFrom name bounds c = .ok next) : c.SolvableFor name := by
  unfold Constraint.SolvableFor Constraint.UnitIn
  rcases addFrom_cases hc h with ⟨-, -, l, hl, -⟩ | ⟨-, -, u, hu, -⟩ |
    ⟨-, a, rest, negated, l, u, -, hsign, hl, -, -, -⟩
  · have hlower := causeless_lowerFrom_iff.mp (Attempt.causeless_of_eq_ok hl)
    exact hlower.imp_left fun hone => .inr (.inl hone)
  · have hupper := causeless_upperFrom_iff.mp (Attempt.causeless_of_eq_ok hu)
    exact hupper.imp_left fun hone => .inr (.inr (by omega))
  · have hlower := causeless_lowerFrom_iff.mp (Attempt.causeless_of_eq_ok hl)
    obtain ⟨rfl, rfl⟩ | ⟨rfl, hrest⟩ := hsign
    · exact hlower.imp_left fun hone => .inr (.inl hone)
    · rw [Affine.isConstant_neg hrest] at hlower
      exact hlower.imp_left fun hone => .inr (.inr (by omega))

/-- An equality with a coefficient of one, or without other variables, has both bounds unless a word
is too small. -/
private theorem causeless_equality {bounds : DimBounds} (h : a = 1 ∨ rest.isConstant = true) :
    Attempt.Causeless (do
      let lower ← lowerFrom name a rest
      let upper ← upperFrom name a (← rest.neg)
      pure (⟨bounds.lower ++ [lower], bounds.upper ++ [upper]⟩ : DimBounds)) := by
  refine (causeless_lowerFrom_iff.mpr h).bind fun l _ => ?_
  refine (Attempt.causeless_liftM _).bind fun negated hn => ?_
  rw [Attempt.liftM_eq_ok] at hn
  refine (causeless_upperFrom_iff.mpr ?_).bind fun _ _ => Attempt.causeless_pure _
  rwa [Affine.isConstant_neg hn]

/-- A constraint that can be solved for a variable adds to its bounds unless a word is too small. -/
theorem causeless_addFrom {bounds : DimBounds} (hc : c.involves name = true)
    (h : c.SolvableFor name) : (addFrom name bounds c).Causeless := by
  rw [Constraint.involves_iff] at hc
  have hunit : ∀ a, 0 < a → (a = c.form.coeff name ∨ a = -c.form.coeff name) →
      a = 1 ∨ (c.form.without name).isConstant = true := by
    intro a ha hsign
    refine h.imp_left fun hunit => ?_
    unfold Constraint.UnitIn at hunit
    omega
  simp only [addFrom]
  cases hrelation : c.relation with
  | inequality =>
    dsimp only
    split
    · next hpos =>
      refine (causeless_lowerFrom_iff.mpr ?_).bind fun _ _ => Attempt.causeless_pure _
      exact hunit _ hpos (.inl rfl)
    · refine (Attempt.causeless_liftM _).bind fun b hb => ?_
      rw [Attempt.liftM_eq_ok, WordRange.check_eq_ok] at hb
      refine (causeless_upperFrom_iff.mpr ?_).bind fun _ _ => Attempt.causeless_pure _
      exact hunit b (by omega) (.inr hb.2.symm)
  | equality =>
    dsimp only
    split
    · refine (Attempt.causeless_liftM _).bind fun a ha => ?_
      refine (Attempt.causeless_liftM _).bind fun rest hrest => ?_
      rw [Attempt.liftM_eq_ok, WordRange.check_eq_ok] at ha
      rw [Attempt.liftM_eq_ok] at hrest
      apply causeless_equality
      rw [Affine.isConstant_neg hrest]
      exact hunit a (by omega) (.inr ha.2.symm)
    · exact causeless_equality (hunit _ (by omega) (.inl rfl))

end DimBounds

namespace Polyhedron

variable {s : Polyhedron} {name : String}

/-- All constraints can be solved for a dimension that has bounds. -/
theorem solvableFor_of_dimBounds {bounds : DimBounds} (h : s.dimBounds name = .ok bounds) :
    ∀ c ∈ s.constraints, c.SolvableFor name := by
  obtain ⟨-, h⟩ := dimBounds_eq_ok_iff.mp h
  intro c hc
  by_cases hinvolves : c.involves name = true
  · refine Attempt.foldlM_induction (P := fun done _ => ∀ c ∈ done, c.SolvableFor name)
      (by simp) ?_ h c (List.mem_filter.mpr ⟨hc, hinvolves⟩)
    intro done bounds c next hc hdone hnext
    rw [List.forall_mem_append, List.forall_mem_singleton]
    exact ⟨hdone, DimBounds.solvableFor_of_addFrom (List.mem_filter.mp hc).2 hnext⟩
  · exact .inl (.inl (Constraint.not_involves_iff.mp hinvolves))

/-- A dimension for which all constraints can be solved has bounds unless a word is too small. -/
theorem causeless_dimBounds (hdim : name ∈ s.dims)
    (h : ∀ c ∈ s.constraints, c.SolvableFor name) : (s.dimBounds name).Causeless := by
  unfold dimBounds
  rw [hasDim_iff.mpr hdim]
  refine Attempt.Causeless.foldlM fun bounds c hc => ?_
  obtain ⟨hmem, hinvolves⟩ := List.mem_filter.mp hc
  exact DimBounds.causeless_addFrom hinvolves (h c hmem)

/-- The bounds of a dimension are in the other variables. -/
theorem not_mem_vars_of_dimBounds {bounds : DimBounds} (h : s.dimBounds name = .ok bounds) :
    ∀ f, f ∈ bounds.lower ∨ f ∈ bounds.upper → name ∉ f.vars := by
  refine forms_of_dimBounds (fun _ => List.not_mem_nil) (fun f g hf hneg => ?_) (fun c _ => ?_) h
  · exact fun hname => hf (Affine.of_mem_vars_scale hneg hname)
  · rw [Affine.without, Affine.vars, SortedMap.mem_keys, SortedMap.contains_erase]
    simp

/-- The integer points of the constraints on a dimension are what lies within its bounds. -/
theorem holds_iff_within_dimBounds {bounds : DimBounds} (h : s.dimBounds name = .ok bounds)
    (x : String → Int) :
    (∀ c ∈ s.constraints, c.involves name = true → c.Holds x) ↔
      (∀ l ∈ bounds.lower, l.value x ≤ x name) ∧ ∀ u ∈ bounds.upper, x name ≤ u.value x := by
  rw [← (dimBounds_describes h).exact]
  simp only [List.mem_filter, and_imp, Constraint.holdsAt_self]

/-- Unless a word is too small, a dimension has bounds exactly if each constraint has a unit
coefficient for it or no other variable. The bounds are in the other variables, and they are exact:
an integer assignment satisfies the constraints that mention the dimension exactly if the value of
the dimension is at least every lower bound and at most every upper bound. -/
theorem dimBounds_exact (hsafe : (s.dimBounds name).Safe) :
    ((∃ bounds, s.dimBounds name = .ok bounds) ↔
      name ∈ s.dims ∧ ∀ c ∈ s.constraints, c.SolvableFor name) ∧
    ∀ bounds, s.dimBounds name = .ok bounds →
      (∀ f, f ∈ bounds.lower ∨ f ∈ bounds.upper → name ∉ f.vars) ∧
      ∀ x : String → Int, (∀ c ∈ s.constraints, c.involves name = true → c.Holds x) ↔
        (∀ l ∈ bounds.lower, l.value x ≤ x name) ∧ ∀ u ∈ bounds.upper, x name ≤ u.value x := by
  refine ⟨⟨?_, ?_⟩, fun bounds h => ⟨not_mem_vars_of_dimBounds h, holds_iff_within_dimBounds h⟩⟩
  · rintro ⟨bounds, h⟩
    exact ⟨(dimBounds_eq_ok_iff.mp h).1, solvableFor_of_dimBounds h⟩
  · rintro ⟨hdim, hsolvable⟩
    exact (causeless_dimBounds hdim hsolvable).exists_eq_ok hsafe

/-- An index up to a parameter that exceeds another one by five, and whose double is seven. Three
times the other one is at least twice the parameter. -/
def halvedSeven : Polyhedron where
  dims := ["h", "i"]
  constraints := [
    ⟨.inequality, ⟨.ofList [("i", -1), ("n", 1)], 0⟩⟩,
    ⟨.equality, ⟨.ofList [("h", 1), ("i", -1)], 5⟩⟩,
    ⟨.equality, ⟨.ofList [("i", 2)], -7⟩⟩,
    ⟨.inequality, ⟨.ofList [("h", 3), ("n", -2)], 0⟩⟩]

/-- The double of an integer is not seven: the bounds read off this equality are four from below and
three from above, so that no point is within the bounds of the index. -/
theorem dimBounds_exact_halvedSeven :
    ∃ bounds, halvedSeven.dimBounds "i" = .ok bounds ∧
      bounds.lower = [⟨.ofList [("h", 1)], 5⟩, .const 4] ∧
      bounds.upper = [⟨.ofList [("n", 1)], 0⟩, ⟨.ofList [("h", 1)], 5⟩, .const 3] ∧
      ∀ x : String → Int, ¬halvedSeven.Holds x := by
  obtain ⟨bounds, hbounds, hlower, hupper⟩ : ∃ bounds, halvedSeven.dimBounds "i" = .ok bounds ∧
      bounds.lower = [⟨.ofList [("h", 1)], 5⟩, .const 4] ∧
      bounds.upper = [⟨.ofList [("n", 1)], 0⟩, ⟨.ofList [("h", 1)], 5⟩, .const 3] := by
    decide
  have hsafe : (halvedSeven.dimBounds "i").Safe := by decide
  obtain ⟨-, hexact⟩ := dimBounds_exact hsafe
  refine ⟨bounds, hbounds, hlower, hupper, fun x hx => ?_⟩
  obtain ⟨habove, hbelow⟩ := ((hexact bounds hbounds).2 x).mp fun c hc _ => hx c hc
  have hfour := habove (.const 4) (by rw [hlower]; decide)
  have hthree := hbelow (.const 3) (by rw [hupper]; decide)
  rw [Affine.value_const] at hfour hthree
  omega

end Polyhedron

end LoopKernel
