import LoopKernel.Proofs.Polyhedron.Emptiness

/-!
# Constraints that are left out

A constraint is left out when the others, or a context, are shown to imply it. Since the test for
emptiness is sound on the integers, no point comes in. Since it is complete on the rationals, what
remains after redundant constraints are removed is needed there: every constraint excludes some
rational point that satisfies all the others.
-/

namespace LoopKernel

namespace Constraint

variable {x : String → Rat} {c d : Constraint} {negated : List Constraint}

private theorem Positive.proper {f : Affine} (h : Positive f d) (hf : f.Proper) :
    d.form.Proper := by
  obtain ⟨shifted, hshifted, hd⟩ := h
  unfold Affine.sub at hshifted
  rw [Attempt.bind_eq_ok] at hshifted
  obtain ⟨_, -, hshifted⟩ := hshifted
  exact proper_normalize (Affine.proper_add hf hshifted) hd

/-- The negations of a constraint without stored zeros store none either. -/
private theorem proper_of_mem_negations (hc : c.form.Proper) (h : c.negations = .ok negated)
    (hd : d ∈ negated) : d.form.Proper := by
  obtain ⟨negative, hnegative, ⟨-, below, rfl, hbelow⟩ | ⟨-, above, below, rfl, habove, hbelow⟩⟩ :=
    negations_cases h
  · rw [List.mem_singleton.mp hd]
    exact hbelow.proper (Affine.proper_scale hc hnegative)
  · simp only [List.mem_cons, List.not_mem_nil, or_false] at hd
    rcases hd with rfl | rfl
    · exact habove.proper hc
    · exact hbelow.proper (Affine.proper_scale hc hnegative)

/-- What is positive at integers is at least one at rationals. -/
private theorem Positive.one_le {f : Affine} (h : Positive f d) (hx : d.HoldsRat x) :
    1 ≤ f.valueRat x := by
  obtain ⟨shifted, hshifted, hd⟩ := h
  have hnonneg := holdsWeighted_of_normalize zero_le_one hd (holdsWeighted_one.mpr hx)
  rw [holdsWeighted_one] at hnonneg
  simp only [HoldsRat, Relation.HoldsRat, ← Affine.weighted_one] at hnonneg
  rw [Affine.weighted_sub _ _ hshifted, Affine.weighted_const, Affine.weighted_one] at hnonneg
  push_cast at hnonneg
  linarith

/-- A negation of a constraint excludes it, at rationals too. -/
private theorem not_holdsRat_of_mem_negations (h : c.negations = .ok negated) (hd : d ∈ negated)
    (hx : d.HoldsRat x) : ¬c.HoldsRat x := by
  obtain ⟨negative, hnegative, hcases⟩ := negations_cases h
  have hneg : negative.valueRat x = -c.form.valueRat x := by
    rw [← Affine.weighted_one, Affine.weighted_neg _ _ hnegative, Affine.weighted_one]
  rcases hcases with ⟨hrelation, below, rfl, hbelow⟩ |
    ⟨hrelation, above, below, rfl, habove, hbelow⟩
  · obtain rfl := List.mem_singleton.mp hd
    have hone := hbelow.one_le hx
    rw [HoldsRat, hrelation, Relation.HoldsRat]
    linarith
  · rw [HoldsRat, hrelation, Relation.HoldsRat]
    simp only [List.mem_cons, List.not_mem_nil, or_false] at hd
    rcases hd with rfl | rfl
    · have hone := habove.one_le hx
      linarith
    · have hone := hbelow.one_le hx
      linarith

end Constraint

namespace Polyhedron

variable {s t context : Polyhedron}

/-! ## Intersections -/

/-- Constraints that are added one after the other are as many more conditions. -/
theorem holds_foldlM_constrain {cs : List Constraint} (h : cs.foldlM constrain s = .ok t)
    (x : String → Int) : t.Holds x ↔ s.Holds x ∧ ∀ c ∈ cs, c.Holds x := by
  apply Attempt.foldlM_induction (P := fun done out => out.Holds x ↔
    s.Holds x ∧ ∀ c ∈ done, c.Holds x) _ _ h
  · simp
  · intro done out c next _ hout hnext
    rw [constrain_holds hnext, hout]
    simp only [List.mem_append, List.mem_singleton, or_imp, forall_and, forall_eq, and_assoc]

/-- The points of an intersection are those of both polyhedra. -/
theorem holds_intersect {both : Polyhedron} (h : s.intersect t = .ok both) (x : String → Int) :
    both.Holds x ↔ s.Holds x ∧ t.Holds x := by
  rw [holds_foldlM_constrain h x]
  rfl

/-! ## Conditions that are left out -/

/-- The kept constraints are among those that were gone through, and at every point where they hold
the dropped ones hold too. -/
private theorem dropRedundant_spec {dims : List String} {cs kept out : List Constraint}
    (h : dropRedundant dims kept cs = .ok out) :
    (∀ c ∈ out, c ∈ kept ++ cs) ∧
      ∀ x : String → Int, (∀ c ∈ out, c.Holds x) → ∀ c ∈ kept ++ cs, c.Holds x := by
  induction cs generalizing kept with
  | nil =>
    rw [dropRedundant, Attempt.pure_eq_ok] at h
    subst h
    simp
  | cons c rest ih =>
    rw [dropRedundant, Attempt.bind_eq_ok] at h
    obtain ⟨implied, himplied, h⟩ := h
    cases implied with
    | true =>
      obtain ⟨hkept, hdropped⟩ := ih h
      have hsplit : ∀ d, d ∈ kept ++ c :: rest ↔ d = c ∨ d ∈ kept ++ rest := by
        simp [or_left_comm]
      refine ⟨fun d hd => (hsplit d).mpr (.inr (hkept d hd)), fun x hx d hd => ?_⟩
      rcases (hsplit d).mp hd with rfl | hd
      · exact holds_of_implies himplied (hdropped x hx)
      · exact hdropped x hx d hd
    | false =>
      have hmoved := ih h
      rwa [List.append_assoc, List.singleton_append] at hmoved

/-- Removing redundant constraints keeps the points, and brings no constraint in. -/
theorem removeRedundancies_spec (h : s.removeRedundancies = .ok t) :
    t.dims = s.dims ∧ (∀ c ∈ t.constraints, c ∈ s.constraints) ∧
      ∀ x : String → Int, t.Holds x ↔ s.Holds x := by
  unfold removeRedundancies at h
  simp only [Attempt.bind_eq_ok, Attempt.pure_eq_ok] at h
  obtain ⟨constraints, hdrop, rfl⟩ := h
  obtain ⟨hkept, hdropped⟩ := dropRedundant_spec hdrop
  exact ⟨rfl, hkept, fun x => ⟨hdropped x, fun hx c hc => hx c (hkept c hc)⟩⟩

/-- What a context implies is left out, and nothing else. At the points of the context the remaining
constraints stand for all. -/
theorem gist_spec (h : s.gist context = .ok t) :
    (∀ c ∈ t.constraints, c ∈ s.constraints) ∧
      ∀ x : String → Int, context.Holds x → t.Holds x → s.Holds x := by
  unfold gist at h
  simp only [Attempt.bind_eq_ok, Attempt.pure_eq_ok] at h
  obtain ⟨aligned, haligned, constraints, hconstraints, rfl⟩ := h
  obtain ⟨hkept, hleft⟩ := Attempt.of_filterM hconstraints
  refine ⟨hkept, fun x hcontext hx c hc => ?_⟩
  rcases hleft c hc with hc | himplied
  · exact hx c hc
  · simp only [Attempt.bind_eq_ok, Attempt.pure_eq_ok, Bool.not_eq_false'] at himplied
    obtain ⟨_, himplied, rfl⟩ := himplied
    refine holds_of_implies himplied ((holds_intersect haligned x).mpr ⟨hcontext, ?_⟩)
    exact fun d hd => absurd hd List.not_mem_nil

theorem dims_gist (h : s.gist context = .ok t) : t.dims = s.dims := by
  unfold gist at h
  simp only [Attempt.bind_eq_ok, Attempt.pure_eq_ok] at h
  obtain ⟨aligned, -, constraints, -, rfl⟩ := h
  rfl

/-- Simplification keeps the points: removing redundant constraints keeps all of them, leaving out
what a context implies keeps those of the context, and what is found to be implied holds at every
point. No constraint comes in, and the dimensions stay. -/
theorem simplification_keeps_points (s : Polyhedron) :
    (∀ t, s.removeRedundancies = .ok t →
        t.dims = s.dims ∧ (∀ c ∈ t.constraints, c ∈ s.constraints) ∧
          ∀ x : String → Int, t.Holds x ↔ s.Holds x) ∧
      (∀ context t, s.gist context = .ok t →
        t.dims = s.dims ∧ (∀ c ∈ t.constraints, c ∈ s.constraints) ∧
          ∀ x : String → Int, context.Holds x → (t.Holds x ↔ s.Holds x)) ∧
      ∀ c, s.implies c = .ok true → ∀ x : String → Int, s.Holds x → c.Holds x := by
  refine ⟨fun t h => removeRedundancies_spec h, fun context t h => ?_,
    fun c h x hx => holds_of_implies h hx⟩
  obtain ⟨hkept, hleft⟩ := gist_spec h
  exact ⟨dims_gist h, hkept, fun x hcontext =>
    ⟨hleft x hcontext, fun hx c hc => hx c (hkept c hc)⟩⟩

/-- The diagonal of a square, with bounds on both indices. -/
def diagonal : Polyhedron where
  dims := ["i", "j"]
  constraints := [
    ⟨.equality, ⟨.ofList [("i", 1), ("j", -1)], 0⟩⟩,
    ⟨.inequality, ⟨.ofList [("i", 1)], 0⟩⟩,
    ⟨.inequality, ⟨.ofList [("j", 1)], 0⟩⟩,
    ⟨.inequality, ⟨.ofList [("i", -1), ("n", 1)], -1⟩⟩,
    ⟨.inequality, ⟨.ofList [("j", -1), ("n", 1)], 0⟩⟩]

/-- Three of the constraints are enough, four on the line where the indices are equal, and the
indices are found to be equal. -/
theorem simplification_keeps_points_diagonal :
    (∃ t, diagonal.removeRedundancies = .ok t ∧ t.constraints.length = 3 ∧
        ∀ x : String → Int, t.Holds x ↔ diagonal.Holds x) ∧
      (∃ t, diagonal.gist ⟨["i", "j"], diagonal.constraints.take 1⟩ = .ok t ∧
        t.constraints.length = 4 ∧
          ∀ x : String → Int, x "i" = x "j" → (t.Holds x ↔ diagonal.Holds x)) ∧
      ∀ x : String → Int, diagonal.Holds x → x "i" = x "j" := by
  obtain ⟨hremove, hgist, himplies⟩ := simplification_keeps_points diagonal
  have hline : ∀ x : String → Int,
      Constraint.Holds x ⟨.equality, ⟨.ofList [("i", 1), ("j", -1)], 0⟩⟩ ↔ x "i" = x "j" := by
    intro x
    have hentries : (SortedMap.ofList [("i", (1 : Int)), ("j", -1)]).entries =
        [("i", 1), ("j", -1)] := by decide
    simp only [Constraint.Holds, Relation.Holds, Affine.value, hentries, List.map_cons,
      List.map_nil, List.sum_cons, List.sum_nil]
    omega
  refine ⟨?_, ?_, fun x hx => (hline x).mp (himplies _ (by decide +kernel) x hx)⟩
  · obtain ⟨t, ht, hlength⟩ : ∃ t, diagonal.removeRedundancies = .ok t ∧
        t.constraints.length = 3 := by decide +kernel
    exact ⟨t, ht, hlength, (hremove t ht).2.2⟩
  · obtain ⟨t, ht, hlength⟩ : ∃ t,
        diagonal.gist ⟨["i", "j"], diagonal.constraints.take 1⟩ = .ok t ∧
          t.constraints.length = 4 := by decide +kernel
    refine ⟨t, ht, hlength, fun x hx => (hgist _ t ht).2.2 x fun c hc => ?_⟩
    rw [List.mem_singleton.mp hc]
    exact (hline x).mpr hx

/-! ## Constraints that are needed -/

/-- A constraint that is not found to be implied excludes a rational point. -/
private theorem exists_holdsRat_of_implies_false {c : Constraint}
    (hs : ∀ d ∈ s.constraints, d.form.Proper) (hc : c.form.Proper)
    (h : s.implies c = .ok false) : ∃ x, s.HoldsRat x ∧ ¬c.HoldsRat x := by
  unfold implies at h
  rw [Attempt.bind_eq_ok] at h
  obtain ⟨negated, hnegated, h⟩ := h
  obtain ⟨d, hd, hempty⟩ := Attempt.of_allM_false h
  rw [Attempt.bind_eq_ok] at hempty
  obtain ⟨cut, hcut, hempty⟩ := hempty
  have hproper : ∀ e ∈ cut.constraints, e.form.Proper := by
    intro e he
    rcases of_mem_constrain hcut he with he | he
    · exact hs e he
    · exact Constraint.proper_normalize (Constraint.proper_of_mem_negations hc hnegated hd) he
  obtain ⟨x, hx⟩ := exists_holdsRat_of_isEmpty_false hproper hempty
  obtain ⟨normal, hnormal, rfl⟩ := constrain_eq_ok_iff.mp hcut
  have htautology : ∀ e : Constraint, e.isTautology = true → e.HoldsRat x := fun e he =>
    Constraint.holdsWeighted_one.mp (Constraint.holdsWeighted_of_isTautology zero_le_one he)
  obtain ⟨hholds, hcutoff⟩ := (Constraint.forall_pushUnique htautology).mp hx
  rw [← Constraint.holdsWeighted_one] at hcutoff
  refine ⟨x, hholds, Constraint.not_holdsRat_of_mem_negations hnegated hd ?_⟩
  exact Constraint.holdsWeighted_one.mp
    (Constraint.holdsWeighted_of_normalize zero_le_one hnormal hcutoff)

/-- Each constraint that was gone through and is kept excludes a rational point that satisfies those
kept before and all others that are kept. -/
private theorem dropRedundant_needed {dims : List String} {cs kept out : List Constraint}
    (hproper : ∀ c ∈ kept ++ cs, c.form.Proper) (h : dropRedundant dims kept cs = .ok out) :
    ∃ later, out = kept ++ later ∧ (∀ c ∈ later, c ∈ cs) ∧
      ∀ before c after, later = before ++ c :: after →
        ∃ x : String → Rat, (∀ e ∈ kept ++ before ++ after, e.HoldsRat x) ∧ ¬c.HoldsRat x := by
  induction cs generalizing kept with
  | nil =>
    rw [dropRedundant, Attempt.pure_eq_ok] at h
    exact ⟨[], by rw [List.append_nil, h], by simp, by simp⟩
  | cons c rest ih =>
    have hsplit : ∀ d, d ∈ kept ++ c :: rest ↔ d = c ∨ d ∈ kept ++ rest := by
      simp [or_left_comm]
    rw [dropRedundant, Attempt.bind_eq_ok] at h
    obtain ⟨implied, himplied, h⟩ := h
    cases implied with
    | true =>
      obtain ⟨later, hout, hlater, hneeded⟩ :=
        ih (fun d hd => hproper d ((hsplit d).mpr (.inr hd))) h
      exact ⟨later, hout, fun d hd => List.mem_cons_of_mem c (hlater d hd), hneeded⟩
    | false =>
      have hmoved : kept ++ [c] ++ rest = kept ++ c :: rest := by simp
      obtain ⟨later, hout, hlater, hneeded⟩ := ih (hmoved ▸ hproper) h
      refine ⟨c :: later, by simp [hout], ?_, ?_⟩
      · exact List.forall_mem_cons.mpr
          ⟨List.mem_cons_self, fun d hd => List.mem_cons_of_mem c (hlater d hd)⟩
      · intro before d after heq
        cases before with
        | nil =>
          obtain ⟨rfl, rfl⟩ := List.cons.inj heq
          obtain ⟨x, hx, hnot⟩ := exists_holdsRat_of_implies_false
            (fun d hd => hproper d ((hsplit d).mpr (.inr hd)))
            (hproper c ((hsplit c).mpr (.inl rfl))) himplied
          refine ⟨x, fun e he => hx e ?_, hnot⟩
          rw [List.append_nil, List.mem_append] at he
          exact List.mem_append.mpr (he.imp_right (hlater e))
        | cons first before =>
          obtain ⟨rfl, hbefore⟩ := List.cons.inj heq
          obtain ⟨x, hx, hnot⟩ := hneeded before d after hbefore
          exact ⟨x, by simpa [or_assoc] using hx, hnot⟩

/-- When redundant constraints are removed, every one that remains is needed over the rationals:
some rational point satisfies all the others and violates it. -/
theorem removeRedundancies_needed (hproper : ∀ c ∈ s.constraints, c.form.Proper)
    (h : s.removeRedundancies = .ok t) {before after : List Constraint} {c : Constraint}
    (hc : t.constraints = before ++ c :: after) :
    ∃ x : String → Rat, (∀ e ∈ before ++ after, e.HoldsRat x) ∧ ¬c.HoldsRat x := by
  unfold removeRedundancies at h
  simp only [Attempt.bind_eq_ok, Attempt.pure_eq_ok] at h
  obtain ⟨constraints, hdrop, rfl⟩ := h
  obtain ⟨later, rfl, -, hneeded⟩ := dropRedundant_needed hproper hdrop
  exact hneeded before c after hc

end Polyhedron

end LoopKernel
