import LoopKernel.Proofs.Polyhedron.Bounded
import LoopKernel.Proofs.Polyhedron.Count
import LoopKernel.Proofs.Polynomial.Evaluation

/-!
# How a sum over points comes about

A sum over the points of a polyhedron is made by steps of three kinds: a dimension is summed over,
the polyhedron is cut in two, or there is nothing to sum. What holds of all sums is shown by
induction on these steps. The sum mentions no dimension, so that without parameters it is a
constant; and where there is a point, the dimensions are distinct.
-/

namespace LoopKernel

variable {P Q : String → Prop} {name : String}

/-! ## Variables of forms -/

namespace Affine

/-- Whether a form has coefficients for variables with a property only. -/
def Over (P : String → Prop) (f : Affine) : Prop := ∀ v, ¬P v → f.coeff v = 0

variable {f g h : Affine}

theorem Over.mono (hf : f.Over P) (hPQ : ∀ v, P v → Q v) : f.Over Q :=
  fun v hv => hf v fun hp => hv (hPQ v hp)

theorem over_const {c : Int} : (const c).Over P := fun v _ => coeff_const c v

theorem over_without (hf : f.Over P) : (f.without name).Over fun v => v ≠ name ∧ P v := by
  intro v hv
  by_cases hname : v = name
  · rw [hname, coeff_without]
  · rw [coeff_without_of_ne f hname]
    exact hf v fun hp => hv ⟨hname, hp⟩

theorem over_neg (hf : f.Over P) (hg : f.neg = .ok g) : g.Over P := by
  intro v hv
  rw [coeff_neg hg, hf v hv, neg_zero]

theorem over_sub (hf : f.Over P) (hg : g.Over P) (hh : f.sub g = .ok h) : h.Over P := by
  intro v hv
  rw [coeff_sub hh, hf v hv, hg v hv, sub_zero]

/-- The polynomial of a form has its variables. -/
theorem over_toPolynomial {p : Polynomial} (hf : f.Over P) (h : f.toPolynomial = .ok p) :
    p.Over P := by
  unfold toPolynomial at h
  apply Attempt.foldlM_induction (P := fun _ (p : Polynomial) => p.Over P) Polynomial.over_ofInt _ h
  rintro _ p ⟨v, c⟩ next hmem hp hnext
  simp only [Attempt.bind_eq_ok] at hnext
  obtain ⟨scaled, hscaled, hnext⟩ := hnext
  refine Polynomial.over_add hp ?_ hnext
  by_cases hv : P v
  · exact Polynomial.over_scale (Polynomial.over_var hv) hscaled
  · have hzero := hf v hv
    rw [coeff, SortedMap.getD, SortedMap.mem_entries.mp hmem, Option.getD_some] at hzero
    rw [hzero, Int.cast_zero] at hscaled
    rw [Polynomial.eq_zero_of_scale hscaled]
    exact Polynomial.over_zero

end Affine

/-- Normalizing a constraint brings no variable in. -/
theorem Constraint.over_normalize {c d : Constraint} (hc : c.form.Over P)
    (h : c.normalize = .ok d) : d.form.Over P :=
  fun v hv => coeff_normalize (hc v hv) h

namespace Polyhedron

/-! ## Variables of polyhedra -/

/-- Whether all constraints are on variables with a property. -/
def Over (P : String → Prop) (s : Polyhedron) : Prop := ∀ c ∈ s.constraints, c.form.Over P

variable {s t context left right : Polyhedron} {bounds : DimBounds} {split : Affine}
  {rangeEnd : RangeEnd} {candidates : List Affine}

theorem Over.mono (hs : s.Over P) (hPQ : ∀ v, P v → Q v) : s.Over Q :=
  fun c hc => (hs c hc).mono hPQ

/-- The variables of constraints without stored zeros have the property. -/
theorem Over.of_mem_vars (hs : s.Over P) (hproper : ∀ c ∈ s.constraints, c.form.Proper) :
    ∀ c ∈ s.constraints, ∀ v ∈ c.form.vars, P v := by
  intro c hc v hv
  by_contra hnot
  exact (Affine.mem_vars_iff (hproper c hc)).mp hv (hs c hc v hnot)

theorem over_constrain {c : Constraint} (hs : s.Over P) (hc : c.form.Over P)
    (h : s.constrain c = .ok t) : t.Over P := by
  intro d hd
  rcases of_mem_constrain h hd with hd | hd
  · exact hs d hd
  · exact Constraint.over_normalize hc hd

/-- What remains after variables are projected out does not mention them. -/
theorem over_eliminate {names : List String} (hs : s.Over P) (h : s.eliminate names = .ok t) :
    t.Over fun v => v ∉ names ∧ P v := by
  intro c hc v hv
  refine Constraint.coeff_eliminateAll (constraints_eliminate h) ?_ c hc
  by_cases hmem : v ∈ names
  · exact .inl hmem
  · exact .inr fun d hd => hs d hd v fun hp => hv ⟨hmem, hp⟩

/-- What remains of a polyhedron over its dimensions is over those that remain. -/
theorem over_dims_eliminate {names : List String} (hs : s.Over (· ∈ s.dims))
    (h : s.eliminate names = .ok t) : t.Over (· ∈ t.dims) := by
  refine (over_eliminate hs h).mono fun v hv => ?_
  rw [dims_eliminate h, List.mem_filter, List.contains_eq_mem, Bool.not_eq_true',
    decide_eq_false_iff_not]
  exact ⟨hv.2, hv.1⟩

/-- Projecting out variables stores no zeros. -/
theorem proper_eliminate {names : List String} (hs : ∀ c ∈ s.constraints, c.form.Proper)
    (h : s.eliminate names = .ok t) : ∀ c ∈ t.constraints, c.form.Proper :=
  Constraint.proper_eliminateAll (constraints_eliminate h) hs

/-- Without parameters, a polyhedron is over its dimensions. -/
theorem over_dims (hparams : s.params = ∅) : s.Over (· ∈ s.dims) := by
  intro c hc v hv
  by_contra hne
  have hvars : v ∈ c.form.vars := by
    by_contra hnot
    exact hne (Affine.coeff_of_not_mem_vars hnot)
  have hparam : v ∈ s.params := mem_params.mpr ⟨⟨c, hc, hvars⟩, hv⟩
  rw [hparams] at hparam
  exact NameSet.not_mem_empty v hparam

theorem over_dimBounds (hs : s.Over P) (h : s.dimBounds name = .ok bounds) :
    ∀ f, f ∈ bounds.lower ∨ f ∈ bounds.upper → f.Over fun v => v ≠ name ∧ P v :=
  forms_of_dimBounds (fun _ => Affine.over_const) (fun _ _ => Affine.over_neg)
    (fun c hc => Affine.over_without (hs c hc)) h

private theorem mem_of_rival? {f g : Affine}
    (h : rival? context rangeEnd f candidates = .ok (some g)) : g ∈ candidates := by
  induction candidates with
  | nil => simp [rival?] at h
  | cons first rest ih =>
    rw [rival?, Attempt.bind_eq_ok] at h
    obtain ⟨b, -, h⟩ := h
    cases b with
    | true => exact List.mem_cons_of_mem _ (ih h)
    | false =>
      simp only [Bool.false_eq_true, if_false, Attempt.pure_eq_ok, Option.some.injEq] at h
      exact h ▸ List.mem_cons_self

/-- The variables of what decides between two bounds are those of the bounds. -/
theorem over_split (hcandidates : ∀ f ∈ candidates, f.Over P)
    (h : dominantBound candidates context rangeEnd name = .ok (.incomparable split)) :
    split.Over P := by
  have htightness : ∀ {f g : Affine}, f.Over P → g.Over P →
      tightness rangeEnd f g = .ok split → split.Over P := by
    intro f g hf hg h
    cases rangeEnd with
    | lower => exact Affine.over_sub hf hg h
    | upper => exact Affine.over_sub hg hf h
  have hmem : ∀ g, g ∈ candidates.foldl
      (fun out f => if out.contains f then out else out ++ [f]) [] → g.Over P := by
    intro g hg
    exact hcandidates g ((mem_distinct.mp hg).resolve_left List.not_mem_nil)
  unfold dominantBound at h
  split at h
  · cases h
  · simp at h
  · next first others _ hlist =>
    rw [hlist] at hmem
    simp only [Attempt.bind_eq_ok, Attempt.liftM_eq_ok] at h
    obtain ⟨found, -, h⟩ := h
    cases found with
    | some tightest => simp at h
    | none =>
      simp only [Attempt.bind_eq_ok, Attempt.liftM_eq_ok] at h
      obtain ⟨other, hother, h⟩ := h
      cases other with
      | none => cases h
      | some other =>
        simp only [Attempt.bind_eq_ok, Attempt.liftM_eq_ok, Attempt.pure_eq_ok,
          Dominance.incomparable.injEq] at h
        obtain ⟨_, hsplit, rfl⟩ := h
        exact htightness (hmem first List.mem_cons_self)
          (hmem other (List.mem_cons_of_mem _ (mem_of_rival? hother))) hsplit

/-- Both sides of a cut are over the variables of the form that it is along. -/
theorem over_cutAlong {above below : Constraint} (hsplit : split.Over P)
    (h : cutAlong split = .ok (above, below)) : above.form.Over P ∧ below.form.Over P := by
  unfold cutAlong at h
  simp only [Attempt.bind_eq_ok, Attempt.pure_eq_ok, Prod.mk.injEq] at h
  obtain ⟨_, habove, negated, hnegated, shifted, hshifted, _, hbelow, rfl, rfl⟩ := h
  exact ⟨Constraint.over_normalize hsplit habove, Constraint.over_normalize
    (Affine.over_sub (Affine.over_neg hsplit hnegated) Affine.over_const hshifted) hbelow⟩

/-! ## Steps of a sum -/

/-- How a polynomial, summed over the points for some dimensions from the innermost outwards, comes
to a total. -/
inductive Sums : (s : Polyhedron) → (count : Polynomial) → (dims : List String) →
    (total : Polynomial) → Prop
  | leaf {s : Polyhedron} {count : Polynomial} : Sums s count [] count
  | empty {s : Polyhedron} {count : Polynomial} {dims : List String}
      (h : s.isEmpty = .ok true) : Sums s count dims .zero
  | overDim {s context : Polyhedron} {count low high inner total : Polynomial} {name : String}
      {outer : List String} {bounds : DimBounds} {lower upper : Affine}
      (hbounds : s.dimBounds name = .ok bounds) (hcontext : s.eliminate [name] = .ok context)
      (hlower : dominantBound bounds.lower context .lower name = .ok (.bound lower))
      (hupper : dominantBound bounds.upper context .upper name = .ok (.bound upper))
      (hlow : lower.toPolynomial = .ok low) (hhigh : upper.toPolynomial = .ok high)
      (hinner : count.sumOver name low high = .ok inner) (h : Sums context inner outer total) :
      Sums s count (name :: outer) total
  | cut {s context left right : Polyhedron} {count l r sum total : Polynomial} {name : String}
      {outer : List String} {bounds : DimBounds} {split : Affine} {above below : Constraint}
      (hbounds : s.dimBounds name = .ok bounds)
      (hsplit : dominantBound bounds.lower context .lower name = .ok (.incomparable split) ∨
        dominantBound bounds.upper context .upper name = .ok (.incomparable split))
      (hcut : cutAlong split = .ok (above, below)) (hleft : s.constrain above = .ok left)
      (hright : s.constrain below = .ok right) (hl : Sums left count (name :: outer) l)
      (hr : Sums right count (name :: outer) r) (hsum : Polynomial.add .zero l = .ok sum)
      (htotal : sum.add r = .ok total) : Sums s count (name :: outer) total

variable {count total : Polynomial} {dims : List String} {x : String → Int}

/-- Both sides of a cut have the variables of the polyhedron. -/
private theorem over_cut {above below : Constraint} (hs : s.Over P)
    (hbounds : s.dimBounds name = .ok bounds)
    (hsplit : dominantBound bounds.lower context .lower name = .ok (.incomparable split) ∨
      dominantBound bounds.upper context .upper name = .ok (.incomparable split))
    (hcut : cutAlong split = .ok (above, below)) (hleft : s.constrain above = .ok left)
    (hright : s.constrain below = .ok right) : left.Over P ∧ right.Over P := by
  have hall := over_dimBounds hs hbounds
  have hform : split.Over P := by
    rcases hsplit with hsplit | hsplit
    · exact over_split (fun f hf => (hall f (.inl hf)).mono fun _ h => h.2) hsplit
    · exact over_split (fun f hf => (hall f (.inr hf)).mono fun _ h => h.2) hsplit
  obtain ⟨habove, hbelow⟩ := over_cutAlong hform hcut
  exact ⟨over_constrain hs habove hleft, over_constrain hs hbelow hright⟩

/-- Every point is on one side of a cut. -/
private theorem holds_or_holds {above below : Constraint} (hx : s.Holds x)
    (hcut : cutAlong split = .ok (above, below)) (hleft : s.constrain above = .ok left)
    (hright : s.constrain below = .ok right) : left.Holds x ∨ right.Holds x := by
  rw [constrain_holds hleft, constrain_holds hright, cutAlong_holds hcut, ← and_or_left]
  exact ⟨hx, Classical.em _⟩

/-- A sum mentions no dimension. -/
theorem Sums.over (h : Sums s count dims total) (hs : s.Over fun v => v ∈ dims ∨ P v)
    (hcount : count.Over fun v => v ∈ dims ∨ P v) : total.Over P := by
  induction h with
  | leaf => exact hcount.mono fun v hv => hv.resolve_left List.not_mem_nil
  | empty _ => exact Polynomial.over_zero
  | @overDim s context count low high inner total name outer bounds lower upper hbounds hcontext
      hlower hupper hlow hhigh hinner _ ih =>
    have hother : ∀ v, v ≠ name → v ∈ name :: outer ∨ P v → v ∈ outer ∨ P v := by
      intro v hne hv
      exact hv.imp_left fun hmem => (List.mem_cons.mp hmem).resolve_left hne
    have hall := over_dimBounds hs hbounds
    have hlowOver := hall lower (.inl (dominantBound_spec hlower).1)
    have hhighOver := hall upper (.inr (dominantBound_spec hupper).1)
    have hinnerOver := Polynomial.over_sumOver (hcount.mono fun v hv hne => hother v hne hv)
      (Affine.over_toPolynomial (hlowOver.mono fun v hv => hother v hv.1 hv.2) hlow)
      (Affine.over_toPolynomial (hhighOver.mono fun v hv => hother v hv.1 hv.2) hhigh) hinner
    refine ih ((over_eliminate hs hcontext).mono fun v hv => ?_) hinnerOver
    exact hother v (fun he => hv.1 (List.mem_singleton.mpr he)) hv.2
  | cut hbounds hsplit hcut hleft hright _ _ hsum htotal ihl ihr =>
    obtain ⟨hl, hr⟩ := over_cut hs hbounds hsplit hcut hleft hright
    exact Polynomial.over_add (Polynomial.over_add Polynomial.over_zero (ihl hl hcount) hsum)
      (ihr hr hcount) htotal

/-- A dimension that no constraint mentions cannot be summed over where there is a point. -/
theorem Sums.not_over (h : Sums s count dims total) (hx : s.Holds x) {v : String} (hv : v ∈ dims) :
    ¬s.Over (· ≠ v) := by
  intro hs
  induction h generalizing x with
  | leaf => cases hv
  | empty hempty => exact not_holds_of_isEmpty hempty hx
  | @overDim s context count low high inner total name outer bounds lower upper hbounds hcontext
      hlower _ _ _ _ _ ih =>
    rcases List.mem_cons.mp hv with rfl | hv
    · -- Nothing bounds the dimension.
      have hnone : (s.constraints.filter fun c => c.involves v) = [] := by
        rw [List.filter_eq_nil_iff]
        intro c hc
        exact Constraint.not_involves_iff.mpr (hs c hc v (not_not.mpr rfl))
      rw [dimBounds_eq_ok_iff, hnone, List.foldlM_nil, Attempt.pure_eq_ok] at hbounds
      obtain ⟨-, rfl⟩ := hbounds
      exact List.not_mem_nil (dominantBound_spec hlower).1
    · exact ih (eliminate_holds_of_holds hcontext hx) hv
        ((over_eliminate hs hcontext).mono fun w hw => hw.2)
  | cut hbounds hsplit hcut hleft hright _ _ _ _ ihl ihr =>
    obtain ⟨hl, hr⟩ := over_cut hs hbounds hsplit hcut hleft hright
    rcases holds_or_holds hx hcut hleft hright with hx | hx
    · exact ihl hx hv hl
    · exact ihr hx hv hr

/-- Where there is a point, only distinct dimensions can be summed over. -/
theorem Sums.nodup (h : Sums s count dims total) (hx : s.Holds x) : dims.Nodup := by
  induction h generalizing x with
  | leaf => exact List.nodup_nil
  | empty hempty => exact absurd hx (not_holds_of_isEmpty hempty)
  | overDim _ hcontext _ _ _ _ _ hsums ih =>
    have hcontextx := eliminate_holds_of_holds hcontext hx
    refine List.nodup_cons.mpr ⟨fun hname => hsums.not_over hcontextx hname ?_, ih hcontextx⟩
    intro c hc v hv
    rw [not_not.mp hv]
    exact coeff_eliminate hcontext c hc
  | cut _ _ hcut hleft hright _ _ _ _ ihl ihr =>
    rcases holds_or_holds hx hcut hleft hright with hx | hx
    · exact ihl hx
    · exact ihr hx

/-! ## Sums that succeed -/

private theorem exists_sums_onPiece {cut : Constraint}
    {sum : Polyhedron → Attempt PolyhedronError Polynomial}
    (hsum : ∀ piece total, sum piece = .ok total → Sums piece count dims total)
    (h : s.onPiece cut .zero sum = .ok total) :
    ∃ piece, s.constrain cut = .ok piece ∧ Sums piece count dims total := by
  obtain ⟨piece, hpiece, ⟨hempty, rfl⟩ | ⟨-, h⟩⟩ := onPiece_eq_ok.mp h
  · exact ⟨piece, hpiece, .empty hempty⟩
  · exact ⟨piece, hpiece, hsum piece total h⟩

/-- If the pieces come to totals step by step, then so does the polyhedron. -/
private theorem sums_of_onPiece {outer : List String} {above below : Constraint}
    {l r first : Polynomial} {sum : Polyhedron → Attempt PolyhedronError Polynomial}
    (hsum : ∀ piece total, sum piece = .ok total → Sums piece count (name :: outer) total)
    (hbounds : s.dimBounds name = .ok bounds)
    (hsplit : dominantBound bounds.lower context .lower name = .ok (.incomparable split) ∨
      dominantBound bounds.upper context .upper name = .ok (.incomparable split))
    (hcut : cutAlong split = .ok (above, below)) (hl : s.onPiece above .zero sum = .ok l)
    (hfirst : Polynomial.add .zero l = .ok first) (hr : s.onPiece below .zero sum = .ok r)
    (htotal : first.add r = .ok total) : Sums s count (name :: outer) total := by
  obtain ⟨left, hleft, hl⟩ := exists_sums_onPiece hsum hl
  obtain ⟨right, hright, hr⟩ := exists_sums_onPiece hsum hr
  exact .cut hbounds hsplit hcut hleft hright hl hr hfirst htotal

/-- A sum that succeeds comes about step by step. -/
theorem sums_of_sumOverPoints {cutsLeft : Nat}
    (h : sumOverPoints s count dims cutsLeft = .ok total) : Sums s count dims total := by
  induction dims generalizing s count total cutsLeft with
  | nil =>
    rw [sumOverPoints, Attempt.pure_eq_ok] at h
    exact h ▸ .leaf
  | cons name outer ihouter =>
    induction cutsLeft using Nat.strongRecOn generalizing s total with
    | ind cutsLeft ihcuts =>
      obtain ⟨bounds, context, lower, upper, hinnermost, ⟨least, greatest, low, high, inner, rfl,
        rfl, hlow, hhigh, hinner, h⟩ | ⟨split, fuel, hsplits, rfl, -, h⟩⟩ :=
        sumOverPoints_cons_cases h
      · exact .overDim hinnermost.bounded hinnermost.projected hinnermost.lowest hinnermost.highest
          hlow hhigh hinner (ihouter h)
      · simp only [Attempt.bind_eq_ok, Attempt.liftM_eq_ok] at h
        obtain ⟨⟨above, below⟩, hcut, l, hl, first, hfirst, r, hr, htotal⟩ := h
        have hsplit : dominantBound bounds.lower context .lower name = .ok (.incomparable split) ∨
            dominantBound bounds.upper context .upper name = .ok (.incomparable split) := by
          rcases hsplits with rfl | ⟨-, rfl⟩
          · exact .inl hinnermost.lowest
          · exact .inr hinnermost.highest
        exact sums_of_onPiece (fun _ _ h => ihcuts fuel (Nat.lt_succ_self fuel) h)
          hinnermost.bounded hsplit hcut hl hfirst hr htotal

/-! ## Counts without parameters -/

/-- Without parameters, and where there is a point, a count is the constant number of points listed
plus the values of the chambers that are not met. They are listed unless the listing overflows. -/
theorem cardinality_without_params (hs : s.Over (· ∈ s.dims))
    (hproper : ∀ c ∈ s.constraints, c.form.Proper) (hx : s.Holds x)
    (h : s.cardinality = .ok count) (hsafe : (s.enumeratePoints fun _ => none).Safe) :
    ∃ points chambers, s.enumeratePoints (fun _ => none) = .ok points ∧ s.chambers = .ok chambers ∧
      count = .constant (points.length + strayValue chambers fun _ => 0) := by
  have hvars := hs.of_mem_vars hproper
  have hsums := sums_of_sumOverPoints h
  have hnodup := hsums.nodup hx
  have hdims := List.nodup_reverse.mp hnodup
  obtain ⟨chambers, hchambers, hsummed⟩ := exists_chambers_of_sumOverPoints
    (List.reverse_reverse s.dims).symm hnodup h
  obtain ⟨all, hall, hsum⟩ := hsummed.points fun _ => 0
  have hset : s.pointsAt (fun _ => 0) = all := by
    ext y
    exact (hall y).symm
  -- Off the dimensions, the point may be taken to be zero.
  have hpoint : (s.pointsAt fun _ => 0).Nonempty := by
    refine ⟨fun v => if v ∈ s.dims then x v else 0, fun v hv => if_neg hv, fun c hc => ?_⟩
    exact (Constraint.holds_congr fun v hv => if_pos (hvars c hc v hv)).mpr (hx c hc)
  have hcauseless : (s.enumeratePoints fun _ => none).Causeless :=
    causeless_enumeratePoints hdims hproper (fun c hc v hv => .inl (hvars c hc v hv))
      (fun _ _ _ => nofun) (hset ▸ all.finite_toSet) hpoint
  obtain ⟨points, hpoints⟩ := hcauseless.exists_eq_ok hsafe
  have hlength : points.length = (s.pointsAt fun _ => 0).ncard :=
    length_enumeratePoints hdims hpoints hproper fun _ _ _ => nofun
  have hover : count.Over fun _ => False := hsums.over
    (hs.mono fun v hv => .inl (List.mem_reverse.mpr hv)) Polynomial.over_ofInt
  have hcount : ∑ y ∈ all, Polynomial.value (fun v => (y v : Rat)) (.ofInt 1) =
      (all.card : Rat) := by simp
  have hvalue := sum_add_strayValue chambers fun _ => 0
  rw [← hsum, hcount, ← hsummed.total, Int.cast_zero, ← Set.ncard_coe_finset, ← hset, ← hlength]
    at hvalue
  refine ⟨points, chambers, hpoints, hchambers, ?_⟩
  rw [hvalue]
  exact hover.eq_constant

end Polyhedron

end LoopKernel
