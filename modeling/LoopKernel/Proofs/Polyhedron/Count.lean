import LoopKernel.Polyhedron.Count
import LoopKernel.Proofs.Polyhedron.Bounds
import LoopKernel.Proofs.Polyhedron.Points
import LoopKernel.Proofs.Polynomial.Summation

/-!
# Counts and chambers

Counting cuts a polyhedron into pieces and sums each of them down to a polynomial in the parameters.
What is left of a piece then is its chamber: constraints on the parameters alone, under which the
polynomial is the number of points of the piece. A count adds up the polynomials of all chambers, so
at given parameter values it is the number of points and, on top of that, the values of the
polynomials whose chambers do not contain the parameter values.
-/

namespace LoopKernel.Polyhedron

/-! ## Dominant bounds -/

/-- Whether one value of a bound is at least as tight as another one. -/
def RangeEnd.AsTight : RangeEnd → Int → Int → Prop
  | .lower, m, n => n ≤ m
  | .upper, m, n => m ≤ n

variable {context : Polyhedron} {rangeEnd : RangeEnd} {x : String → Int}

/-- A bound that is found to be tighter is so at every point of the context. -/
theorem asTight_of_isTighter {f g : Affine} (h : isTighter context rangeEnd f g = .ok true)
    (hx : context.Holds x) : rangeEnd.AsTight (f.value x) (g.value x) := by
  unfold isTighter at h
  simp only [Attempt.bind_eq_ok] at h
  obtain ⟨difference, hdifference, c, hc, h⟩ := h
  have hnonneg := (Constraint.geZero_holds hc).mp (holds_of_implies h hx)
  cases rangeEnd with
  | lower =>
    rw [Affine.value_sub x hdifference] at hnonneg
    exact sub_nonneg.mp hnonneg
  | upper =>
    rw [Affine.value_sub x hdifference] at hnonneg
    exact sub_nonneg.mp hnonneg

private theorem tightest?_spec {all candidates : List Affine} {f : Affine}
    (h : tightest? context rangeEnd all candidates = .ok (some f)) :
    f ∈ candidates ∧ ∀ g ∈ all, isTighter context rangeEnd f g = .ok true := by
  induction candidates with
  | nil => simp [tightest?] at h
  | cons first rest ih =>
    rw [tightest?, Attempt.bind_eq_ok] at h
    obtain ⟨b, hb, h⟩ := h
    cases b with
    | true =>
      simp only [if_true, Attempt.pure_eq_ok, Option.some.injEq] at h
      subst h
      exact ⟨List.mem_cons_self, Attempt.of_allM_true hb⟩
    | false =>
      obtain ⟨hf, hall⟩ := ih h
      exact ⟨List.mem_cons_of_mem _ hf, hall⟩

/-- Dropping repetitions keeps the members of a list. -/
theorem mem_distinct {l out : List Affine} {f : Affine} :
    f ∈ l.foldl (fun out f => if out.contains f then out else out ++ [f]) out ↔
      f ∈ out ∨ f ∈ l := by
  induction l generalizing out with
  | nil => simp
  | cons g rest ih =>
    rw [List.foldl_cons, ih]
    split
    · next hg =>
      rw [List.contains_eq_mem, decide_eq_true_eq] at hg
      simp only [List.mem_cons]
      constructor
      · exact Or.imp_right .inr
      · rintro (h | rfl | h)
        · exact .inl h
        · exact .inl hg
        · exact .inr h
    · simp only [List.mem_append, List.mem_cons, List.not_mem_nil, false_or, or_assoc]

/-- A dominant bound is one of the bounds, and the tightest at every point of the context. -/
theorem dominantBound_spec {candidates : List Affine} {name : String} {f : Affine}
    (h : dominantBound candidates context rangeEnd name = .ok (.bound f)) :
    f ∈ candidates ∧ ∀ g ∈ candidates, ∀ x, context.Holds x →
      rangeEnd.AsTight (f.value x) (g.value x) := by
  unfold dominantBound at h
  have hmem : ∀ g, g ∈ candidates.foldl
      (fun out f => if out.contains f then out else out ++ [f]) [] ↔ g ∈ candidates := by
    intro g
    rw [mem_distinct]
    simp
  split at h
  · cases h
  · next only honly =>
    rw [Attempt.pure_eq_ok, Dominance.bound.injEq] at h
    subst h
    rw [honly] at hmem
    simp only [List.mem_singleton] at hmem
    refine ⟨(hmem only).mp rfl, fun g hg x _ => ?_⟩
    rw [← (hmem g).mpr hg]
    cases rangeEnd <;> exact le_rfl
  · next first others _ hlist =>
    rw [hlist] at hmem
    simp only [Attempt.bind_eq_ok, Attempt.liftM_eq_ok] at h
    obtain ⟨found, hfound, h⟩ := h
    cases found with
    | none =>
      simp only [Attempt.bind_eq_ok, Attempt.liftM_eq_ok] at h
      obtain ⟨other, -, h⟩ := h
      cases other with
      | none => cases h
      | some other =>
        simp only [Attempt.bind_eq_ok, Attempt.pure_eq_ok] at h
        obtain ⟨_, _, h⟩ := h
        cases h
    | some tightest =>
      simp only [Attempt.pure_eq_ok, Dominance.bound.injEq] at h
      subst h
      obtain ⟨hf, hall⟩ := tightest?_spec hfound
      refine ⟨(hmem _).mp hf, fun g hg x hx => ?_⟩
      exact asTight_of_isTighter (hall g ((hmem g).mpr hg)) hx

/-! ## One dimension -/

section Fiber

variable {s context : Polyhedron} {name : String} {bounds : DimBounds} {lower upper : Affine}
  (hbounds : s.dimBounds name = .ok bounds)
  (hcontext : s.eliminate [name] = .ok context)
  (hlower : dominantBound bounds.lower context .lower name = .ok (.bound lower))
  (hupper : dominantBound bounds.upper context .upper name = .ok (.bound upper))

include hbounds hcontext hlower hupper

/-- Over a point of the context, the range between the dominant bounds does not end before the
integer in front of it. -/
theorem lower_le_upper (hx : context.Holds x) : lower.value x ≤ upper.value x + 1 := by
  obtain ⟨t, ht⟩ := (eliminate_holds hcontext).mp hx
  have hrounds := (dimBounds_describes hbounds).rounds x t
    fun c hc => ht c (List.mem_filter.mp hc).1
  have hlow := hrounds.1 lower (dominantBound_spec hlower).1
  have hhigh := hrounds.2 upper (dominantBound_spec hupper).1
  have := Int.ceil_le_floor_add_one t
  omega

/-- The points over a point of the context are those with a value between the dominant bounds. -/
theorem holds_update_iff (hx : context.Holds x) (n : Int) :
    s.Holds (Function.update x name n) ↔ lower.value x ≤ n ∧ n ≤ upper.value x := by
  have hexact := (dimBounds_describes hbounds).exact x n
  have htight : (∀ l ∈ bounds.lower, l.value x ≤ n) ∧ (∀ u ∈ bounds.upper, n ≤ u.value x) ↔
      lower.value x ≤ n ∧ n ≤ upper.value x := by
    obtain ⟨hl, hltight⟩ := dominantBound_spec hlower
    obtain ⟨hu, hutight⟩ := dominantBound_spec hupper
    constructor
    · exact fun h => ⟨h.1 lower hl, h.2 upper hu⟩
    · rintro ⟨hlow, hhigh⟩
      exact ⟨fun l hm => le_trans (hltight l hm x hx) hlow,
        fun u hm => le_trans hhigh (hutight u hm x hx)⟩
  rw [← htight, ← hexact]
  constructor
  · intro h c hc
    exact Constraint.holdsAt_intCast n |>.mpr (h c (List.mem_filter.mp hc).1)
  · intro h c hc
    by_cases hinvolves : c.involves name = true
    · exact (Constraint.holdsAt_intCast n).mp (h c (List.mem_filter.mpr ⟨hc, hinvolves⟩))
    · have hzero := Constraint.not_involves_iff.mp hinvolves
      obtain ⟨t, ht⟩ := (eliminate_holds hcontext).mp hx
      rw [Constraint.holds_update hzero]
      exact (Constraint.holdsAt_of_coeff_zero hzero t).mp (ht c hc)

omit hbounds hlower hupper in
/-- The points lie over the points of the context. -/
theorem context_holds_update (n : Int) (hx : s.Holds x) :
    context.Holds (Function.update x name n) := by
  have hhere := eliminate_holds_of_holds hcontext hx
  intro c hc
  rw [Constraint.holds_update (coeff_eliminate hcontext c hc)]
  exact hhere c hc

open Classical in
/-- The points, as those over each point of the context. -/
theorem mem_fibers_iff {env : String → Int} {outside : Finset (String → Int)}
    (hname : name ∈ s.dims) (houtside : ∀ q, q ∈ outside ↔ q ∈ context.pointsAt env) :
    x ∈ outside.biUnion (fun q => (Finset.Icc (lower.value q) (upper.value q)).image
      (Function.update q name)) ↔ x ∈ s.pointsAt env := by
  have hdims := dims_eliminate hcontext
  have hmem : ∀ v, v ∈ context.dims ↔ v ∈ s.dims ∧ v ≠ name := by
    intro v
    simp [hdims]
  simp only [Finset.mem_biUnion, Finset.mem_image, Finset.mem_Icc, houtside]
  constructor
  · rintro ⟨q, ⟨hoff, hq⟩, n, hn, rfl⟩
    refine ⟨fun v hv => ?_, (holds_update_iff hbounds hcontext hlower hupper hq n).mpr hn⟩
    have hne : v ≠ name := by
      rintro rfl
      exact hv hname
    rw [Function.update_of_ne hne]
    exact hoff v fun hc => hv ((hmem v).mp hc).1
  · rintro ⟨hoff, hx⟩
    have hq := context_holds_update hcontext (env name) hx
    have hback : Function.update (Function.update x name (env name)) name (x name) = x := by
      rw [Function.update_idem, Function.update_eq_self]
    refine ⟨Function.update x name (env name), ⟨fun v hv => ?_, hq⟩, x name, ?_, hback⟩
    · by_cases hne : v = name
      · rw [hne, Function.update_self]
      · rw [Function.update_of_ne hne]
        exact hoff v fun hv' => hv ((hmem v).mpr ⟨hv', hne⟩)
    · rw [← holds_update_iff hbounds hcontext hlower hupper hq, hback]
      exact hx

omit hbounds hcontext hlower hupper in
open Classical in
/-- The sum over all points is the sum, over the points of the context, of sums over a range. -/
theorem sum_fibers {env : String → Int} {outside : Finset (String → Int)}
    (houtside : ∀ q ∈ outside, q name = env name) (f : (String → Int) → Rat) :
    ∑ y ∈ outside.biUnion (fun q => (Finset.Icc (lower.value q) (upper.value q)).image
      (Function.update q name)), f y =
    ∑ q ∈ outside, ∑ n ∈ Finset.Icc (lower.value q) (upper.value q),
      f (Function.update q name n) := by
  rw [Finset.sum_biUnion]
  · apply Finset.sum_congr rfl
    intro q _
    apply Finset.sum_image
    intro m _ n _ hmn
    have hvalue := congrFun hmn name
    rwa [Function.update_self, Function.update_self] at hvalue
  · intro q hq r hr hne
    rw [Function.onFun, Finset.disjoint_left]
    intro y hy hy'
    obtain ⟨m, -, rfl⟩ := Finset.mem_image.mp hy
    obtain ⟨n, -, hmn⟩ := Finset.mem_image.mp hy'
    apply hne
    funext v
    by_cases hv : v = name
    · rw [hv, houtside q hq, houtside r hr]
    · have hvalue := congrFun hmn v
      rw [Function.update_of_ne hv, Function.update_of_ne hv] at hvalue
      exact hvalue.symm

end Fiber

/-! ## Cuts -/

/-- A point is on one side of a cut exactly if it is not on the other. -/
theorem cutAlong_holds {split : Affine} {above below : Constraint}
    (h : cutAlong split = .ok (above, below)) : below.Holds x ↔ ¬above.Holds x := by
  unfold cutAlong at h
  simp only [Attempt.bind_eq_ok, Attempt.pure_eq_ok, Prod.mk.injEq] at h
  obtain ⟨_, habove, negated, hnegated, shifted, hshifted, _, hbelow, rfl, rfl⟩ := h
  rw [Constraint.geZero_holds habove, Constraint.geZero_holds hbelow, Affine.value_sub x hshifted,
    Affine.value_neg x hnegated, Affine.value_const]
  omega

/-- What an action on a piece gives: its own result, or the one for an empty piece. -/
theorem onPiece_eq_ok {α : Type} {s : Polyhedron} {cut : Constraint} {none r : α}
    {action : Polyhedron → Attempt PolyhedronError α} :
    s.onPiece cut none action = .ok r ↔ ∃ piece, s.constrain cut = .ok piece ∧
      (piece.isEmpty = .ok true ∧ none = r ∨ piece.isEmpty = .ok false ∧ action piece = .ok r) := by
  unfold onPiece
  simp only [Attempt.bind_eq_ok, Attempt.liftM_eq_ok]
  apply exists_congr
  intro piece
  apply and_congr_right
  intro _
  constructor
  · rintro ⟨b, hb, h⟩
    cases b with
    | true => exact .inl ⟨hb, Attempt.pure_eq_ok.mp h⟩
    | false => exact .inr ⟨hb, h⟩
  · rintro (⟨hb, h⟩ | ⟨hb, h⟩)
    · exact ⟨true, hb, Attempt.pure_eq_ok.mpr h⟩
    · exact ⟨false, hb, h⟩

/-- The points on the two sides of a cut. -/
theorem pointsAt_constrain {s piece : Polyhedron} {cut : Constraint} {env : String → Int}
    (h : s.constrain cut = .ok piece) :
    x ∈ piece.pointsAt env ↔ x ∈ s.pointsAt env ∧ cut.Holds x := by
  unfold pointsAt
  rw [Set.mem_ofPred_eq, Set.mem_ofPred_eq, constrain_holds h, dims_constrain h, and_assoc]

/-! ## One dimension -/

/-- What summing over a dimension starts from: its bounds, the polyhedron without it, and whether
one bound is dominant at each of its ends. -/
structure Innermost (s : Polyhedron) (name : String) (bounds : DimBounds) (context : Polyhedron)
    (lower upper : Dominance) : Prop where
  bounded : s.dimBounds name = .ok bounds
  projected : s.eliminate [name] = .ok context
  lowest : dominantBound bounds.lower context .lower name = .ok lower
  highest : dominantBound bounds.upper context .upper name = .ok upper

/-- Whether a dimension is cut along a form. The lower end is looked at first. -/
def Dominance.Splits (lower upper : Dominance) (split : Affine) : Prop :=
  lower = .incomparable split ∨ (∃ form, lower = .bound form) ∧ upper = .incomparable split

/-- A sum over the points is one between the dominant bounds of a dimension, or one over the two
sides of a cut that mentions an outer dimension. -/
theorem sumOverPoints_cons_cases {s : Polyhedron} {count total : Polynomial} {name : String}
    {outer : List String} {cutsLeft : Nat}
    (h : sumOverPoints s count (name :: outer) cutsLeft = .ok total) :
    ∃ bounds context lower upper, Innermost s name bounds context lower upper ∧
      ((∃ least greatest low high inner, lower = .bound least ∧ upper = .bound greatest ∧
          least.toPolynomial = .ok low ∧ greatest.toPolynomial = .ok high ∧
          count.sumOver name low high = .ok inner ∧
          sumOverPoints context inner outer cutsLeft = .ok total) ∨
        ∃ split fuel, lower.Splits upper split ∧ cutsLeft = fuel + 1 ∧
          ¬(outer.all fun d => split.coeff d == 0) = true ∧ (do
            let (above, below) ← cutAlong split
            let part (cut : Constraint) :=
              s.onPiece cut .zero fun piece => sumOverPoints piece count (name :: outer) fuel
            let first ← Polynomial.add .zero (← part above)
            first.add (← part below) : Attempt PolyhedronError Polynomial) = .ok total) := by
  rw [sumOverPoints] at h
  simp only [Attempt.bind_eq_ok, Attempt.liftM_eq_ok] at h
  obtain ⟨bounds, hbounds, context, hcontext, lower, hlower, upper, hupper, h⟩ := h
  refine ⟨bounds, context, lower, upper, ⟨hbounds, hcontext, hlower, hupper⟩, ?_⟩
  split at h
  · next least greatest =>
    simp only [Attempt.bind_eq_ok, Attempt.liftM_eq_ok] at h
    obtain ⟨low, hlow, high, hhigh, inner, hinner, h⟩ := h
    exact .inl ⟨least, greatest, low, high, inner, rfl, rfl, hlow, hhigh, hinner, h⟩
  · next split fuel =>
    split at h
    · cases h
    · next hinvolves => exact .inr ⟨split, fuel, .inl rfl, rfl, hinvolves, h⟩
  · next split fuel hno =>
    split at h
    · cases h
    · next hinvolves =>
      refine .inr ⟨split, fuel, .inr ⟨?_, rfl⟩, rfl, hinvolves, h⟩
      cases lower with
      | incomparable other => exact (hno other rfl).elim
      | bound form => exact ⟨form, rfl⟩
  · cases h

/-! ## Chambers -/

/-- What is left of each piece once all its dimensions are summed, and the polynomial that they sum
to. Follows the summation of a polynomial over the points step by step. -/
def chambersOf (s : Polyhedron) (count : Polynomial) :
    (dims : List String) → (cutsLeft : Nat) →
      Attempt PolyhedronError (List (Polyhedron × Polynomial))
  | [], _ => pure [(s, count)]
  | name :: outer, cutsLeft => do
    let bounds ← s.dimBounds name
    let context ← s.eliminate [name]
    let lower ← dominantBound bounds.lower context .lower name
    let upper ← dominantBound bounds.upper context .upper name
    match lower, upper, cutsLeft with
    | .bound lower, .bound upper, cutsLeft =>
      let count ← count.sumOver name (← lower.toPolynomial) (← upper.toPolynomial)
      chambersOf context count outer cutsLeft
    | .incomparable split, _, cutsLeft + 1 | _, .incomparable split, cutsLeft + 1 =>
      if outer.all fun d => split.coeff d == 0 then .fail (.notCountable name)
      else do
        let (above, below) ← cutAlong split
        let part (cut : Constraint) :=
          s.onPiece cut [] fun piece => chambersOf piece count (name :: outer) cutsLeft
        pure ((← part above) ++ (← part below))
    | _, _, 0 => .fail (.notCountable name)
termination_by dims cutsLeft => (dims.length, cutsLeft)

section Course

variable {s context : Polyhedron} {count : Polynomial} {name : String} {outer : List String}
  {bounds : DimBounds} {chambers : List (Polyhedron × Polynomial)}

/-- The chambers of a sum between dominant bounds are those of the sum over the outer dimensions. -/
private theorem chambersOf_of_bounds {least greatest : Affine} {low high inner : Polynomial}
    {cutsLeft : Nat}
    (hinnermost : Innermost s name bounds context (.bound least) (.bound greatest))
    (hlow : least.toPolynomial = .ok low) (hhigh : greatest.toPolynomial = .ok high)
    (hinner : count.sumOver name low high = .ok inner)
    (h : chambersOf context inner outer cutsLeft = .ok chambers) :
    chambersOf s count (name :: outer) cutsLeft = .ok chambers := by
  obtain ⟨hbounds, hcontext, hlower, hupper⟩ := hinnermost
  rw [chambersOf]
  simp only [Attempt.bind_eq_ok, Attempt.liftM_eq_ok]
  refine ⟨bounds, hbounds, context, hcontext, _, hlower, _, hupper, ?_⟩
  simp only [Attempt.bind_eq_ok, Attempt.liftM_eq_ok]
  exact ⟨low, hlow, high, hhigh, inner, hinner, h⟩

/-- The chambers of a sum that is cut are those of the two sides. -/
private theorem chambersOf_of_splits {lower upper : Dominance} {split : Affine} {fuel : Nat}
    (hinnermost : Innermost s name bounds context lower upper) (hsplits : lower.Splits upper split)
    (hinvolves : ¬(outer.all fun d => split.coeff d == 0) = true)
    (h : (do
      let (above, below) ← cutAlong split
      let part (cut : Constraint) :=
        s.onPiece cut [] fun piece => chambersOf piece count (name :: outer) fuel
      pure ((← part above) ++ (← part below)) :
        Attempt PolyhedronError (List (Polyhedron × Polynomial))) = .ok chambers) :
    chambersOf s count (name :: outer) (fuel + 1) = .ok chambers := by
  obtain ⟨hbounds, hcontext, hlower, hupper⟩ := hinnermost
  rw [chambersOf]
  simp only [Attempt.bind_eq_ok, Attempt.liftM_eq_ok]
  refine ⟨bounds, hbounds, context, hcontext, _, hlower, _, hupper, ?_⟩
  rcases hsplits with rfl | ⟨⟨form, rfl⟩, rfl⟩
  · simp only
    rw [if_neg hinvolves]
    exact h
  · simp only
    rw [if_neg hinvolves]
    exact h

end Course

/-- The chambers of the count of the points, with the polynomials that it adds up. -/
def chambers (s : Polyhedron) : Attempt PolyhedronError (List (Polyhedron × Polynomial)) :=
  chambersOf s (.ofInt 1) s.dims.reverse maxCuts

/-- What a sum over the points and its chambers have to do with each other. The polynomial is the
total of those of all chambers, whereas the sum over the points for given parameter values is that
of the chambers that contain these values. -/
structure Summed (s : Polyhedron) (count total : Polynomial)
    (chambers : List (Polyhedron × Polynomial)) : Prop where
  total : ∀ env : String → Rat, total.value env = (chambers.map fun c => c.2.value env).sum
  points : ∀ env : String → Int, ∃ points : Finset (String → Int),
    (∀ x, x ∈ points ↔ x ∈ s.pointsAt env) ∧
      ∑ x ∈ points, count.value (fun v => x v) =
        (chambers.map fun c => if c.1.Holds env then c.2.value fun v => env v else 0).sum

namespace Summed

variable {s : Polyhedron} {count total : Polynomial} {chambers : List (Polyhedron × Polynomial)}

/-- Without dimensions, there is a single chamber. -/
theorem leaf (hdims : s.dims = []) : Summed s count count [(s, count)] := by
  refine ⟨fun env => by simp, fun env => ?_⟩
  have hmem : ∀ x, x ∈ s.pointsAt env ↔ x = env ∧ s.Holds env := by
    intro x
    have hagree : (∀ v, v ∉ s.dims → x v = env v) ↔ x = env := by
      simp [hdims, funext_iff]
    rw [pointsAt, Set.mem_ofPred_eq, hagree]
    exact and_congr_right fun h => by rw [h]
  by_cases hs : s.Holds env
  · refine ⟨{env}, fun x => ?_, by simp [hs]⟩
    rw [hmem, Finset.mem_singleton, and_iff_left hs]
  · refine ⟨∅, fun x => ?_, by simp [hs]⟩
    rw [hmem]
    simp [hs]

/-- A polyhedron that is found to be empty has no chambers. -/
theorem empty (h : s.isEmpty = .ok true) : Summed s count .zero [] := by
  refine ⟨fun env => by simp, fun env => ⟨∅, fun x => ?_, by simp⟩⟩
  simp only [Finset.notMem_empty, false_iff]
  exact fun hx => not_holds_of_isEmpty h hx.2

/-- Summing over one dimension. -/
theorem overDim {context : Polyhedron} {name : String} {outer : List String} {bounds : DimBounds}
    {lower upper : Affine} {low high inner : Polynomial} (hdims : s.dims = (name :: outer).reverse)
    (hbounds : s.dimBounds name = .ok bounds) (hcontext : s.eliminate [name] = .ok context)
    (hlower : dominantBound bounds.lower context .lower name = .ok (.bound lower))
    (hupper : dominantBound bounds.upper context .upper name = .ok (.bound upper))
    (hlow : lower.toPolynomial = .ok low) (hhigh : upper.toPolynomial = .ok high)
    (hinner : count.sumOver name low high = .ok inner)
    (h : Summed context inner total chambers) : Summed s count total chambers := by
  classical
  refine ⟨h.total, fun env => ?_⟩
  obtain ⟨outside, houtside, hsum⟩ := h.points env
  have hname : name ∈ s.dims := by simp [hdims]
  have hgone : name ∉ context.dims := by simp [dims_eliminate hcontext]
  refine ⟨_, fun x => mem_fibers_iff hbounds hcontext hlower hupper hname houtside, ?_⟩
  rw [sum_fibers fun q hq => ((houtside q).mp hq).1 name hgone, ← hsum]
  apply Finset.sum_congr rfl
  intro q hq
  have hrange := lower_le_upper hbounds hcontext hlower hupper ((houtside q).mp hq).2
  rw [Polynomial.value_sumOver _ (Affine.value_toPolynomial q hlow)
    (Affine.value_toPolynomial q hhigh) hrange hinner]
  apply Finset.sum_congr rfl
  intro n _
  congr 1
  funext v
  by_cases hv : v = name
  · rw [hv, Function.update_self, Function.update_self]
  · rw [Function.update_of_ne hv, Function.update_of_ne hv]

/-- Cutting in two. -/
theorem cut {left right : Polyhedron} {above below : Constraint} {l r : Polynomial}
    {lefts rights : List (Polyhedron × Polynomial)} {sum : Polynomial}
    (hcut : ∀ x, below.Holds x ↔ ¬above.Holds x) (hleft : s.constrain above = .ok left)
    (hright : s.constrain below = .ok right) (hl : Summed left count l lefts)
    (hr : Summed right count r rights) (hsum : Polynomial.add .zero l = .ok sum)
    (htotal : sum.add r = .ok total) : Summed s count total (lefts ++ rights) := by
  classical
  refine ⟨fun env => ?_, fun env => ?_⟩
  · rw [Polynomial.value_add env htotal, Polynomial.value_add env hsum, Polynomial.value_zero,
      zero_add, hl.total, hr.total, List.map_append, List.sum_append]
  · obtain ⟨P, hP, hPsum⟩ := hl.points env
    obtain ⟨Q, hQ, hQsum⟩ := hr.points env
    have hdisjoint : Disjoint P Q := by
      rw [Finset.disjoint_left]
      intro x hx hx'
      rw [hP, pointsAt_constrain hleft] at hx
      rw [hQ, pointsAt_constrain hright, hcut] at hx'
      exact hx'.2 hx.2
    refine ⟨P ∪ Q, fun x => ?_, ?_⟩
    · rw [Finset.mem_union, hP, hQ, pointsAt_constrain hleft, pointsAt_constrain hright, hcut,
        ← and_or_left, and_iff_left (Classical.em _)]
    · rw [Finset.sum_union hdisjoint, hPsum, hQsum, List.map_append, List.sum_append]

end Summed

section Existence

variable {s : Polyhedron} {count total : Polynomial}

/-- If the pieces of a polyhedron have chambers, then so has what remains of one. -/
private theorem exists_chambers_onPiece {cut : Constraint}
    {sum : Polyhedron → Attempt PolyhedronError Polynomial}
    {parts : Polyhedron → Attempt PolyhedronError (List (Polyhedron × Polynomial))}
    (hsum : ∀ piece total, piece.dims = s.dims → sum piece = .ok total →
      ∃ chambers, parts piece = .ok chambers ∧ Summed piece count total chambers)
    (h : s.onPiece cut .zero sum = .ok total) :
    ∃ piece chambers, s.constrain cut = .ok piece ∧ s.onPiece cut [] parts = .ok chambers ∧
      Summed piece count total chambers := by
  obtain ⟨piece, hpiece, ⟨hempty, rfl⟩ | ⟨hsome, h⟩⟩ := onPiece_eq_ok.mp h
  · exact ⟨piece, [], hpiece, onPiece_eq_ok.mpr ⟨piece, hpiece, .inl ⟨hempty, rfl⟩⟩,
      Summed.empty hempty⟩
  · obtain ⟨chambers, hchambers, hsummed⟩ := hsum piece total (dims_constrain hpiece) h
    exact ⟨piece, chambers, hpiece, onPiece_eq_ok.mpr ⟨piece, hpiece, .inr ⟨hsome, hchambers⟩⟩,
      hsummed⟩

/-- If the pieces of a polyhedron have chambers, then so has a cut of it. -/
private theorem exists_chambers_cut {split : Affine}
    {sum : Polyhedron → Attempt PolyhedronError Polynomial}
    {parts : Polyhedron → Attempt PolyhedronError (List (Polyhedron × Polynomial))}
    (hsum : ∀ piece total, piece.dims = s.dims → sum piece = .ok total →
      ∃ chambers, parts piece = .ok chambers ∧ Summed piece count total chambers)
    (h : (do
      let (above, below) ← cutAlong split
      let first ← Polynomial.add .zero (← s.onPiece above .zero sum)
      first.add (← s.onPiece below .zero sum) : Attempt PolyhedronError Polynomial) = .ok total) :
    ∃ chambers, (do
      let (above, below) ← cutAlong split
      pure ((← s.onPiece above [] parts) ++ (← s.onPiece below [] parts)) :
        Attempt PolyhedronError (List (Polyhedron × Polynomial))) = .ok chambers ∧
      Summed s count total chambers := by
  simp only [Attempt.bind_eq_ok, Attempt.liftM_eq_ok, Attempt.pure_eq_ok] at h ⊢
  obtain ⟨⟨above, below⟩, hcut, l, hl, first, hfirst, r, hr, htotal⟩ := h
  obtain ⟨left, lefts, hleft, hlefts, hl⟩ := exists_chambers_onPiece hsum hl
  obtain ⟨right, rights, hright, hrights, hr⟩ := exists_chambers_onPiece hsum hr
  exact ⟨lefts ++ rights, ⟨(above, below), hcut, lefts, hlefts, rights, hrights, rfl⟩,
    Summed.cut (fun _ => cutAlong_holds hcut) hleft hright hl hr hfirst htotal⟩

/-- Eliminating the innermost dimension leaves the outer ones. -/
private theorem dims_eliminate_innermost {context : Polyhedron} {name : String}
    {outer : List String} (hdims : s.dims = (name :: outer).reverse) (hname : name ∉ outer)
    (hcontext : s.eliminate [name] = .ok context) : context.dims = outer.reverse := by
  rw [dims_eliminate hcontext, hdims, List.reverse_cons, List.filter_append]
  have hself : [name].filter (fun d => !List.contains [name] d) = [] := by simp
  rw [hself, List.append_nil]
  apply List.filter_eq_self.mpr
  intro d hd
  have hne : d ≠ name := fun he => hname (he ▸ List.mem_reverse.mp hd)
  simp [hne]

/-- A sum over the points has chambers, and is their total. -/
theorem exists_chambers_of_sumOverPoints {dims : List String} {cutsLeft : Nat}
    (hdims : s.dims = dims.reverse) (hnodup : dims.Nodup)
    (h : sumOverPoints s count dims cutsLeft = .ok total) :
    ∃ chambers, chambersOf s count dims cutsLeft = .ok chambers ∧
      Summed s count total chambers := by
  induction dims generalizing s count total cutsLeft with
  | nil =>
    rw [sumOverPoints, Attempt.pure_eq_ok] at h
    subst h
    exact ⟨[(s, count)], by rw [chambersOf]; rfl, Summed.leaf hdims⟩
  | cons name outer ihouter =>
    obtain ⟨hname, houter⟩ := List.nodup_cons.mp hnodup
    induction cutsLeft using Nat.strongRecOn generalizing s total with
    | ind cutsLeft ihcuts =>
      obtain ⟨bounds, context, lower, upper, hinnermost, ⟨least, greatest, low, high, inner, rfl,
        rfl, hlow, hhigh, hinner, h⟩ | ⟨split, fuel, hsplits, rfl, hinvolves, h⟩⟩ :=
        sumOverPoints_cons_cases h
      · obtain ⟨chambers, hchambers, hsummed⟩ :=
          ihouter (dims_eliminate_innermost hdims hname hinnermost.projected) houter h
        exact ⟨chambers, chambersOf_of_bounds hinnermost hlow hhigh hinner hchambers,
          Summed.overDim hdims hinnermost.bounded hinnermost.projected hinnermost.lowest
            hinnermost.highest hlow hhigh hinner hsummed⟩
      · obtain ⟨chambers, hchambers, hsummed⟩ := exists_chambers_cut (fun piece total hpiece h =>
          ihcuts fuel (Nat.lt_succ_self fuel) (hpiece.trans hdims) h) h
        exact ⟨chambers, chambersOf_of_splits hinnermost hsplits hinvolves hchambers, hsummed⟩

end Existence

/-! ## Counts -/

/-- The values that the chambers which do not contain given parameter values have there. -/
def strayValue (chambers : List (Polyhedron × Polynomial)) (env : String → Int) : Rat :=
  ((chambers.filter fun c => !decide (c.1.Holds env)).map fun c => c.2.value fun v => env v).sum

/-- The chambers that contain given parameter values, and those that do not, are all chambers. -/
theorem sum_add_strayValue (chambers : List (Polyhedron × Polynomial)) (env : String → Int) :
    (chambers.map fun c => if c.1.Holds env then c.2.value fun v => env v else 0).sum +
      strayValue chambers env = (chambers.map fun c => c.2.value fun v => env v).sum := by
  unfold strayValue
  induction chambers with
  | nil => simp
  | cons c rest ih =>
    rw [List.map_cons, List.map_cons, List.sum_cons, List.sum_cons, ← ih]
    by_cases hc : c.1.Holds env
    · rw [List.filter_cons_of_neg (by simpa using hc), if_pos hc]
      ring
    · rw [List.filter_cons_of_pos (by simpa using hc), if_neg hc, List.map_cons, List.sum_cons]
      ring

/-- For all parameter values, a count has the value of the number of points plus the values of the
chambers that do not contain the parameter values. It is the number of points exactly where the
latter cancel out. -/
theorem eval_cardinality {s : Polyhedron} {p : Polynomial} (hdims : s.dims.Nodup)
    (hproper : ∀ c ∈ s.constraints, c.form.Proper) (h : s.cardinality = .ok p) :
    ∃ chambers, s.chambers = .ok chambers ∧ ∀ (env : String → Int) (given : String → Option Int),
      (∀ v n, given v = some n → env v = n) →
        (s.pointsAt env).Finite ∧
        (∀ r, p.eval given = .ok r → r = (s.pointsAt env).ncard + strayValue chambers env) ∧
        ∀ points, s.enumeratePoints given = .ok points →
          points.length = (s.pointsAt env).ncard := by
  obtain ⟨chambers, hchambers, hsummed⟩ := exists_chambers_of_sumOverPoints
    (List.reverse_reverse s.dims).symm (List.nodup_reverse.mpr hdims) h
  refine ⟨chambers, hchambers, fun env given hgiven => ?_⟩
  obtain ⟨points, hpoints, hsum⟩ := hsummed.points env
  have hset : s.pointsAt env = points := by
    ext x
    exact (hpoints x).symm
  refine ⟨hset ▸ points.finite_toSet, fun r hr => ?_, fun listed hlisted => ?_⟩
  · have hgiven' : ∀ v n, given v = some n → (env v : Rat) = n :=
      fun v n hn => by rw [hgiven v n hn]
    have hvalue := Polynomial.eval_eq_ok (fun v => (env v : Rat)) hgiven' hr
    have hcount : ∑ x ∈ points, Polynomial.value (fun v => (x v : Rat)) (.ofInt 1) =
        (points.card : Rat) := by simp
    rw [hvalue, hsummed.total, ← sum_add_strayValue, ← hsum, hcount, hset, Set.ncard_coe_finset]
  · exact length_enumeratePoints hdims hlisted hproper fun v n _ hn => hgiven v n hn

/-- The integers `j` with `0 ≤ j ≤ m + i` and `j ≤ n`, for `i = 0`. The bounds of `j` are cut along
`m + i - n`, which involves the outer dimension `i` but separates values of the parameters. -/
def cutOnFixedDim : Polyhedron where
  dims := ["i", "j"]
  constraints := [
    ⟨.equality, ⟨.ofList [("i", 1)], 0⟩⟩,
    ⟨.inequality, ⟨.ofList [("j", 1)], 0⟩⟩,
    ⟨.inequality, ⟨.ofList [("i", 1), ("j", -1), ("m", 1)], 0⟩⟩,
    ⟨.inequality, ⟨.ofList [("j", -1), ("n", 1)], 0⟩⟩]

/-- One, for the parameters of this polyhedron. -/
def unitParams (v : String) : Option Int := if v = "m" ∨ v = "n" then some 1 else none

/-- There are two such integers for `m = n = 1`, whereas the count evaluates to four. -/
theorem eval_cardinality_cutOnFixedDim :
    ∃ p chambers, cutOnFixedDim.cardinality = .ok p ∧ cutOnFixedDim.chambers = .ok chambers ∧
      p.eval unitParams = .ok 4 ∧
      (4 : Rat) = (cutOnFixedDim.pointsAt fun _ => 1).ncard + strayValue chambers (fun _ => 1) ∧
      (cutOnFixedDim.pointsAt fun _ => 1).ncard = 2 := by
  obtain ⟨p, hp, heval⟩ : ∃ p, cutOnFixedDim.cardinality = .ok p ∧ p.eval unitParams = .ok 4 :=
    ⟨_, by cbv, by cbv⟩
  obtain ⟨points, hpoints, hlength⟩ : ∃ points, cutOnFixedDim.enumeratePoints unitParams =
      .ok points ∧ points.length = 2 := ⟨_, by cbv, by cbv⟩
  have hgiven : ∀ v n, unitParams v = some n → (1 : Int) = n := by
    intro v n hn
    unfold unitParams at hn
    split at hn
    · exact Option.some.inj hn
    · cases hn
  obtain ⟨chambers, hchambers, hcount⟩ := eval_cardinality (by decide) (by decide) hp
  obtain ⟨-, hvalue, hlisted⟩ := hcount (fun _ => 1) unitParams hgiven
  exact ⟨p, chambers, hp, hchambers, heval, hvalue 4 heval, (hlisted points hpoints) ▸ hlength⟩

end LoopKernel.Polyhedron
