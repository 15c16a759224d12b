import LoopKernel.Polyhedron.Points
import LoopKernel.Proofs.Polyhedron.Basic
import Mathlib.Data.Set.Card

/-!
# Listing points is exact

The points listed for given parameter values are the points of the polyhedron, each of them once and
in lexicographic order. The range of a dimension leaves out no point, and what is no point is
dropped at the end.
-/

namespace LoopKernel

namespace Point

/-- An assignment that has the values of a point, and zero elsewhere. -/
def assignment (p : Point) (v : String) : Int := p.getD v 0

/-- The values of a point for several names, in their order. -/
def coordinates (p : Point) (names : List String) : List Int := names.map p.assignment

/-- A point with the values of an assignment for several more names. -/
def extend (p : Point) (x : String → Int) (names : List String) : Point :=
  names.foldl (fun p name => p.insert name (x name)) p

/-- An extended point has the values of the assignment for the names, and its own elsewhere. -/
theorem get?_extend (p : Point) (x : String → Int) (names : List String) (v : String) :
    (p.extend x names).get? v = if v ∈ names then some (x v) else p.get? v := by
  induction names generalizing p with
  | nil => simp [extend]
  | cons name rest ih =>
    change (Point.extend (p.insert name (x name)) x rest).get? v = _
    rw [ih, SortedMap.get?_insert]
    by_cases hrest : v ∈ rest
    · simp [hrest]
    · by_cases hv : v = name
      · simp [hv]
      · simp [hrest, hv]

/-- Values at other names than those that are extended make no difference. -/
theorem extend_congr (p : Point) {x y : String → Int} {names : List String}
    (h : ∀ v ∈ names, x v = y v) : p.extend x names = p.extend y names := by
  apply SortedMap.ext_get?
  intro v
  rw [get?_extend, get?_extend]
  by_cases hv : v ∈ names
  · rw [if_pos hv, if_pos hv, h v hv]
  · rw [if_neg hv, if_neg hv]

/-- A value set first is the value of the assignment for the first of the names. -/
theorem extend_update {p : Point} {x : String → Int} {name : String} {names : List String} {n : Int}
    (hname : name ∉ names) :
    p.extend (Function.update x name n) (name :: names) =
      Point.extend (p.insert name n) x names := by
  change Point.extend (p.insert name (Function.update x name n name)) _ names = _
  rw [Function.update_self]
  apply extend_congr
  intro w hw
  have hne : w ≠ name := fun he => hname (he ▸ hw)
  rw [Function.update_of_ne hne]

/-- The assignment of a point has its values. -/
theorem assignment_of_get? {p : Point} {v : String} {n : Int} (h : p.get? v = some n) :
    p.assignment v = n := by
  rw [assignment, SortedMap.getD, h, Option.getD_some]

end Point

namespace Polyhedron

variable {s fixed : Polyhedron} {name : String}

/-! ## Parameters -/

section Parameters

variable {given : String → Option Int} {x : String → Int}
  (hx : ∀ v n, v ∉ s.dims → given v = some n → x v = n)

include hx

/-- Replacing parameters by their values changes nothing where they have these values. -/
theorem fixParams_holds {names : List String} {c d : Constraint}
    (h : fixParams s given names c = .ok d) : d.Holds x ↔ c.Holds x := by
  induction names generalizing c with
  | nil =>
    rw [fixParams, Attempt.pure_eq_ok] at h
    rw [h]
  | cons v rest ih =>
    unfold fixParams at h
    split at h
    · exact ih h
    · next hdim =>
      split at h
      · cases h
      · next n hn =>
        simp only [Attempt.bind_eq_ok, Attempt.liftM_eq_ok] at h
        obtain ⟨e, he, h⟩ := h
        rw [hasDim_iff] at hdim
        rw [ih h, Constraint.substitute_holds he, Affine.value_const, ← hx v n hdim hn,
          Function.update_eq_self]

/-- The polyhedron for given parameter values has the same points for these values. -/
theorem atParams_holds (h : s.atParams given = .ok fixed) : fixed.Holds x ↔ s.Holds x := by
  unfold atParams at h
  apply Attempt.foldlM_induction
    (P := fun done (out : Polyhedron) => out.Holds x ↔ ∀ c ∈ done, c.Holds x) _ _ h
  · simp [Holds, whole]
  · intro done out c next _ hdone hnext
    simp only [Attempt.bind_eq_ok, Attempt.liftM_eq_ok] at hnext
    obtain ⟨d, hd, hnext⟩ := hnext
    rw [constrain_holds hnext, hdone, fixParams_holds hx hd]
    simp only [List.mem_append, List.mem_singleton, or_imp, forall_and, forall_eq]

end Parameters

private theorem fixParams_spec {given : String → Option Int} {names : List String}
    {c d : Constraint} (hc : c.form.Proper) (h : fixParams s given names c = .ok d) :
    d.form.Proper ∧
      ∀ v, c.form.coeff v = 0 ∨ (v ∈ names ∧ v ∉ s.dims) → d.form.coeff v = 0 := by
  induction names generalizing c with
  | nil =>
    rw [fixParams, Attempt.pure_eq_ok] at h
    subst h
    exact ⟨hc, fun v hv => hv.resolve_right (by simp)⟩
  | cons name rest ih =>
    unfold fixParams at h
    split at h
    · next hdim =>
      obtain ⟨hproper, hzero⟩ := ih hc h
      refine ⟨hproper, fun v hv => hzero v (hv.imp_right fun ⟨hmem, hnot⟩ => ⟨?_, hnot⟩)⟩
      rcases List.mem_cons.mp hmem with rfl | hmem
      · exact False.elim (hnot (hasDim_iff.mp hdim))
      · exact hmem
    · split at h
      · cases h
      · simp only [Attempt.bind_eq_ok, Attempt.liftM_eq_ok] at h
        obtain ⟨e, he, h⟩ := h
        unfold Constraint.substitute at he
        rw [Attempt.bind_eq_ok] at he
        obtain ⟨form, hform, he⟩ := he
        obtain ⟨hproper, hzero⟩ :=
          ih (Constraint.proper_normalize (Affine.proper_substitute hc hform) he) h
        refine ⟨hproper, fun v hv => hzero v ?_⟩
        by_cases hgone : v = name ∨ c.form.coeff v = 0
        · exact .inl (Constraint.coeff_normalize (Affine.coeff_substitute_const hform hgone) he)
        · rw [not_or] at hgone
          obtain ⟨hmem, hnot⟩ := hv.resolve_left hgone.2
          exact .inr ⟨(List.mem_cons.mp hmem).resolve_left hgone.1, hnot⟩

/-- The constraints for given parameter values come from those of the polyhedron. -/
private theorem of_mem_atParams {given : String → Option Int} (h : s.atParams given = .ok fixed)
    {e : Constraint} (he : e ∈ fixed.constraints) :
    ∃ c ∈ s.constraints, ∃ d, fixParams s given c.form.vars c = .ok d ∧ d.normalize = .ok e := by
  revert he
  unfold atParams at h
  apply Attempt.foldlM_induction (P := fun done (out : Polyhedron) => e ∈ out.constraints →
    ∃ c ∈ done, ∃ d, fixParams s given c.form.vars c = .ok d ∧ d.normalize = .ok e) _ _ h
  · simp [whole]
  · intro done out c next _ hdone hnext he
    simp only [Attempt.bind_eq_ok, Attempt.liftM_eq_ok] at hnext
    obtain ⟨d, hd, hnext⟩ := hnext
    rcases of_mem_constrain hnext he with he | hnormal
    · obtain ⟨b, hb, hfound⟩ := hdone he
      exact ⟨b, List.mem_append_left _ hb, hfound⟩
    · exact ⟨c, List.mem_append_right _ (List.mem_singleton_self c), d, hd, hnormal⟩

/-- The polyhedron for given parameter values stores no zeros. -/
theorem proper_atParams {given : String → Option Int} (hs : ∀ c ∈ s.constraints, c.form.Proper)
    (h : s.atParams given = .ok fixed) : ∀ c ∈ fixed.constraints, c.form.Proper := by
  intro e he
  obtain ⟨c, hc, d, hd, hnormal⟩ := of_mem_atParams h he
  exact Constraint.proper_normalize (fixParams_spec (hs c hc) hd).1 hnormal

/-- The polyhedron for given parameter values mentions dimensions only. -/
theorem vars_atParams {given : String → Option Int} (hs : ∀ c ∈ s.constraints, c.form.Proper)
    (h : s.atParams given = .ok fixed) :
    ∀ c ∈ fixed.constraints, ∀ v ∈ c.form.vars, v ∈ s.dims := by
  intro e he v hv
  rw [Affine.mem_vars_iff (proper_atParams hs h e he)] at hv
  obtain ⟨c, hc, d, hd, hnormal⟩ := of_mem_atParams h he
  by_contra hnot
  refine hv (Constraint.coeff_normalize ((fixParams_spec (hs c hc) hd).2 v ?_) hnormal)
  by_cases hvars : v ∈ c.form.vars
  · exact .inr ⟨hvars, hnot⟩
  · rw [Affine.mem_vars_iff (hs c hc), not_not] at hvars
    exact .inl hvars

/-! ## Ranges -/

/-- Whether an integer is inside a range. -/
def Range.Contains (r : Range) (n : Int) : Prop :=
  (∀ lo, r.lo = some lo → lo ≤ n) ∧ ∀ hi, r.hi = some hi → n ≤ hi

private theorem contains_raise {r : Range} {m n : Int} (hr : r.Contains n) (h : m ≤ n) :
    (r.raise m).Contains n := by
  refine ⟨fun lo hlo => ?_, hr.2⟩
  unfold Range.raise at hlo
  cases hrlo : r.lo with
  | none =>
    rw [hrlo] at hlo
    exact Option.some.inj hlo ▸ h
  | some old =>
    rw [hrlo] at hlo
    exact Option.some.inj hlo ▸ max_le (hr.1 old hrlo) h

private theorem contains_lower {r : Range} {m n : Int} (hr : r.Contains n) (h : n ≤ m) :
    (r.lower m).Contains n := by
  refine ⟨hr.1, fun hi hhi => ?_⟩
  unfold Range.lower at hhi
  cases hrhi : r.hi with
  | none =>
    rw [hrhi] at hhi
    exact Option.some.inj hhi ▸ h
  | some old =>
    rw [hrhi] at hhi
    exact Option.some.inj hhi ▸ le_min (hr.2 old hrhi) h

section Narrowing

variable {point : Point} {range : Range} {c : Constraint}

/-- What a constraint does to the range of a dimension: the range that it leaves, if any. A
constraint that does not mention the dimension, or whose other variables are not all known, leaves
the range as it is. -/
inductive Narrowing (name : String) (point : Point) (range : Range) (c : Constraint) :
    Option Range → Prop
  | absent (hcoeff : c.form.coeff name = 0) : Narrowing name point range c (some range)
  | unknown (hvalue : (c.form.without name).eval point.get? = .ok none) :
      Narrowing name point range c (some range)
  | below (n : Int) (hvalue : (c.form.without name).eval point.get? = .ok (some n))
      (hrelation : c.relation = .inequality) (hcoeff : 0 < c.form.coeff name) :
      Narrowing name point range c (some (range.raise (DimBounds.ceilDiv (-n) (c.form.coeff name))))
  | above (n : Int) (hvalue : (c.form.without name).eval point.get? = .ok (some n))
      (hrelation : c.relation = .inequality) (hcoeff : c.form.coeff name < 0) :
      Narrowing name point range c (some (range.lower (n / -c.form.coeff name)))
  | unsolvable (n : Int) (hvalue : (c.form.without name).eval point.get? = .ok (some n))
      (hrelation : c.relation = .equality) (hmod : n % c.form.coeff name ≠ 0) :
      Narrowing name point range c none
  | solved (n : Int) (hvalue : (c.form.without name).eval point.get? = .ok (some n))
      (hrelation : c.relation = .equality) (hcoeff : c.form.coeff name ≠ 0) :
      Narrowing name point range c
        (some ((range.raise (-n / c.form.coeff name)).lower (-n / c.form.coeff name)))

/-- The first constraint narrows the range, and the others go on with what it leaves. -/
theorem rangeOf_cons_cases {rest : List Constraint} {r : Option Range}
    (h : rangeOf name point range (c :: rest) = .ok r) :
    (Narrowing name point range c none ∧ r = none) ∨
      ∃ next, Narrowing name point range c (some next) ∧ rangeOf name point next rest = .ok r := by
  simp only [rangeOf] at h
  split at h
  · next hzero => exact .inr ⟨range, .absent hzero, h⟩
  · next hcoeff =>
    rw [Attempt.bind_eq_ok] at h
    obtain ⟨value, hvalue, h⟩ := h
    cases value with
    | none => exact .inr ⟨range, .unknown hvalue, h⟩
    | some n =>
      simp only at h
      cases hrelation : c.relation with
      | inequality =>
        simp only [hrelation] at h
        split at h
        · next hpos =>
          simp only [Attempt.bind_eq_ok, WordRange.check_eq_ok] at h
          obtain ⟨_, ⟨-, rfl⟩, h⟩ := h
          exact .inr ⟨_, .below n hvalue hrelation hpos, h⟩
        · next hneg =>
          simp only [Attempt.bind_eq_ok, WordRange.check_eq_ok] at h
          obtain ⟨_, ⟨-, rfl⟩, h⟩ := h
          exact .inr ⟨_, .above n hvalue hrelation (by omega), h⟩
      | equality =>
        simp only [hrelation] at h
        split at h
        · next hmod =>
          rw [Attempt.pure_eq_ok] at h
          exact .inl ⟨.unsolvable n hvalue hrelation hmod, h.symm⟩
        · simp only [Attempt.bind_eq_ok, WordRange.check_eq_ok] at h
          obtain ⟨_, ⟨-, rfl⟩, h⟩ := h
          exact .inr ⟨_, .solved n hvalue hrelation hcoeff, h⟩

/-- A constraint that holds leaves the value of the dimension in its range. -/
theorem Narrowing.contains {next : Option Range} (h : Narrowing name point range c next)
    {x : String → Int} (hpoint : ∀ v n, point.get? v = some n → x v = n) (hc : c.Holds x)
    (hrange : range.Contains (x name)) : ∃ r, next = some r ∧ r.Contains (x name) := by
  have hsplit := Affine.value_without x c.form name
  unfold Constraint.Holds at hc
  cases h with
  | absent => exact ⟨range, rfl, hrange⟩
  | unknown => exact ⟨range, rfl, hrange⟩
  | below n hvalue hrelation hcoeff =>
    rw [hsplit, ← Affine.eval_eq_ok x hpoint hvalue, hrelation, Relation.Holds] at hc
    refine ⟨_, rfl, contains_raise hrange ?_⟩
    have hdiv := (Int.le_ediv_iff_mul_le (a := -x name) (b := n) hcoeff).mpr (by linarith)
    rw [DimBounds.ceilDiv, neg_neg]
    omega
  | above n hvalue hrelation hcoeff =>
    rw [hsplit, ← Affine.eval_eq_ok x hpoint hvalue, hrelation, Relation.Holds] at hc
    refine ⟨_, rfl, contains_lower hrange ?_⟩
    exact (Int.le_ediv_iff_mul_le (by omega)).mpr (by linarith)
  | unsolvable n hvalue hrelation hmod =>
    rw [hsplit, ← Affine.eval_eq_ok x hpoint hvalue, hrelation, Relation.Holds] at hc
    have hexact : n = -x name * c.form.coeff name := by linarith
    rw [hexact, Int.mul_emod_left] at hmod
    exact absurd rfl hmod
  | solved n hvalue hrelation hcoeff =>
    rw [hsplit, ← Affine.eval_eq_ok x hpoint hvalue, hrelation, Relation.Holds] at hc
    have hexact : n = -x name * c.form.coeff name := by linarith
    have hquotient : -n / c.form.coeff name = x name := by
      rw [hexact, neg_mul, neg_neg, Int.mul_ediv_cancel _ hcoeff]
    rw [hquotient]
    exact ⟨_, rfl, contains_lower (contains_raise hrange le_rfl) le_rfl⟩

/-- The range of a dimension contains its value at every point. -/
theorem contains_of_rangeOf {constraints : List Constraint} {r : Option Range} {x : String → Int}
    (hpoint : ∀ v n, point.get? v = some n → x v = n) (hx : ∀ c ∈ constraints, c.Holds x)
    (hrange : range.Contains (x name)) (h : rangeOf name point range constraints = .ok r) :
    ∃ r', r = some r' ∧ r'.Contains (x name) := by
  induction constraints generalizing range with
  | nil =>
    rw [rangeOf, Attempt.pure_eq_ok] at h
    exact ⟨range, h.symm, hrange⟩
  | cons c rest ih =>
    rw [List.forall_mem_cons] at hx
    rcases rangeOf_cons_cases h with ⟨hnarrow, -⟩ | ⟨next, hnarrow, h⟩
    · obtain ⟨_, hsome, -⟩ := hnarrow.contains hpoint hx.1 hrange
      cases hsome
    · obtain ⟨_, hsome, hnext⟩ := hnarrow.contains hpoint hx.1 hrange
      cases hsome
      exact ih hx.2 hnext h

end Narrowing

/-! ## Levels -/

/-- The levels are the dimensions from the outermost on, and what they require holds at every
point. -/
theorem projections_spec {constraints : List Constraint} {names : List String}
    {levels : List (String × List Constraint)} (h : projections constraints names = .ok levels) :
    levels.map Prod.fst = names.reverse ∧ ∀ x : String → Int, (∀ c ∈ constraints, c.Holds x) →
      ∀ level ∈ levels, ∀ c ∈ level.2, c.Holds x := by
  induction names generalizing constraints levels with
  | nil =>
    rw [projections, Attempt.pure_eq_ok] at h
    rw [← h]
    simp
  | cons name outer ih =>
    simp only [projections, Attempt.bind_eq_ok, Attempt.pure_eq_ok] at h
    obtain ⟨projected, hprojected, earlier, hearlier, rfl⟩ := h
    obtain ⟨hnames, hholds⟩ := ih hearlier
    constructor
    · rw [List.map_append, hnames, List.map_singleton, List.reverse_cons]
    · intro x hx level hlevel
      rcases List.mem_append.mp hlevel with hlevel | hlevel
      · exact hholds x (Constraint.holds_eliminate_of_holds hprojected hx) level hlevel
      · rw [List.mem_singleton.mp hlevel]
        exact hx

section Consecutive

variable {α : Type} {action : Int → Attempt PolyhedronError (List α)} {count : Nat} {first : Int}
  {l : List α}

/-- What consecutive actions give comes from one of them. -/
theorem exists_of_mem_forConsecutive (h : forConsecutive action count first = .ok l) {a : α}
    (ha : a ∈ l) : ∃ v part, first ≤ v ∧ v < first + count ∧ action v = .ok part ∧ a ∈ part := by
  induction count generalizing first l with
  | zero =>
    rw [forConsecutive, Attempt.pure_eq_ok] at h
    rw [← h] at ha
    cases ha
  | succ count ih =>
    simp only [forConsecutive, Attempt.bind_eq_ok, Attempt.pure_eq_ok] at h
    obtain ⟨here, hhere, rest, hrest, rfl⟩ := h
    rcases List.mem_append.mp ha with ha | ha
    · exact ⟨first, here, le_rfl, by omega, hhere, ha⟩
    · obtain ⟨v, part, hlow, hhigh, hpart, ha⟩ := ih hrest ha
      exact ⟨v, part, by omega, by omega, hpart, ha⟩

/-- Consecutive actions all succeed, and give what each of them does. -/
theorem forConsecutive_part (h : forConsecutive action count first = .ok l) {v : Int}
    (hlow : first ≤ v) (hhigh : v < first + count) :
    ∃ part, action v = .ok part ∧ ∀ a ∈ part, a ∈ l := by
  induction count generalizing first l with
  | zero => omega
  | succ count ih =>
    simp only [forConsecutive, Attempt.bind_eq_ok, Attempt.pure_eq_ok] at h
    obtain ⟨here, hhere, rest, hrest, rfl⟩ := h
    by_cases hv : v = first
    · exact ⟨here, hv ▸ hhere, fun a ha => List.mem_append_left _ ha⟩
    · obtain ⟨part, hpart, hmem⟩ := ih hrest (by omega) (by omega)
      exact ⟨part, hpart, fun a ha => List.mem_append_right _ (hmem a ha)⟩

/-- Consecutive actions give what is in order when each action does, and what an action gives comes
before what a later one gives. -/
theorem pairwise_forConsecutive {R : α → α → Prop} (h : forConsecutive action count first = .ok l)
    (hpart : ∀ v part, action v = .ok part → part.Pairwise R)
    (hlater : ∀ v w part other, action v = .ok part → action w = .ok other → v < w →
      ∀ a ∈ part, ∀ b ∈ other, R a b) : l.Pairwise R := by
  induction count generalizing first l with
  | zero =>
    rw [forConsecutive, Attempt.pure_eq_ok] at h
    exact h ▸ List.Pairwise.nil
  | succ count ih =>
    simp only [forConsecutive, Attempt.bind_eq_ok, Attempt.pure_eq_ok] at h
    obtain ⟨here, hhere, rest, hrest, rfl⟩ := h
    refine List.pairwise_append.mpr ⟨hpart first here hhere, ih hrest, ?_⟩
    intro a ha b hb
    obtain ⟨w, other, hlow, -, hother, hb⟩ := exists_of_mem_forConsecutive hrest hb
    exact hlater first w here other hhere hother (by omega) a ha b hb

end Consecutive

/-- The test at the end of a listing decides whether all constraints hold. -/
private theorem allM_satisfied {constraints : List Constraint} {point : Point} {b : Bool}
    (hvars : ∀ c ∈ constraints, ∀ v ∈ c.form.vars, (point.get? v).isSome)
    (h : (constraints.allM fun c => do pure ((← c.satisfied? point.get?) == some true) :
      Checked Bool) = .ok b) :
    b = true ↔ ∀ c ∈ constraints, c.Holds point.assignment := by
  have hpoint : ∀ v n, point.get? v = some n → point.assignment v = n :=
    fun v n => Point.assignment_of_get?
  cases b with
  | true =>
    refine ⟨fun _ c hc => ?_, fun _ => rfl⟩
    have hone := Attempt.of_allM_true h c hc
    simp only [Attempt.bind_eq_ok, Attempt.pure_eq_ok, beq_iff_eq] at hone
    obtain ⟨_, hsat, rfl⟩ := hone
    exact (Constraint.satisfied?_eq_ok hpoint hsat).mp rfl
  | false =>
    refine ⟨fun hfalse => by simp at hfalse, fun hall => ?_⟩
    obtain ⟨c, hc, hone⟩ := Attempt.of_allM_false h
    simp only [Attempt.bind_eq_ok, Attempt.pure_eq_ok, beq_eq_false_iff_ne] at hone
    obtain ⟨answer, hsat, hne⟩ := hone
    have hsome := Constraint.satisfied?_isSome (hvars c hc) hsat
    obtain ⟨value, rfl⟩ := Option.isSome_iff_exists.mp hsome
    have htrue := (Constraint.satisfied?_eq_ok hpoint hsat).mpr (hall c hc)
    exact False.elim (hne (congrArg some htrue))

section Extension

variable {constraints : List Constraint} {levels : List (String × List Constraint)}
  {point : Point} {result : List Point}

/-- A point with a value for every dimension is kept when it satisfies all constraints. -/
theorem extendPoint_nil_eq_ok
    (hvars : ∀ c ∈ constraints, ∀ v ∈ c.form.vars, (point.get? v).isSome)
    (h : extendPoint constraints [] point = .ok result) :
    ((∀ c ∈ constraints, c.Holds point.assignment) ∧ result = [point]) ∨
      ((¬∀ c ∈ constraints, c.Holds point.assignment) ∧ result = []) := by
  simp only [extendPoint, Attempt.bind_eq_ok, Attempt.liftM_eq_ok, Attempt.pure_eq_ok] at h
  obtain ⟨b, hb, rfl⟩ := h
  rw [← allM_satisfied hvars hb]
  cases b <;> simp

/-- A level has no points where the range of its dimension is empty, and otherwise those of the
later levels for each value in the range, which has both ends. -/
theorem extendPoint_cons_cases {onName : List Constraint}
    (h : extendPoint constraints ((name, onName) :: levels) point = .ok result) :
    (rangeOf name point ⟨none, none⟩ onName = .ok none ∧ result = []) ∨
      ∃ lo hi, rangeOf name point ⟨none, none⟩ onName = .ok (some ⟨some lo, some hi⟩) ∧
        forConsecutive (fun value => extendPoint constraints levels (point.insert name value))
          (hi - lo + 1).toNat lo = .ok result := by
  simp only [extendPoint, Attempt.bind_eq_ok, Attempt.liftM_eq_ok] at h
  obtain ⟨range, hrange, h⟩ := h
  split at h
  · rw [Attempt.pure_eq_ok] at h
    exact .inl ⟨hrange, h.symm⟩
  · next lo hi => exact .inr ⟨lo, hi, hrange, h⟩
  · cases h

/-- Dimensions that come later have no value after one more value is set. -/
private theorem fresh_insert {names : List String} {v : Int} (hname : name ∉ names)
    (hfresh : ∀ other ∈ name :: names, point.get? other = none) :
    ∀ other ∈ names, (point.insert name v).get? other = none := by
  intro other hother
  have hne : other ≠ name := fun he => hname (he ▸ hother)
  rw [SortedMap.get?_insert, if_neg hne]
  exact hfresh other (List.mem_cons_of_mem _ hother)

/-- What has a value or gets one later still does after one more value is set. -/
theorem decided_insert {names : List String} {v : Int}
    (hvars : ∀ c ∈ constraints, ∀ w ∈ c.form.vars, w ∈ name :: names ∨ (point.get? w).isSome) :
    ∀ c ∈ constraints, ∀ w ∈ c.form.vars,
      w ∈ names ∨ ((point.insert name v).get? w).isSome := by
  intro c hc w hw
  rw [SortedMap.get?_insert]
  rcases hvars c hc w hw with hmem | hsome
  · rcases List.mem_cons.mp hmem with rfl | hmem
    · exact .inr (by simp)
    · exact .inl hmem
  · refine .inr ?_
    split
    · rfl
    · exact hsome

/-- An extension that satisfies what a level requires has a value in the range of the level. -/
private theorem contains_of_extension {onName : List Constraint} {names : List String}
    (hfresh : ∀ other ∈ name :: names, point.get? other = none) {x : String → Int} {q : Point}
    (hq : q = point.extend x (name :: names)) (hon : ∀ c ∈ onName, c.Holds q.assignment)
    {range : Option Range} (hrange : rangeOf name point ⟨none, none⟩ onName = .ok range) :
    ∃ r, range = some r ∧ r.Contains (x name) := by
  have hvalue : q.assignment name = x name :=
    Point.assignment_of_get? (by rw [hq, Point.get?_extend, if_pos List.mem_cons_self])
  have hagree : ∀ v n, point.get? v = some n → q.assignment v = n := by
    intro v n hv
    apply Point.assignment_of_get?
    have hnot : v ∉ name :: names := by
      intro hmem
      rw [hfresh v hmem] at hv
      cases hv
    rw [hq, Point.get?_extend, if_neg hnot, hv]
  rw [← hvalue]
  exact contains_of_rangeOf hagree hon ⟨by simp, by simp⟩ hrange

/-- The points that extend a point by the dimensions of some levels are those that satisfy all
constraints, when the levels require nothing more. -/
theorem mem_extendPoint (hnames : (levels.map Prod.fst).Nodup)
    (hfresh : ∀ name ∈ levels.map Prod.fst, point.get? name = none)
    (hvars : ∀ c ∈ constraints, ∀ v ∈ c.form.vars,
      v ∈ levels.map Prod.fst ∨ (point.get? v).isSome)
    (hlevels : ∀ x : String → Int, (∀ c ∈ constraints, c.Holds x) →
      ∀ level ∈ levels, ∀ c ∈ level.2, c.Holds x)
    (h : extendPoint constraints levels point = .ok result) {q : Point} :
    q ∈ result ↔ ∃ x, q = point.extend x (levels.map Prod.fst) ∧
      ∀ c ∈ constraints, c.Holds q.assignment := by
  induction levels generalizing point result q with
  | nil =>
    have hnil : ∀ x, point.extend x [] = point := fun x => rfl
    simp only [List.map_nil, hnil, exists_const]
    rcases extendPoint_nil_eq_ok (fun c hc v hv => (hvars c hc v hv).resolve_left (by simp)) h with
      ⟨hall, rfl⟩ | ⟨hnot, rfl⟩
    · rw [List.mem_singleton]
      exact ⟨fun hq => ⟨hq, hq ▸ hall⟩, fun hq => hq.1⟩
    · exact iff_of_false List.not_mem_nil fun hq => hnot (hq.1 ▸ hq.2)
  | cons level rest ih =>
    obtain ⟨name, onName⟩ := level
    obtain ⟨hname, hrest⟩ := List.nodup_cons.mp hnames
    rw [List.map_cons]
    have hstep : ∀ (v : Int) (part : List Point),
        extendPoint constraints rest (point.insert name v) = .ok part →
        ∀ p, p ∈ part ↔ ∃ x, p = Point.extend (point.insert name v) x (rest.map Prod.fst) ∧
          ∀ c ∈ constraints, c.Holds p.assignment := by
      intro v part hpart p
      exact ih hrest (fresh_insert hname hfresh) (decided_insert hvars)
        (fun x hx l hl => hlevels x hx l (List.mem_cons_of_mem _ hl)) hpart
    -- The value that a point has for the dimension is in the range, so no point is left out.
    have hcontains : ∀ x, q = point.extend x (name :: rest.map Prod.fst) →
        (∀ c ∈ constraints, c.Holds q.assignment) → ∀ range,
          rangeOf name point ⟨none, none⟩ onName = .ok range →
            ∃ r, range = some r ∧ r.Contains (x name) := by
      intro x hq hall range hrange
      exact contains_of_extension hfresh hq
        (hlevels q.assignment hall (name, onName) List.mem_cons_self) hrange
    rcases extendPoint_cons_cases h with ⟨hrange, rfl⟩ | ⟨lo, hi, hrange, h⟩
    · refine iff_of_false List.not_mem_nil fun ⟨x, hq, hall⟩ => ?_
      obtain ⟨_, hnone, -⟩ := hcontains x hq hall _ hrange
      cases hnone
    · constructor
      · intro hq
        obtain ⟨v, part, -, -, hpart, hqpart⟩ := exists_of_mem_forConsecutive h hq
        obtain ⟨x, rfl, hall⟩ := (hstep v part hpart q).mp hqpart
        exact ⟨Function.update x name v, (Point.extend_update hname).symm, hall⟩
      · rintro ⟨x, hq, hall⟩
        obtain ⟨_, hsome, hlo, hhi⟩ := hcontains x hq hall _ hrange
        cases hsome
        have hlow := hlo lo rfl
        have hhigh := hhi hi rfl
        obtain ⟨part, hpart, hmem⟩ := forConsecutive_part h hlow (by omega)
        exact hmem q ((hstep (x name) part hpart q).mpr ⟨x, hq, hall⟩)

/-- The points that extend a point come in lexicographic order of the dimensions of the levels, and
keep what had a value before. -/
theorem ordered_extendPoint (hnames : (levels.map Prod.fst).Nodup)
    (hfresh : ∀ name ∈ levels.map Prod.fst, point.get? name = none)
    (h : extendPoint constraints levels point = .ok result) :
    (result.Pairwise fun p q =>
        p.coordinates (levels.map Prod.fst) < q.coordinates (levels.map Prod.fst)) ∧
      ∀ q ∈ result, ∀ v n, point.get? v = some n → q.get? v = some n := by
  induction levels generalizing point result with
  | nil =>
    simp only [extendPoint, Attempt.bind_eq_ok, Attempt.liftM_eq_ok, Attempt.pure_eq_ok] at h
    obtain ⟨b, -, rfl⟩ := h
    cases b <;> simp
  | cons level rest ih =>
    obtain ⟨name, onName⟩ := level
    obtain ⟨hname, hrest⟩ := List.nodup_cons.mp hnames
    have hstep : ∀ (v : Int) (part : List Point),
        extendPoint constraints rest (point.insert name v) = .ok part →
        (part.Pairwise fun p q =>
            p.coordinates (rest.map Prod.fst) < q.coordinates (rest.map Prod.fst)) ∧
          ∀ q ∈ part, ∀ w n, (point.insert name v).get? w = some n → q.get? w = some n := by
      intro v part hpart
      exact ih hrest (fresh_insert hname hfresh) hpart
    have hvalue : ∀ v part, extendPoint constraints rest (point.insert name v) = .ok part →
        ∀ q ∈ part, q.assignment name = v := by
      intro v part hpart q hq
      apply Point.assignment_of_get?
      exact (hstep v part hpart).2 q hq name v (by rw [SortedMap.get?_insert, if_pos rfl])
    rcases extendPoint_cons_cases h with ⟨-, rfl⟩ | ⟨lo, hi, -, h⟩
    · simp
    · constructor
      · simp only [Point.coordinates, List.map_cons, List.cons_lt_cons_iff]
        refine pairwise_forConsecutive h ?_ ?_
        · -- The points of one action have the same first coordinate.
          intro v part hpart
          refine (hstep v part hpart).1.imp_of_mem fun hp hq hlt => .inr ⟨?_, hlt⟩
          rw [hvalue v part hpart _ hp, hvalue v part hpart _ hq]
        · intro v w part other hpart hother hlt p hp q hq
          left
          rw [hvalue v part hpart p hp, hvalue w other hother q hq]
          exact hlt
      · intro q hq w n hw
        obtain ⟨v, part, -, -, hpart, hqpart⟩ := exists_of_mem_forConsecutive h hq
        refine (hstep v part hpart).2 q hqpart w n ?_
        have hne : w ≠ name := by
          rintro rfl
          rw [hfresh w List.mem_cons_self] at hw
          cases hw
        rw [SortedMap.get?_insert, if_neg hne, hw]

end Extension

/-! ## All points -/

section Listing

variable {given : String → Option Int} {points : List Point}

/-- Where a constraint is contradictory for the given parameter values nothing is listed, and
otherwise the points that extend the point without values. -/
theorem enumeratePoints_cases (h : s.enumeratePoints given = .ok points) :
    ∃ fixed, s.atParams given = .ok fixed ∧
      (((∃ c ∈ fixed.constraints, c.isContradiction = .ok true) ∧ points = []) ∨
        ∃ levels, projections fixed.constraints s.dims.reverse = .ok levels ∧
          extendPoint fixed.constraints levels ∅ = .ok points) := by
  simp only [enumeratePoints, Attempt.bind_eq_ok, Attempt.liftM_eq_ok] at h
  obtain ⟨fixed, hfixed, contradiction, hcontradiction, h⟩ := h
  refine ⟨fixed, hfixed, ?_⟩
  split at h
  · next htrue =>
    rw [Attempt.pure_eq_ok] at h
    rw [htrue] at hcontradiction
    exact .inl ⟨Attempt.of_anyM_true hcontradiction, h.symm⟩
  · simp only [Attempt.bind_eq_ok, Attempt.liftM_eq_ok] at h
    exact .inr h

/-- A polyhedron that mentions dimensions only holds at the point with the values of an assignment
for the dimensions where it holds at the assignment. -/
theorem holds_assignment_extend (hvars : ∀ c ∈ fixed.constraints, ∀ v ∈ c.form.vars, v ∈ s.dims)
    {x y : String → Int} (hy : ∀ v ∈ s.dims, y v = x v) :
    fixed.Holds (Point.extend ∅ x s.dims).assignment ↔ fixed.Holds y := by
  apply forall₂_congr
  intro c hc
  apply Constraint.holds_congr
  intro v hv
  have hdim := hvars c hc v hv
  rw [hy v hdim]
  exact Point.assignment_of_get? (by rw [Point.get?_extend, if_pos hdim])

variable (hdims : s.dims.Nodup) (h : s.enumeratePoints given = .ok points)

include hdims h

/-- The points listed are those of the polyhedron. -/
theorem mem_enumeratePoints (hproper : ∀ c ∈ s.constraints, c.form.Proper) {env : String → Int}
    (henv : ∀ v n, v ∉ s.dims → given v = some n → env v = n) {q : Point} :
    q ∈ points ↔ ∃ x ∈ s.pointsAt env, q = Point.extend ∅ x s.dims := by
  have hparams : ∀ {fixed : Polyhedron}, s.atParams given = .ok fixed → ∀ x : String → Int,
      (∀ v, v ∉ s.dims → x v = env v) → (fixed.Holds x ↔ s.Holds x) :=
    fun hfixed x hx => atParams_holds (fun v n hv hn => (hx v hv).trans (henv v n hv hn)) hfixed
  obtain ⟨fixed, hfixed, ⟨⟨c, hc, hno⟩, rfl⟩ | ⟨levels, hlevels, h⟩⟩ := enumeratePoints_cases h
  · refine iff_of_false List.not_mem_nil fun ⟨x, ⟨hoff, hx⟩, _⟩ => ?_
    exact Constraint.not_holds_of_isContradiction hno ((hparams hfixed x hoff).mpr hx c hc)
  · obtain ⟨hnames, hholds⟩ := projections_spec hlevels
    rw [List.reverse_reverse] at hnames
    have hvars := vars_atParams hproper hfixed
    rw [mem_extendPoint (hnames ▸ hdims) (fun _ _ => SortedMap.get?_empty _)
      (fun c hc v hv => .inl (hnames ▸ hvars c hc v hv)) hholds h, hnames]
    constructor
    · rintro ⟨x, rfl, hall⟩
      -- The parameters have the values of the environment, the dimensions those of the point.
      let y : String → Int := fun v => if v ∈ s.dims then x v else env v
      have hoff : ∀ v, v ∉ s.dims → y v = env v := fun v hv => if_neg hv
      have hon : ∀ v ∈ s.dims, y v = x v := fun v hv => if_pos hv
      have hy : fixed.Holds y := (holds_assignment_extend hvars hon).mp hall
      exact ⟨y, ⟨hoff, (hparams hfixed y hoff).mp hy⟩,
        Point.extend_congr ∅ fun v hv => (hon v hv).symm⟩
    · rintro ⟨x, ⟨hoff, hx⟩, rfl⟩
      exact ⟨x, rfl, (holds_assignment_extend hvars fun _ _ => rfl).mpr
        ((hparams hfixed x hoff).mpr hx)⟩

/-- Points are listed in lexicographic order of the dimensions. -/
theorem ordered_enumeratePoints :
    points.Pairwise fun p q => p.coordinates s.dims < q.coordinates s.dims := by
  obtain ⟨fixed, -, ⟨-, rfl⟩ | ⟨levels, hlevels, h⟩⟩ := enumeratePoints_cases h
  · exact List.Pairwise.nil
  · obtain ⟨hnames, -⟩ := projections_spec hlevels
    rw [List.reverse_reverse] at hnames
    have hordered := (ordered_extendPoint (hnames ▸ hdims) (fun _ _ => SortedMap.get?_empty _) h).1
    rwa [hnames] at hordered

/-- Points are listed once. -/
theorem nodup_enumeratePoints : points.Nodup := by
  refine (ordered_enumeratePoints hdims h).imp fun hlt heq => ?_
  rw [heq] at hlt
  exact List.lt_irrefl _ hlt

/-- As many points are listed as the polyhedron has. -/
theorem length_enumeratePoints (hproper : ∀ c ∈ s.constraints, c.form.Proper)
    {env : String → Int} (henv : ∀ v n, v ∉ s.dims → given v = some n → env v = n) :
    points.length = (s.pointsAt env).ncard := by
  have himage :
      (fun x => Point.extend ∅ x s.dims) '' s.pointsAt env = (points.toFinset : Set _) := by
    ext q
    rw [Set.mem_image, List.coe_toFinset, Set.mem_ofPred_eq,
      mem_enumeratePoints hdims h hproper henv]
    simp only [eq_comm]
  have hinj : Set.InjOn (fun x => Point.extend ∅ x s.dims) (s.pointsAt env) := by
    intro x hx y hy hxy
    funext v
    by_cases hv : v ∈ s.dims
    · have hget := congrArg (fun p : Point => p.get? v) hxy
      simpa only [Point.get?_extend, if_pos hv, Option.some.injEq] using hget
    · rw [hx.1 v hv, hy.1 v hv]
  rw [← hinj.ncard_image, himage, Set.ncard_coe_finset,
    List.toFinset_card_of_nodup (nodup_enumeratePoints hdims h)]

end Listing

end Polyhedron

end LoopKernel
