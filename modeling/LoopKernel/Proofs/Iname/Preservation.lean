import LoopKernel.Proofs.Execution.Plain
import LoopKernel.Proofs.Iname.Split
import LoopKernel.Proofs.Source.WellFormed
import Mathlib.Data.Set.Function

/-!
# Splitting preserves points and values

The points of a split domain correspond to the points of the original one, by division of the index
with remainder. What an instruction computes at a point of the split domain is what it computed at
the point that corresponds to it.
-/

namespace LoopKernel

/-- What an instruction computes: its expression, the index of its assignee, and the bodies of all
reductions. -/
def Instruction.parts (insn : Instruction) : List Expr :=
  insn.expression :: insn.targetIndex ++
    (insn.expression.reductionBodies ++ insn.assignee.reductionBodies)

/-- Whether every part of a changed instruction without tags and reductions has a value, and it is
the value of the part that it comes from. -/
def Instruction.SameValues {V : Type} (A : Arithmetic V) (ν ν' : Valuation V)
    (insn insn' : Instruction) : Prop :=
  List.Forall₂ (fun e e' => e'.containsTag = false → e'.containsReduction = false →
    ∃ v, e.value? A ν = some v ∧ e'.value? A ν' = some v) insn.parts insn'.parts

/-- The parts of a declared instruction mention names of the kernel only. -/
theorem Instruction.Declared.mem_names_of_mem_parts {k : Kernel} {insn : Instruction}
    (h : insn.Declared k) (hbound : ∀ b ∈ insn.binders, b.name ∈ k.domain.dims) {e : Expr}
    (he : e ∈ insn.parts) {n : String} (hn : n ∈ e.dependencies) : n ∈ k.names := by
  simp only [parts, List.cons_append, List.mem_cons, List.mem_append] at he
  rcases he with rfl | htarget | hexpression | hassignee
  · exact h.expression n hn
  · exact h.mem_names_of_mem_targetIndex (Expr.mem_dependenciesOfAll.mpr ⟨e, htarget, hn⟩)
  · rcases Expr.of_mem_reductionBodies hn _ hexpression with hfree | ⟨b, hb, rfl⟩
    · exact h.expression n hfree
    · exact Kernel.mem_names_of_mem_dims (hbound b (List.mem_append_right _ hb))
  · rcases Expr.of_mem_reductionBodies hn _ hassignee with hfree | ⟨b, hb, rfl⟩
    · exact h.assignee n hfree
    · exact Kernel.mem_names_of_mem_dims (hbound b (List.mem_append_left _ hb))

namespace IndexSplit

variable {s : IndexSplit} {p t : Polyhedron} {env : String → Int}

/-! ## Points -/

/-- The integer assignment of the original names that one of the new names stands for. The new
indices are no dimensions of the original and get their values from `env`. -/
def original (s : IndexSplit) (env x : String → Int) : String → Int := fun n =>
  if n = s.index then s.length * x s.outer + x s.inner
  else if n = s.outer ∨ n = s.inner then env n
  else x n

/-- The integer assignment of the new names that stands for one of the original names: quotient and
remainder of the index. -/
def divided (s : IndexSplit) (env y : String → Int) : String → Int := fun n =>
  if n = s.index then env n
  else if n = s.outer then y s.index / s.length
  else if n = s.inner then y s.index % s.length
  else y n

theorem divided_outer (houter : s.outer ≠ s.index) (env y : String → Int) :
    s.divided env y s.outer = y s.index / s.length := by
  rw [divided, if_neg houter, if_pos rfl]

theorem divided_inner (hinner : s.inner ≠ s.index) (hne : s.inner ≠ s.outer)
    (env y : String → Int) : s.divided env y s.inner = y s.index % s.length := by
  rw [divided, if_neg hinner, if_neg hne, if_pos rfl]

/-- Quotient and remainder stand for the index that they come from. -/
theorem original_divided (houter : s.outer ≠ s.index) (hinner : s.inner ≠ s.index)
    (hne : s.inner ≠ s.outer) {y : String → Int} (hyouter : y s.outer = env s.outer)
    (hyinner : y s.inner = env s.inner) : s.original env (s.divided env y) = y := by
  funext n
  rw [original, divided_outer houter, divided_inner hinner hne, Int.mul_ediv_add_emod]
  split
  · next he => rw [he]
  · next hold =>
    split
    · next hnew => rcases hnew with rfl | rfl <;> symm <;> assumption
    · next hother =>
      rw [not_or] at hother
      rw [divided, if_neg hold, if_neg hother.1, if_neg hother.2]

/-- Two new indices, the inner one in its range, are quotient and remainder of what they stand
for. -/
theorem divided_original {x : String → Int} (hindex : x s.index = env s.index)
    (hnonneg : 0 ≤ x s.inner) (hlt : x s.inner < s.length) :
    s.divided env (s.original env x) = x := by
  have hlength : s.length ≠ 0 := by omega
  have hvalue : s.original env x s.index = s.length * x s.outer + x s.inner := if_pos rfl
  funext n
  rw [divided, hvalue]
  split
  · next he => rw [he, hindex]
  · next hold =>
    split
    · next he =>
      rw [he, Int.add_comm, Int.add_mul_ediv_left _ _ hlength, Int.ediv_eq_zero_of_lt hnonneg hlt,
        Int.zero_add]
    · next hno =>
      split
      · next he =>
        rw [he, Int.add_comm, Int.add_mul_emod_self_left, Int.emod_eq_of_lt hnonneg hlt]
      · next hni => rw [original, if_neg hold, if_neg (not_or.mpr ⟨hno, hni⟩)]

section Correspondence

variable (h : s.splitDomain p = .ok t) (hindex : s.index ∈ p.dims) (hinner : s.inner ≠ s.index)
  (hcongr : ∀ x y : String → Int, (∀ n, n ≠ s.outer → n ≠ s.inner → x n = y n) →
    (p.Holds x ↔ p.Holds y))

include h hindex hinner hcongr

/-- A point of the split domain stands for one of the original domain. -/
theorem original_mem_pointsAt {x : String → Int} (hx : x ∈ t.pointsAt env) :
    s.original env x ∈ p.pointsAt env := by
  obtain ⟨-, -, -, hdims, hholds⟩ := splitDomain_spec h hinner
  obtain ⟨hoff, hx⟩ := hx
  refine ⟨fun n hn => ?_, (hcongr _ _ fun n hno hni => ?_).mp ((hholds x).mp hx).1⟩
  · have hold : n ≠ s.index := fun he => hn (he ▸ hindex)
    rw [original, if_neg hold]
    split
    · rfl
    · next hnew =>
      apply hoff
      rw [hdims, mem_splitDims hindex]
      tauto
  · rw [original, join, Function.update_apply, if_neg (not_or.mpr ⟨hno, hni⟩)]

/-- Quotient and remainder of a point of the original domain are a point of the split domain. -/
theorem divided_mem_pointsAt (hlength : 0 < s.length) {y : String → Int}
    (hy : y ∈ p.pointsAt env) : s.divided env y ∈ t.pointsAt env := by
  obtain ⟨houterDims, -, hne, hdims, hholds⟩ := splitDomain_spec h hinner
  have houter : s.outer ≠ s.index := fun he => houterDims (he ▸ hindex)
  obtain ⟨hoff, hy⟩ := hy
  refine ⟨fun n hn => ?_, (hholds _).mpr ⟨(hcongr _ _ fun n hno hni => ?_).mp hy, ?_⟩⟩
  · rw [hdims, mem_splitDims hindex, not_or, not_or] at hn
    obtain ⟨hno, hni, hn⟩ := hn
    rw [divided, if_neg hno, if_neg hni]
    split
    · rfl
    · next hold => exact hoff n fun hmem => hn ⟨hold, hmem⟩
  · rw [join, Function.update_apply, divided_outer houter, divided_inner hinner hne,
      Int.mul_ediv_add_emod]
    split
    · next he => rw [he]
    · next hold => rw [divided, if_neg hold, if_neg hno, if_neg hni]
  · rw [divided_inner hinner hne]
    exact ⟨Int.emod_nonneg _ hlength.ne', Int.emod_lt_of_pos _ hlength⟩

/-- Points of the split domain and of the original one correspond. -/
theorem bijOn_original (hlength : 0 < s.length) (env : String → Int) :
    Set.BijOn (s.original env) (t.pointsAt env) (p.pointsAt env) := by
  obtain ⟨houterDims, hinnerDims, hne, hdims, hholds⟩ := splitDomain_spec h hinner
  have houter : s.outer ≠ s.index := fun he => houterDims (he ▸ hindex)
  have hinverse : Set.InvOn (s.divided env) (s.original env) (t.pointsAt env) (p.pointsAt env) := by
    constructor
    · rintro x ⟨hoff, hx⟩
      obtain ⟨-, hnonneg, hlt⟩ := (hholds x).mp hx
      have hold : s.index ∉ t.dims := by
        rw [hdims, mem_splitDims hindex]
        tauto
      exact divided_original (hoff _ hold) hnonneg hlt
    · rintro y ⟨hoff, -⟩
      exact original_divided houter hinner hne (hoff _ houterDims) (hoff _ hinnerDims)
  exact hinverse.bijOn (fun _ hx => original_mem_pointsAt h hindex hinner hcongr hx)
    fun _ hy => divided_mem_pointsAt h hindex hinner hcongr hlength hy

end Correspondence

/-! ## Values -/

section Values

variable {V : Type} {A : Arithmetic V} {μ ν : Valuation V}

mutual

/-- A split expression has the value of the original one if the two new indices hold together what
the index held. -/
theorem value?_splitExpr (helement : μ.element = ν.element)
    (hindex : A.sum [A.product [A.int s.length, μ.scalar s.outer], μ.scalar s.inner] =
      ν.scalar s.index) : (e : Expr) → (s.splitExpr e).containsTag = false →
      (∀ n ∈ e.dependencies, n ≠ s.index → μ.scalar n = ν.scalar n) →
      (s.splitExpr e).value? A μ = e.value? A ν
  | .int _, _, _ | .float _, _, _ | .reduction _ _ _, _, _ => rfl
  | .var name, _, hnames => by
    rw [splitExpr]
    split
    · next he =>
      rw [he, Expr.value?, ← hindex]
      rfl
    · next hne =>
      rw [Expr.value?, Expr.value?, hnames name (by simp [Expr.dependencies]) hne]
  | .subscript aggregate index, htag, hnames => by
    have hsub : ∀ n ∈ Expr.dependenciesOfAll index, n ≠ s.index → μ.scalar n = ν.scalar n :=
      fun n hn => hnames n (by simp [Expr.dependencies, hn])
    rw [splitExpr, Expr.value?, Expr.value?, helement,
      values?_splitExprs helement hindex index htag hsub]
  | .sum es, htag, hnames | .product es, htag, hnames => by
    rw [splitExpr, Expr.value?, Expr.value?, values?_splitExprs helement hindex es htag hnames]
  | .binary _ a b, htag, hnames => by
    rw [splitExpr, Expr.containsTag, Bool.or_eq_false_iff] at htag
    have ha : ∀ n ∈ a.dependencies, n ≠ s.index → μ.scalar n = ν.scalar n :=
      fun n hn => hnames n (by simp [Expr.dependencies, hn])
    have hb : ∀ n ∈ b.dependencies, n ≠ s.index → μ.scalar n = ν.scalar n :=
      fun n hn => hnames n (by simp [Expr.dependencies, hn])
    rw [splitExpr, Expr.value?, Expr.value?, value?_splitExpr helement hindex a htag.1 ha,
      value?_splitExpr helement hindex b htag.2 hb]
  | .call _ args, htag, hnames => by
    rw [splitExpr, Expr.value?, Expr.value?, values?_splitExprs helement hindex args htag hnames]

/-- Split expressions have the values of the original ones. -/
theorem values?_splitExprs (helement : μ.element = ν.element)
    (hindex : A.sum [A.product [A.int s.length, μ.scalar s.outer], μ.scalar s.inner] =
      ν.scalar s.index) : (es : List Expr) → Expr.anyContainsTag (s.splitExprs es) = false →
      (∀ n ∈ Expr.dependenciesOfAll es, n ≠ s.index → μ.scalar n = ν.scalar n) →
      Expr.values? A μ (s.splitExprs es) = Expr.values? A ν es
  | [], _, _ => rfl
  | e :: rest, htag, hnames => by
    rw [splitExprs, Expr.anyContainsTag, Bool.or_eq_false_iff] at htag
    have he : ∀ n ∈ e.dependencies, n ≠ s.index → μ.scalar n = ν.scalar n :=
      fun n hn => hnames n (by simp [Expr.dependenciesOfAll, hn])
    have hrest : ∀ n ∈ Expr.dependenciesOfAll rest, n ≠ s.index → μ.scalar n = ν.scalar n :=
      fun n hn => hnames n (by simp [Expr.dependenciesOfAll, hn])
    rw [splitExprs, Expr.values?, Expr.values?, value?_splitExpr helement hindex e htag.1 he,
      values?_splitExprs helement hindex rest htag.2 hrest]

end

/-- At a point of the split domain, a split expression has the value that the original one has at
the point that corresponds to it. -/
theorem value?_splitExpr_withIndices (hA : A.Exact) {dims dims' : List String}
    (hindex : s.index ∈ dims)
    (hdims : ∀ n, n ∈ dims' ↔ n = s.outer ∨ n = s.inner ∨ n ≠ s.index ∧ n ∈ dims) {e : Expr}
    (htag : (s.splitExpr e).containsTag = false) (houter : s.outer ∉ e.dependencies)
    (hinner : s.inner ∉ e.dependencies) (ν : Valuation V) (env x : String → Int) :
    (s.splitExpr e).value? A (ν.withIndices A dims' x) =
      e.value? A (ν.withIndices A dims (s.original env x)) := by
  have helement : (ν.withIndices A dims' x).element =
      (ν.withIndices A dims (s.original env x)).element := rfl
  refine value?_splitExpr helement ?index e htag ?names
  case names =>
    intro n hn hne
    have hno : n ≠ s.outer := fun he => houter (he ▸ hn)
    have hni : n ≠ s.inner := fun he => hinner (he ▸ hn)
    have hmem : n ∈ dims' ↔ n ∈ dims := by
      rw [hdims]
      tauto
    simp only [Valuation.withIndices, hmem, original, if_neg hne, if_neg (not_or.mpr ⟨hno, hni⟩)]
  case index =>
    have houterNew : s.outer ∈ dims' := (hdims _).mpr (.inl rfl)
    have hinnerNew : s.inner ∈ dims' := (hdims _).mpr (.inr (.inl rfl))
    simp only [Valuation.withIndices, if_pos houterNew, if_pos hinnerNew, if_pos hindex, original,
      if_true, hA.product, hA.sum]

end Values

/-! ## Instructions -/

/-- Expressions are split one by one. -/
theorem splitExprs_eq_map (es : List Expr) : s.splitExprs es = es.map s.splitExpr := by
  induction es with
  | nil => rfl
  | cons e rest ih => rw [splitExprs, ih, List.map_cons]

mutual

/-- The bodies of the reductions of a split expression are the split bodies. -/
theorem reductionBodies_splitExpr : (e : Expr) →
    (s.splitExpr e).reductionBodies = e.reductionBodies.map s.splitExpr
  | .int _ | .float _ | .tagged _ _ => rfl
  | .var name => by
    rw [splitExpr]
    split <;> rfl
  | .subscript _ index => reductionBodiesOfAll_splitExprs index
  | .sum es | .product es => reductionBodiesOfAll_splitExprs es
  | .binary _ a b => by
    rw [splitExpr, Expr.reductionBodies, Expr.reductionBodies, reductionBodies_splitExpr a,
      reductionBodies_splitExpr b, List.map_append]
  | .call _ args => reductionBodiesOfAll_splitExprs args
  | .reduction _ _ body => by
    rw [splitExpr, Expr.reductionBodies, Expr.reductionBodies, reductionBodies_splitExpr body,
      List.map_cons]

/-- The bodies of the reductions of several split expressions are the split bodies. -/
theorem reductionBodiesOfAll_splitExprs : (es : List Expr) →
    Expr.reductionBodiesOfAll (s.splitExprs es) = (Expr.reductionBodiesOfAll es).map s.splitExpr
  | [] => rfl
  | e :: rest => by
    rw [splitExprs, Expr.reductionBodiesOfAll, Expr.reductionBodiesOfAll,
      reductionBodies_splitExpr e, reductionBodiesOfAll_splitExprs rest, List.map_append]

end

/-- The index of the assignee is split. -/
theorem targetIndex_splitInsn (insn : Instruction) :
    (s.splitInsn insn).targetIndex = insn.targetIndex.map s.splitExpr := by
  rw [← splitExprs_eq_map]
  simp only [Instruction.targetIndex, splitInsn]
  cases insn.assignee with
  | var name =>
    by_cases he : name = s.index
    · rw [splitExpr, if_pos he]
      rfl
    · rw [splitExpr, if_neg he]
      rfl
  | _ => rfl

/-- The parts of a split instruction are the split parts. -/
theorem parts_splitInsn (insn : Instruction) :
    (s.splitInsn insn).parts = insn.parts.map s.splitExpr := by
  rw [Instruction.parts, Instruction.parts, targetIndex_splitInsn]
  simp only [splitInsn, reductionBodies_splitExpr, List.map_append, List.map_cons]

end IndexSplit

namespace Kernel

variable {k k' : Kernel} {iname : String} {length : Int} {outerTag innerTag : Option IndexTag}
  {V : Type} {A : Arithmetic V}

/-- Splitting an index preserves points and values, for all values `env` of the parameters. The
points of the new domain have the inner index in its range, and correspond one to one to those of
the old domain, where the index is the length times the outer one plus the inner one. What the
instructions compute at a point is what they computed at the point that corresponds to it, whatever
scalars and array elements hold. -/
theorem points_values_splitIname (hwf : k.WellFormed)
    (hdeclared : ∀ insn ∈ k.instructions, insn.Declared k)
    (hk : k.splitIname iname length outerTag innerTag = .ok k') (hA : A.Exact) (ν : Valuation V)
    (env : String → Int) :
    let s := k.indexSplit iname length
    k'.domain.dims = s.splitDims k.domain.dims ∧
      Set.BijOn (s.original env) (k'.domain.pointsAt env) (k.domain.pointsAt env) ∧
      ∀ x ∈ k'.domain.pointsAt env, 0 ≤ x s.inner ∧ x s.inner < length ∧
        List.Forall₂ (Instruction.SameValues A
          (ν.withIndices A k.domain.dims (s.original env x)) (ν.withIndices A k'.domain.dims x))
          k.instructions k'.instructions := by
  intro s
  have houter : s.outer ∉ k.names := k.outer_indexSplit_not_mem iname length
  have hinner : s.inner ∉ k.names := k.inner_indexSplit_not_mem iname length
  obtain ⟨hiname, hlength, domain, hdomain, rfl⟩ := splitIname_spec hk
  have hindex : s.index ∈ k.domain.dims := hiname
  have hne : s.inner ≠ s.index := fun he => hinner (mem_names_of_mem_dims (he ▸ hiname))
  obtain ⟨-, -, -, hdims, hholds⟩ := IndexSplit.splitDomain_spec hdomain hne
  refine ⟨hdims, ?points, fun x hx => ?values⟩
  case points =>
    refine IndexSplit.bijOn_original hdomain hindex hne (fun y z hyz => ?_) hlength env
    exact holds_domain_congr fun n hn =>
      hyz n (fun he => houter (he ▸ hn)) fun he => hinner (he ▸ hn)
  case values =>
    obtain ⟨-, hnonneg, hlt⟩ := (hholds x).mp hx.2
    refine ⟨hnonneg, hlt, ?_⟩
    rw [List.forall₂_map_right_iff, List.forall₂_same]
    intro insn hinsn
    rw [Instruction.SameValues, IndexSplit.parts_splitInsn, List.forall₂_map_right_iff,
      List.forall₂_same]
    intro e he htag hreduction
    have hnames : ∀ n ∈ e.dependencies, n ∈ k.names := fun n hn =>
      (hdeclared insn hinsn).mem_names_of_mem_parts (hwf.instructions insn hinsn).bound he hn
    obtain ⟨v, hv⟩ := Expr.exists_value? (ν.withIndices A domain.dims x) _ hreduction
    refine ⟨v, ?_, hv⟩
    rw [← hv]
    symm
    exact IndexSplit.value?_splitExpr_withIndices hA hindex
      (fun n => hdims ▸ IndexSplit.mem_splitDims hindex) htag (fun h => houter (hnames _ h))
      (fun h => hinner (hnames _ h)) ν env x

/-- Sums over the rows of a triangle. -/
def triangleRowsSource : String :=
  "domain [i, j] : 0 <= i < 5 and 0 <= j <= i\narg global float32 out[5]\n" ++
    "insn s: out[i] = sum(j, i*j)\n"

/-- A point of the triangle whose rows are taken in pairs. -/
def triangleRowsPoint : String → Int
  | "i_outer" | "i_inner" => 1
  | "j" => 2
  | _ => 0

/-- The rows of a triangle in pairs, of which the last one has a single row: every point is met
once, and at one of them the products that are summed up have the values that they had. -/
theorem points_values_splitIname_triangle :
    let A := Arithmetic.integers (fun _ => 0) 0 (fun _ _ _ => 0) fun _ _ => 0
    let ν : Valuation Int := ⟨fun _ => 0, fun _ _ => 0⟩
    ∃ k k', Source.load triangleRowsSource .fermi = .ok k ∧
      k.splitIname "i" 2 none none = .ok k' ∧ k'.domain.dims = ["i_outer", "i_inner", "j"] ∧
      Set.BijOn ((k.indexSplit "i" 2).original fun _ => 0) (k'.domain.pointsAt fun _ => 0)
        (k.domain.pointsAt fun _ => 0) ∧
      triangleRowsPoint ∈ k'.domain.pointsAt (fun _ => 0) ∧
      List.Forall₂ (Instruction.SameValues A
          (ν.withIndices A ["i", "j"]
            ((k.indexSplit "i" 2).original (fun _ => 0) triangleRowsPoint))
          (ν.withIndices A ["i_outer", "i_inner", "j"] triangleRowsPoint))
        k.instructions k'.instructions := by
  intro A ν
  obtain ⟨k, hload, k', hk, hdims, hdims', hholds, hdeclared⟩ :
      ∃ k, Source.load triangleRowsSource .fermi = .ok k ∧
        ∃ k', k.splitIname "i" 2 none none = .ok k' ∧ k.domain.dims = ["i", "j"] ∧
          k'.domain.dims = ["i_outer", "i_inner", "j"] ∧ k'.domain.Holds triangleRowsPoint ∧
          ∀ insn ∈ k.instructions, insn.Declared k := by decide +kernel
  obtain ⟨-, hpoints, hvalues⟩ := points_values_splitIname (Source.wellFormed_of_load hload)
    hdeclared hk (Arithmetic.integers_exact _ _ _ _ : A.Exact) ν fun _ => 0
  have hpoint : triangleRowsPoint ∈ k'.domain.pointsAt fun _ => 0 := by
    refine ⟨fun v hv => ?_, hholds⟩
    simp only [hdims', List.mem_cons, List.not_mem_nil, or_false, not_or] at hv
    unfold triangleRowsPoint
    split
    · exact absurd rfl hv.1
    · exact absurd rfl hv.2.1
    · exact absurd rfl hv.2.2
    · rfl
  have hsame := (hvalues _ hpoint).2.2
  rw [hdims, hdims'] at hsame
  exact ⟨k, k', hload, hk, hdims', hpoints, hpoint, hsame⟩

end Kernel

end LoopKernel
