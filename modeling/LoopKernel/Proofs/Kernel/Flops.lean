import LoopKernel.Kernel.Flops
import LoopKernel.Proofs.Polyhedron.Summation

/-!
# Operation counts without parameters

Without parameters, the operation count of a kernel is a constant. For each instruction it adds up
the operations at the points that are listed for it and, on top of that, the operations times the
values of the chambers that the count of these points does not meet.
-/

namespace LoopKernel

namespace Expr

/-- The operations of an expression apart from those of its parts: one for each term or factor after
the first, and one for each operation with two operands. -/
def ownOperations : Expr → Nat
  | .sum es | .product es => es.length - 1
  | .binary _ _ _ => 1
  | .int _ | .float _ | .var _ | .tagged _ _ | .subscript _ _ | .call _ _ | .reduction _ _ _ => 0

mutual

/-- The parts of an expression, itself included, that are outside of all reductions. -/
def outsideReductions : Expr → List Expr
  | .int n => [.int n]
  | .float x => [.float x]
  | .var name => [.var name]
  | .tagged name tag => [.tagged name tag]
  | .subscript aggregate index => .subscript aggregate index :: outsideReductionsOfAll index
  | .sum es => .sum es :: outsideReductionsOfAll es
  | .product es => .product es :: outsideReductionsOfAll es
  | .binary op a b => .binary op a b :: (a.outsideReductions ++ b.outsideReductions)
  | .call function args => .call function args :: outsideReductionsOfAll args
  | .reduction _ _ _ => []

/-- The parts of several expressions that are outside of all reductions. -/
def outsideReductionsOfAll : List Expr → List Expr
  | [] => []
  | e :: rest => e.outsideReductions ++ outsideReductionsOfAll rest

end

mutual

/-- The operations of an expression are those of its parts outside of reductions. -/
theorem operations_eq_sum : (e : Expr) →
    e.operations = (e.outsideReductions.map ownOperations).sum
  | .int _ | .float _ | .var _ | .tagged _ _ | .reduction _ _ _ => rfl
  | .subscript _ index => by
    rw [operations, outsideReductions, List.map_cons, List.sum_cons, ← operationsOfAll_eq_sum index,
      ownOperations, Nat.zero_add]
  | .sum es | .product es => by
    rw [operations, outsideReductions, List.map_cons, List.sum_cons, ← operationsOfAll_eq_sum es,
      ownOperations]
  | .binary _ a b => by
    rw [operations, outsideReductions, List.map_cons, List.sum_cons, List.map_append,
      List.sum_append, ← operations_eq_sum a, ← operations_eq_sum b, ownOperations, Nat.add_assoc]
  | .call _ args => by
    rw [operations, outsideReductions, List.map_cons, List.sum_cons, ← operationsOfAll_eq_sum args,
      ownOperations, Nat.zero_add]

/-- The operations of several expressions are those of their parts outside of reductions. -/
theorem operationsOfAll_eq_sum : (es : List Expr) →
    operationsOfAll es = ((outsideReductionsOfAll es).map ownOperations).sum
  | [] => rfl
  | e :: rest => by
    rw [operationsOfAll, outsideReductionsOfAll, List.map_append, List.sum_append,
      ← operations_eq_sum e, ← operationsOfAll_eq_sum rest]

end

end Expr

namespace Kernel

open Polyhedron (strayValue)

/-- The operations of an instruction times some number of the domain that the instruction runs over.
Without operations there is nothing to multiply. -/
def flopsTimes (k : Kernel) (number : Polyhedron → Attempt PolyhedronError Rat)
    (insn : Instruction) : Attempt PolyhedronError Rat :=
  let operations := (insn.expression.outsideReductions.map Expr.ownOperations).sum
  if operations = 0 then pure 0
  else do
    let projection ← k.domain.eliminateExcept (k.insnInames insn)
    pure (operations * (← number projection))

/-- How many points are listed, without parameters. -/
def listedPoints (s : Polyhedron) : Attempt PolyhedronError Rat := do
  pure (← s.enumeratePoints fun _ => none).length

/-- What the chambers that are not met contribute to a count, without parameters. -/
def strayPoints (s : Polyhedron) : Attempt PolyhedronError Rat := do
  pure (strayValue (← s.chambers) fun _ => 0)

variable {k : Kernel} {insn : Instruction} {total next p : Polynomial}

section Counts

variable (hparams : k.domain.params = ∅) (hproper : ∀ c ∈ k.domain.constraints, c.form.Proper)
  {x : String → Int} (hx : k.domain.Holds x)

include hparams hproper hx

/-- One instruction adds its operations at the points listed for it, and those of the chambers that
are not met. -/
theorem addFlops_without_params (hfits : WordRange.signed64.Holds insn.expression.operations)
    (hsafe : (k.flopsTimes listedPoints insn).Safe) (h : k.addFlops total insn = .ok next) :
    ∃ listed stray, k.flopsTimes listedPoints insn = .ok listed ∧
      k.flopsTimes strayPoints insn = .ok stray ∧
      (total.Over (fun _ => False) → next.Over fun _ => False) ∧
      ∀ env, next.value env = total.value env + (listed + stray) := by
  simp only [addFlops] at h
  simp only [flopsTimes, ← Expr.operations_eq_sum] at hsafe ⊢
  by_cases hnone : insn.expression.operations = 0
  · rw [if_pos hnone, Attempt.pure_eq_ok] at h
    rw [if_pos hnone, if_pos hnone, ← h]
    exact ⟨0, 0, rfl, rfl, id, fun env => by simp⟩
  · rw [if_neg hnone] at h hsafe ⊢
    rw [if_neg hnone]
    have hfactor : min (insn.expression.operations : Int) WordRange.signed64.greatest =
        insn.expression.operations := min_eq_left hfits.2
    simp only [points, Attempt.bind_eq_ok, Attempt.mapCause_eq_ok, Attempt.liftM_eq_ok, hfactor]
      at h
    obtain ⟨count, ⟨projection, hprojection, hcount⟩, scaled, hscaled, hnext⟩ := h
    simp only [listedPoints, Attempt.safe_bind, Attempt.liftM_eq_ok] at hsafe
    have hsafe := (hsafe.2 projection hprojection).1.1
    have hall := Polyhedron.eliminate_holds_of_holds hprojection hx
    obtain ⟨listed, chambers, hlisted, hchambers, rfl⟩ := Polyhedron.cardinality_without_params
      (Polyhedron.over_dims_eliminate (Polyhedron.over_dims hparams) hprojection)
      (Polyhedron.proper_eliminate hproper hprojection) hall hcount hsafe
    refine ⟨insn.expression.operations * listed.length,
      insn.expression.operations * strayValue chambers fun _ => 0, ?_, ?_, fun htotal => ?_,
      fun env => ?_⟩
    · simp only [listedPoints, Attempt.bind_eq_ok, Attempt.liftM_eq_ok, Attempt.pure_eq_ok]
      exact ⟨projection, hprojection, _, ⟨listed, hlisted, rfl⟩, rfl⟩
    · simp only [strayPoints, Attempt.bind_eq_ok, Attempt.liftM_eq_ok, Attempt.pure_eq_ok]
      exact ⟨projection, hprojection, _, ⟨chambers, hchambers, rfl⟩, rfl⟩
    · exact Polynomial.over_add htotal
        (Polynomial.over_scale Polynomial.over_constant hscaled) hnext
    · rw [Polynomial.value_add env hnext, Polynomial.value_scale env hscaled,
        Polynomial.value_constant]
      push_cast
      ring

/-- Several instructions add what each of them adds. -/
private theorem foldlM_addFlops {insns : List Instruction}
    (hfits : ∀ insn ∈ insns, WordRange.signed64.Holds insn.expression.operations)
    (hsafe : ∀ insn ∈ insns, (k.flopsTimes listedPoints insn).Safe)
    (htotal : total.Over fun _ => False) (h : insns.foldlM k.addFlops total = .ok p) :
    ∃ listed stray, insns.mapM (k.flopsTimes listedPoints) = .ok listed ∧
      insns.mapM (k.flopsTimes strayPoints) = .ok stray ∧ p.Over (fun _ => False) ∧
      ∀ env, p.value env = total.value env + (listed.sum + stray.sum) := by
  induction insns generalizing total with
  | nil =>
    rw [List.foldlM_nil, Attempt.pure_eq_ok] at h
    exact ⟨[], [], rfl, rfl, h ▸ htotal, fun env => by simp [h]⟩
  | cons insn rest ih =>
    rw [List.foldlM_cons, Attempt.bind_eq_ok] at h
    obtain ⟨next, hnext, h⟩ := h
    rw [List.forall_mem_cons] at hfits hsafe
    obtain ⟨here, strayHere, hhere, hstrayHere, hover, hvalue⟩ :=
      addFlops_without_params hparams hproper hx hfits.1 hsafe.1 hnext
    obtain ⟨listed, stray, hlisted, hstray, hpOver, hpValue⟩ :=
      ih hfits.2 hsafe.2 (hover htotal) h
    refine ⟨here :: listed, strayHere :: stray, ?_, ?_, hpOver, fun env => ?_⟩
    · rw [List.mapM_cons, hhere, hlisted]
      rfl
    · rw [List.mapM_cons, hstrayHere, hstray]
      rfl
    · rw [hpValue, hvalue, List.sum_cons, List.sum_cons]
      ring

omit hx in
/-- Without parameters, and where there is a point, an operation count is a constant: the operations
of each instruction times the number of points that are listed for it, plus the operations times the
values of the chambers that are not met. It is the first sum alone exactly if the second one is
zero. -/
theorem flops_without_params (hpoint : ∃ x, k.domain.Holds x)
    (hfits : ∀ insn ∈ k.instructions, WordRange.signed64.Holds insn.expression.operations)
    (hsafe : ∀ insn ∈ k.instructions, (k.flopsTimes listedPoints insn).Safe)
    (h : k.flops = .ok p) :
    ∃ listed stray, k.instructions.mapM (k.flopsTimes listedPoints) = .ok listed ∧
      k.instructions.mapM (k.flopsTimes strayPoints) = .ok stray ∧
      p = .constant (listed.sum + stray.sum) ∧ (p = .constant listed.sum ↔ stray.sum = 0) := by
  obtain ⟨x, hx⟩ := hpoint
  obtain ⟨listed, stray, hlisted, hstray, hover, hvalue⟩ :=
    foldlM_addFlops hparams hproper hx hfits hsafe Polynomial.over_zero h
  have hconstant : p = .constant (listed.sum + stray.sum) := by
    rw [hover.eq_constant, hvalue, Polynomial.value_zero, zero_add]
  refine ⟨listed, stray, hlisted, hstray, hconstant, fun hp => ?_, fun hzero => ?_⟩
  · have hsame := hvalue fun _ => 0
    rw [hp, Polynomial.value_constant, Polynomial.value_zero, zero_add] at hsame
    linarith
  · rw [hconstant, hzero, add_zero]

end Counts

/-- One addition at the integer points with `4 ≤ 3 * h + i ≤ 5` and `0 ≤ j ≤ 1`, `j ≤ i`. The bounds
of `j` are cut along `i - 1`; on one side of the cut, `3 * h` would be at least four and at most
five. -/
def cutOffMultiples : Kernel where
  name := "kernel"
  domain := ⟨["h", "i", "j"], [
    ⟨.inequality, ⟨.ofList [("h", 1)], 0⟩⟩,
    ⟨.inequality, ⟨.ofList [("i", 1)], 0⟩⟩,
    ⟨.inequality, ⟨.ofList [("h", 3), ("i", 1)], -4⟩⟩,
    ⟨.inequality, ⟨.ofList [("h", -3), ("i", -1)], 5⟩⟩,
    ⟨.inequality, ⟨.ofList [("j", 1)], 0⟩⟩,
    ⟨.inequality, ⟨.ofList [("j", -1)], 1⟩⟩,
    ⟨.inequality, ⟨.ofList [("i", 1), ("j", -1)], 0⟩⟩]⟩
  instructions := [.assign "s" (.subscript "out" [.var "h"]) (.sum [.var "i", .var "j"])]
  args := [⟨"out", .float32, .global [.int 2]⟩]
  temporaries := ∅
  tags := ∅
  device := .fermi
  schedule := none

/-- Eight points are listed for the addition, but the count is thirty-five: twenty-seven come from a
chamber that is not met. -/
theorem flops_without_params_cutOffMultiples :
    ∃ p listed stray, cutOffMultiples.flops = .ok p ∧ p = .constant 35 ∧
      cutOffMultiples.instructions.mapM (cutOffMultiples.flopsTimes listedPoints) = .ok listed ∧
      cutOffMultiples.instructions.mapM (cutOffMultiples.flopsTimes strayPoints) = .ok stray ∧
      listed.sum = 8 ∧ stray.sum = 27 := by
  obtain ⟨p, hp, hconstant⟩ : ∃ p, cutOffMultiples.flops = .ok p ∧ p = .constant 35 :=
    ⟨_, by cbv, by cbv⟩
  have hpoint : ∃ x, cutOffMultiples.domain.Holds x :=
    ⟨fun v => if v = "j" then 0 else 1, by decide⟩
  obtain ⟨listed, stray, hlisted, hstray, hsum, -⟩ := flops_without_params (by decide +kernel)
    (by decide) hpoint (by decide) (by decide +kernel) hp
  obtain ⟨_, hlisted', height⟩ : ∃ listed, cutOffMultiples.instructions.mapM
      (cutOffMultiples.flopsTimes listedPoints) = .ok listed ∧ listed.sum = 8 := by decide +kernel
  have hlistedSum : listed.sum = 8 := Except.ok.inj (hlisted.symm.trans hlisted') ▸ height
  have hvalue := congrArg (Polynomial.value fun _ => 0) (hconstant.symm.trans hsum)
  rw [Polynomial.value_constant, Polynomial.value_constant, hlistedSum] at hvalue
  exact ⟨p, listed, stray, hp, hconstant, hlisted, hstray, hlistedSum, by linarith⟩

end Kernel

end LoopKernel
