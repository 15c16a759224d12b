import LoopKernel.Proofs.Checked
import LoopKernel.Proofs.NameSet
import LoopKernel.Reduction.Duplication
import LoopKernel.Reduction.Realization

/-!
# Kernels without reductions

Where no reduction is left, no index is copied, and realization makes no accumulators. It still
measures the lanes of every instruction, and forces on it all indices that it runs under.
-/

namespace LoopKernel

namespace Expr

variable {σ : Type} {action : ReductionOp → List Binder → Expr → StateM σ Expr}

mutual

/-- An expression without reductions has none to replace. -/
theorem mapReductionsM_eq_self : (e : Expr) → (s : σ) → e.containsReduction = false →
    e.mapReductionsM action s = (e, s)
  | .int _, _, _ | .float _, _, _ | .var _, _, _ | .tagged _ _, _, _ => rfl
  | .subscript aggregate es, s, h =>
    congrArg (Prod.map (Expr.subscript aggregate) id) (mapReductionsAllM_eq_self es s h)
  | .sum es, s, h => congrArg (Prod.map Expr.sum id) (mapReductionsAllM_eq_self es s h)
  | .product es, s, h => congrArg (Prod.map Expr.product id) (mapReductionsAllM_eq_self es s h)
  | .call function es, s, h =>
    congrArg (Prod.map (Expr.call function) id) (mapReductionsAllM_eq_self es s h)
  | .binary op a b, s, h => by
    rw [containsReduction, Bool.or_eq_false_iff] at h
    have ha := mapReductionsM_eq_self a s h.1
    have hb := mapReductionsM_eq_self b s h.2
    change (fun r t => (Expr.binary op r.1 (t r.2).1, (t r.2).2)) (a.mapReductionsM action s)
      (b.mapReductionsM action) = _
    simp only [ha, hb]
  | .reduction _ _ _, _, h => by cases h

/-- Several expressions without reductions have none to replace. -/
theorem mapReductionsAllM_eq_self : (es : List Expr) → (s : σ) → anyContainsReduction es = false →
    mapReductionsAllM action es s = (es, s)
  | [], _, _ => rfl
  | e :: es, s, h => by
    rw [anyContainsReduction, Bool.or_eq_false_iff] at h
    have he := mapReductionsM_eq_self e s h.1
    have hes := mapReductionsAllM_eq_self es s h.2
    change (fun r t => (r.1 :: (t r.2).1, (t r.2).2)) (e.mapReductionsM action s)
      (mapReductionsAllM action es) = _
    simp only [he, hes]

end

end Expr

namespace Kernel

/-- Whether no reduction is left in a kernel. -/
def IsReduced (k : Kernel) : Prop :=
  ∀ insn ∈ k.instructions,
    insn.expression.containsReduction = false ∧ insn.assignee.containsReduction = false

variable {k k' : Kernel} {inames : NameSet}

/-- Realization leaves no reduction. -/
theorem isReduced_of_realizeReduction (h : k.realizeReduction = .ok k') : k'.IsReduced := by
  rw [realizeReduction, Attempt.bind_eq_ok] at h
  obtain ⟨r, -, h⟩ := h
  dsimp only at h
  split at h
  · next hnone =>
    rw [Attempt.pure_eq_ok] at h
    subst h
    rw [unrealized, List.filter_eq_nil_iff] at hnone
    simpa [IsReduced] using hnone
  · simp at h

/-- No index is copied where there are no reductions. -/
theorem IsReduced.duplicateReductionInames (h : k.IsReduced) :
    k.duplicateReductionInames = .ok k := by
  have general : ∀ (insns : List Instruction) (taken : List String) (out : Kernel),
      (∀ insn ∈ insns, insn.expression.containsReduction = false) →
      k.duplicateIn insns taken out =
        .ok { out with instructions := out.instructions ++ insns } := by
    intro insns
    induction insns with
    | nil =>
      intro taken out _
      rw [duplicateIn, List.append_nil]
      rfl
    | cons insn rest ih =>
      intro taken out hinsns
      rw [List.forall_mem_cons] at hinsns
      have hself : insn.expression.mapReductionsM (Renaming.renameReduction k insn.id) ⟨taken, []⟩ =
          (insn.expression, ⟨taken, []⟩) := Expr.mapReductionsM_eq_self insn.expression _ hinsns.1
      rw [duplicateIn]
      simp only [StateT.run, hself, List.foldlM_nil, pure_bind]
      rw [ih _ _ hinsns.2, List.append_assoc]
      rfl
  rw [Kernel.duplicateReductionInames, general _ _ _ fun insn hinsn => (h insn hinsn).1]
  rfl

/-- The lanes of indices can be measured when each one has a length. -/
theorem exists_lanesOf_iff : (∃ lanes, k.lanesOf inames = .ok lanes) ↔
    ∀ n ∈ inames, k.tag n = .ilp → ∃ length, k.inameLength n = .ok length := by
  unfold lanesOf
  rw [Attempt.exists_mapM_iff]
  simp only [List.mem_filter, NameSet.mem_toList, beq_iff_eq, Attempt.bind_eq_ok,
    Attempt.pure_eq_ok]
  constructor
  · intro h n hn hilp
    obtain ⟨_, length, hlength, -⟩ := h n ⟨hn, hilp⟩
    exact ⟨length, hlength⟩
  · rintro h n ⟨hn, hilp⟩
    obtain ⟨length, hlength⟩ := h n hn hilp
    exact ⟨_, length, hlength, rfl⟩

/-- An instruction with all indices forced on it that it runs under in a kernel. -/
def forcing (k : Kernel) (insn : Instruction) : Instruction :=
  { insn with forcedInames := k.insnInames insn }

/-- The realization of an instruction without reductions measures its lanes and emits it with its
indices forced. -/
theorem realizeOwner_eq_ok_iff {r next : Realization} {insn : Instruction}
    (h : insn.expression.containsReduction = false) :
    k.realizeOwner r insn = .ok next ↔ (∃ lanes, k.lanesOf (k.insnInames insn) = .ok lanes) ∧
      next = ⟨r.temporaries, insn.id :: r.ids, r.emitted ++ [k.forcing insn], ∅⟩ := by
  have hself (owner : ReductionOwner) :
      insn.expression.mapReductionsM (Realization.realize k owner) { r with updates := ∅ } =
        (insn.expression, { r with updates := ∅ }) :=
    Expr.mapReductionsM_eq_self insn.expression _ h
  unfold realizeOwner
  simp only [Attempt.bind_eq_ok, StateT.run, hself, Attempt.pure_eq_ok]
  constructor
  · rintro ⟨lanes, hlanes, rfl⟩
    exact ⟨⟨lanes, hlanes⟩, rfl⟩
  · rintro ⟨⟨lanes, hlanes⟩, rfl⟩
    exact ⟨lanes, hlanes, rfl⟩

/-- The realization of a list of instructions without reductions. -/
theorem foldlM_realizeOwner {insns : List Instruction} {r : Realization}
    (h : ∀ insn ∈ insns, insn.expression.containsReduction = false) :
    (∀ next, insns.foldlM k.realizeOwner r = .ok next →
      next.temporaries = r.temporaries ∧ next.emitted = r.emitted ++ insns.map k.forcing) ∧
    ((∃ next, insns.foldlM k.realizeOwner r = .ok next) ↔
      ∀ insn ∈ insns, ∃ lanes, k.lanesOf (k.insnInames insn) = .ok lanes) := by
  induction insns generalizing r with
  | nil =>
    simp only [List.foldlM_nil, Attempt.pure_eq_ok, List.map_nil, List.append_nil]
    exact ⟨by rintro _ rfl; exact ⟨rfl, rfl⟩, by simp⟩
  | cons insn rest ih =>
    rw [List.forall_mem_cons] at h
    simp only [List.foldlM_cons, Attempt.bind_eq_ok, realizeOwner_eq_ok_iff h.1,
      List.forall_mem_cons]
    constructor
    · rintro next ⟨_, ⟨-, rfl⟩, hrest⟩
      obtain ⟨htemporaries, hemitted⟩ := (ih h.2).1 next hrest
      exact ⟨htemporaries, by rw [hemitted, List.map_cons, List.append_assoc]; rfl⟩
    · constructor
      · rintro ⟨next, _, ⟨hlanes, rfl⟩, hrest⟩
        exact ⟨hlanes, (ih h.2).2.mp ⟨next, hrest⟩⟩
      · rintro ⟨hlanes, hrest⟩
        obtain ⟨next, hnext⟩ := (ih h.2).2.mpr hrest
        exact ⟨next, _, ⟨hlanes, rfl⟩, hnext⟩

/-- Realization of a kernel without reductions measures lanes and forces indices. -/
theorem IsReduced.realizeReduction_eq_ok_iff (h : k.IsReduced) :
    k.realizeReduction = .ok k' ↔
      (∀ insn ∈ k.instructions, ∀ n ∈ k.insnInames insn, k.tag n = .ilp →
        ∃ length, k.inameLength n = .ok length) ∧
      k' = { k with instructions := k.instructions.map k.forcing } := by
  have hplain : ∀ insn ∈ k.instructions, insn.expression.containsReduction = false :=
    fun insn hinsn => (h insn hinsn).1
  obtain ⟨hspec, hlanes⟩ := foldlM_realizeOwner (r := ⟨∅, [], [], ∅⟩) hplain
  have hout :
      ({ k with instructions := k.instructions.map k.forcing } : Kernel).unrealized = [] := by
    rw [unrealized, List.filter_eq_nil_iff]
    intro insn hinsn
    obtain ⟨old, hold, rfl⟩ := List.mem_map.mp hinsn
    simp [forcing, h old hold]
  simp only [exists_lanesOf_iff] at hlanes
  rw [← hlanes, realizeReduction, Attempt.bind_eq_ok]
  constructor
  · rintro ⟨next, hnext, h⟩
    obtain ⟨htemporaries, hemitted⟩ := hspec next hnext
    simp only [htemporaries, hemitted, List.nil_append] at h
    rw [show (∅ : SortedMap String Temporary).entries = [] from rfl, List.foldl_nil, hout,
      Attempt.pure_eq_ok] at h
    exact ⟨⟨next, hnext⟩, h.symm⟩
  · rintro ⟨⟨next, hnext⟩, rfl⟩
    obtain ⟨htemporaries, hemitted⟩ := hspec next hnext
    refine ⟨next, hnext, ?_⟩
    simp only [htemporaries, hemitted, List.nil_append]
    rw [show (∅ : SortedMap String Temporary).entries = [] from rfl, List.foldl_nil, hout]
    rfl

end Kernel

end LoopKernel
