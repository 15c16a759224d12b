import LoopKernel.Proofs.Execution.Plain
import LoopKernel.Proofs.Execution.Run

/-!
# Reductions in turn

The reductions of an instruction may also be taken at each point over the memory of that point, with
what the instruction has stored at the points before. This makes a difference only for reductions
that read the variable that their instruction assigns to.
-/

namespace LoopKernel

variable {V : Type}

namespace Expr

variable {A : Arithmetic V} {points : NameSet → List Point}

mutual

/-- The value of an expression depends on what its reductions see in the names that their bodies
mention. -/
theorem meaning_congr_past {past past' now : Reader V} {p : Point} : (e : Expr) →
    (∀ body ∈ e.reductionBodies, ∀ n ∈ body.dependencies, ∀ q index,
      past q n index = past' q n index) →
    e.meaning A points past now p = e.meaning A points past' now p
  | .int _, _ | .float _, _ | .var _, _ | .tagged _ _, _ => rfl
  | .subscript _ index, h => by
    simp only [meaning]
    rw [meaningAll_congr_past index h]
  | .sum es, h | .product es, h => by
    simp only [meaning]
    rw [meaningAll_congr_past es h]
  | .binary _ a b, h => by
    rw [reductionBodies, List.forall_mem_append] at h
    simp only [meaning]
    rw [meaning_congr_past a h.1, meaning_congr_past b h.2]
  | .call _ args, h => by
    simp only [meaning]
    rw [meaningAll_congr_past args h]
  | .reduction _ _ body, h => by
    rw [reductionBodies, List.forall_mem_cons] at h
    simp only [meaning]
    congr 1
    funext total q
    rw [meaning_congr body (fun n hn _ => h.1 n hn) fun n hn _ => h.1 n hn]

/-- The values of several expressions depend on what their reductions see in the names that the
bodies mention. -/
theorem meaningAll_congr_past {past past' now : Reader V} {p : Point} : (es : List Expr) →
    (∀ body ∈ reductionBodiesOfAll es, ∀ n ∈ body.dependencies, ∀ q index,
      past q n index = past' q n index) →
    meaningAll A points past now p es = meaningAll A points past' now p es
  | [], _ => rfl
  | e :: rest, h => by
    rw [reductionBodiesOfAll, List.forall_mem_append] at h
    simp only [meaningAll]
    rw [meaning_congr_past e h.1, meaningAll_congr_past rest h.2]

end

mutual

/-- Where no reduction is, there are no bodies of any. -/
theorem reductionBodies_eq_nil : (e : Expr) → e.containsReduction = false → e.reductionBodies = []
  | .int _, _ | .float _, _ | .var _, _ | .tagged _ _, _ => rfl
  | .subscript _ index, h => reductionBodiesOfAll_eq_nil index h
  | .sum es, h | .product es, h => reductionBodiesOfAll_eq_nil es h
  | .binary _ a b, h => by
    rw [containsReduction, Bool.or_eq_false_iff] at h
    rw [reductionBodies, reductionBodies_eq_nil a h.1, reductionBodies_eq_nil b h.2]
    rfl
  | .call _ args, h => reductionBodiesOfAll_eq_nil args h

/-- Where no reductions are, there are no bodies of any. -/
theorem reductionBodiesOfAll_eq_nil : (es : List Expr) → anyContainsReduction es = false →
    reductionBodiesOfAll es = []
  | [], _ => rfl
  | e :: rest, h => by
    rw [anyContainsReduction, Bool.or_eq_false_iff] at h
    rw [reductionBodiesOfAll, reductionBodies_eq_nil e h.1, reductionBodiesOfAll_eq_nil rest h.2]
    rfl

end

end Expr

namespace Instruction

variable {insn : Instruction} {M : Machine V}

/-- The stores of an instruction at a list of points, one point after the other, where its
reductions see the memory of their point. -/
noncomputable def storesInTurn (insn : Instruction) (M : Machine V) :
    Memory V → List Point → List (Store V)
  | _, [] => []
  | m, p :: rest =>
    insn.storeAt M m m p :: insn.storesInTurn M (m.write (insn.storeAt M m m p)) rest

/-- Whether no reduction of an instruction reads the variable that the instruction assigns to. -/
def ReducesOthers (insn : Instruction) : Prop :=
  ∀ body ∈ insn.expression.reductionBodies ++ Expr.reductionBodiesOfAll insn.targetIndex,
    insn.target ∉ body.dependencies

/-- An instruction without reductions reduces nothing. -/
theorem reducesOthers_of_containsReduction (hexpression : insn.expression.containsReduction = false)
    (hassignee : insn.assignee.containsReduction = false) : insn.ReducesOthers := by
  have hindex : Expr.reductionBodiesOfAll insn.targetIndex = [] := by
    unfold targetIndex
    split
    · next index heq =>
      rw [heq] at hassignee
      exact Expr.reductionBodiesOfAll_eq_nil index hassignee
    · rfl
  rw [ReducesOthers, Expr.reductionBodies_eq_nil _ hexpression, hindex]
  exact fun _ hbody => absurd hbody List.not_mem_nil

/-- Reductions that do not read what their instruction assigns to see the same at every point, as
long as nothing else is stored. -/
theorem storesFrom_eq_storesInTurn (h : insn.ReducesOthers) (start now : Memory V)
    (hnow : ∀ n, n ≠ insn.target → now n = start n) (l : List Point) :
    insn.storesFrom M start now l = insn.storesInTurn M now l := by
  induction l generalizing now with
  | nil => rfl
  | cons p rest ih =>
    have hsees : ∀ body ∈ insn.expression.reductionBodies ++
        Expr.reductionBodiesOfAll insn.targetIndex, ∀ n ∈ body.dependencies, ∀ q index,
          start.reader M.privateTo q n index = now.reader M.privateTo q n index := by
      intro body hbody n hn q index
      have hne : n ≠ insn.target := fun he => h body hbody (he ▸ hn)
      rw [Memory.reader, Memory.reader, hnow n hne]
    rw [List.forall_mem_append] at hsees
    have hstore : insn.storeAt M start now p = insn.storeAt M now now p := by
      unfold storeAt
      rw [Expr.meaning_congr_past _ hsees.1, Expr.meaningAll_congr_past _ hsees.2]
    rw [storesFrom, storesInTurn, hstore]
    refine congrArg _ (ih _ fun n hn => ?_)
    rw [Memory.write_other_name now _ hn, hnow n hn]

end Instruction

namespace Kernel

/-- The stores of a list of instructions, one instruction after the other, where reductions see the
memory of their point. -/
noncomputable def storesInTurnOf (k : Kernel) (M : Machine V) :
    Memory V → List Instruction → List (Store V)
  | _, [] => []
  | m, insn :: rest =>
    insn.storesInTurn M m (M.points (k.insnInames insn)) ++
      k.storesInTurnOf M (m.writeAll (insn.storesInTurn M m (M.points (k.insnInames insn)))) rest

/-- The stores of a run of a kernel in which reductions see the memory of their point. -/
noncomputable def storesInTurn (k : Kernel) (M : Machine V) (m : Memory V) : List (Store V) :=
  k.storesInTurnOf M m k.instructions

variable {k : Kernel}

/-- Instructions whose reductions do not read what they assign to may take them in turn. -/
theorem storesOf_eq_storesInTurnOf {M : Machine V} {insns : List Instruction}
    (h : ∀ insn ∈ insns, insn.ReducesOthers) (m : Memory V) :
    k.storesOf M m insns = k.storesInTurnOf M m insns := by
  induction insns generalizing m with
  | nil => rfl
  | cons insn rest ih =>
    rw [List.forall_mem_cons] at h
    have hinsn : insn.stores M (k.insnInames insn) m =
        insn.storesInTurn M m (M.points (k.insnInames insn)) :=
      Instruction.storesFrom_eq_storesInTurn h.1 m m (fun _ _ => rfl) _
    rw [storesOf, storesInTurnOf, hinsn, ih h.2]

end Kernel

end LoopKernel
