import LoopKernel.Expr.Basic
import LoopKernel.Proofs.Checked
import LoopKernel.Proofs.SortedMap
import Mathlib.Logic.Basic

/-!
# Indices bound in expressions

The indices that the reductions of an expression bind, in the order in which a replacement of all
reductions comes to them: those of inner reductions first. What such a replacement does to a state
and to the bound indices follows from what it does at one reduction.
-/

namespace LoopKernel.Expr

mutual

/-- The indices that the reductions of an expression bind, those of inner reductions first. -/
def binders : Expr → List Binder
  | .int _ | .float _ | .var _ | .tagged _ _ => []
  | .subscript _ index => bindersOfAll index
  | .sum es | .product es => bindersOfAll es
  | .binary _ a b => a.binders ++ b.binders
  | .call _ args => bindersOfAll args
  | .reduction _ binders body => body.binders ++ binders

/-- The indices that the reductions of several expressions bind, in order. -/
def bindersOfAll : List Expr → List Binder
  | [] => []
  | e :: rest => e.binders ++ bindersOfAll rest

end

/-- Names bind nothing. -/
theorem bindersOfAll_map_var (names : List String) : bindersOfAll (names.map var) = [] := by
  induction names with
  | nil => rfl
  | cons _ _ ih => exact ih

/-! ## Building -/

theorem bindersOfAll_append (es fs : List Expr) :
    bindersOfAll (es ++ fs) = bindersOfAll es ++ bindersOfAll fs := by
  induction es with
  | nil => rfl
  | cons e rest ih => rw [List.cons_append, bindersOfAll, bindersOfAll, ih, List.append_assoc]

/-- A negation binds what its operand binds. -/
theorem binders_negate {e f : Expr} (h : e.negate = .ok f) : f.binders = e.binders := by
  unfold negate at h
  split at h
  · simp only [Attempt.bind_eq_ok, Attempt.pure_eq_ok] at h
    obtain ⟨_, -, rfl⟩ := h
    rfl
  · rw [Attempt.pure_eq_ok] at h
    rw [← h]
    rfl
  · rw [Attempt.pure_eq_ok] at h
    rw [← h]
    simp [binders, bindersOfAll]

/-- A sum binds what its operands bind. -/
theorem binders_add (e f : Expr) : (e.add f).binders = e.binders ++ f.binders := by
  unfold add
  split <;> simp [binders, bindersOfAll, bindersOfAll_append]

/-- A product binds what its operands bind. -/
theorem binders_mul (e f : Expr) : (e.mul f).binders = e.binders ++ f.binders := by
  unfold mul
  split <;> simp [binders, bindersOfAll, bindersOfAll_append]

/-! ## Substitution -/

/-- Values without bound indices are left when some names are no longer replaced. -/
private theorem binders_of_get?_foldl_erase {values : SortedMap String Expr}
    (h : ∀ name e, values.get? name = some e → e.binders = []) (names : List Binder) :
    ∀ name e, (names.foldl (fun m b => m.erase b.name) values).get? name = some e →
      e.binders = [] := by
  induction names generalizing values with
  | nil => exact h
  | cons b rest ih =>
    apply ih
    intro name e hget
    rw [SortedMap.get?_erase] at hget
    split at hget
    · cases hget
    · exact h name e hget

mutual

/-- Values that bind nothing leave the bound indices as they are. -/
theorem binders_substitute {values : SortedMap String Expr}
    (h : ∀ name e, values.get? name = some e → e.binders = []) :
    (e : Expr) → (e.substitute values).binders = e.binders
  | .int _ | .float _ | .tagged _ _ => rfl
  | .var name => by
    rw [substitute, SortedMap.getD]
    cases hget : values.get? name with
    | none => rfl
    | some e => exact h name e hget
  | .subscript _ index => bindersOfAll_substituteAll h index
  | .sum es | .product es => bindersOfAll_substituteAll h es
  | .binary _ a b => congrArg₂ (· ++ ·) (binders_substitute h a) (binders_substitute h b)
  | .call _ args => bindersOfAll_substituteAll h args
  | .reduction _ binders body =>
    congrArg (· ++ binders) (binders_substitute (binders_of_get?_foldl_erase h binders) body)

/-- Values that bind nothing leave the bound indices of several expressions as they are. -/
theorem bindersOfAll_substituteAll {values : SortedMap String Expr}
    (h : ∀ name e, values.get? name = some e → e.binders = []) :
    (es : List Expr) → bindersOfAll (substituteAll values es) = bindersOfAll es
  | [] => rfl
  | e :: rest => congrArg₂ (· ++ ·) (binders_substitute h e) (bindersOfAll_substituteAll h rest)

end

/-! ## Replacing reductions -/

/-- What one replacement of a reduction keeps up, as a relation between the state and the bound
indices before and after. -/
structure Tracks {σ : Type} (action : ReductionOp → List Binder → Expr → StateM σ Expr)
    (R : σ → List Binder → List Binder → σ → Prop) : Prop where
  nil : ∀ s, R s [] [] s
  append : ∀ {r s t : σ} {bs bs' cs cs' : List Binder}, R r bs bs' s → R s cs cs' t →
    R r (bs ++ cs) (bs' ++ cs') t
  reduction : ∀ {r s : σ} {bs : List Binder} (op : ReductionOp) (binders : List Binder)
    (body : Expr), R r bs body.binders s →
      R r (bs ++ binders) (action op binders body s).1.binders (action op binders body s).2

namespace Tracks

variable {σ : Type} {action : ReductionOp → List Binder → Expr → StateM σ Expr}
  {R : σ → List Binder → List Binder → σ → Prop}

mutual

/-- What one replacement keeps up is kept up over an expression. -/
theorem mapReductionsM (h : Tracks action R) : (e : Expr) → (s : σ) →
    R s e.binders (e.mapReductionsM action s).1.binders (e.mapReductionsM action s).2
  | .int _, s | .float _, s | .var _, s | .tagged _ _, s => h.nil s
  | .subscript _ index, s => h.mapReductionsAllM index s
  | .sum es, s | .product es, s => h.mapReductionsAllM es s
  | .binary _ a b, s => h.append (h.mapReductionsM a s) (h.mapReductionsM b _)
  | .call _ args, s => h.mapReductionsAllM args s
  | .reduction op binders body, s => h.reduction op binders _ (h.mapReductionsM body s)

/-- What one replacement keeps up is kept up over several expressions. -/
theorem mapReductionsAllM (h : Tracks action R) : (es : List Expr) → (s : σ) →
    R s (bindersOfAll es) (bindersOfAll (Expr.mapReductionsAllM action es s).1)
      (Expr.mapReductionsAllM action es s).2
  | [], s => h.nil s
  | e :: rest, s => h.append (h.mapReductionsM e s) (h.mapReductionsAllM rest _)

end

end Tracks

end LoopKernel.Expr
