import LoopKernel.Proofs.Execution.Meaning
import LoopKernel.Proofs.Expr.Binders

/-!
# Values without points

An expression without reductions has a value as soon as the names in it have one. It is the same as
its value at a point when the names hold what is read at that point. With reductions there is no
value of this kind; the bodies of the reductions may have one each.
-/

namespace LoopKernel

variable {V : Type}

namespace Arithmetic

/-- Whether integers are added and multiplied exactly. -/
structure Exact (A : Arithmetic V) : Prop where
  sum : ∀ m n, A.sum [A.int m, A.int n] = A.int (m + n)
  product : ∀ m n, A.product [A.int m, A.int n] = A.int (m * n)

/-- Exact integers are added and multiplied exactly. -/
theorem integers_exact (float : Binary64 → Int) (infinity : Int)
    (binary : BinaryOp → Int → Int → Int) (call : String → List Int → Int) :
    (integers float infinity binary call).Exact :=
  ⟨fun _ _ => by simp [integers], fun _ _ => by simp [integers]⟩

end Arithmetic

/-- What names that stand alone hold, and the elements of arrays by name and index. -/
structure Valuation (V : Type) where
  scalar : String → V
  element : String → List V → V

namespace Valuation

/-- The valuation in which loop indices that stand alone have integer values. -/
def withIndices (ν : Valuation V) (A : Arithmetic V) (dims : List String) (x : String → Int) :
    Valuation V where
  scalar n := if n ∈ dims then A.int (x n) else ν.scalar n
  element := ν.element

/-- What a reader says at a point. -/
def ofReader (A : Arithmetic V) (now : Reader V) (p : Point) : Valuation V :=
  ⟨Expr.readName A now p, Expr.readAt A now p⟩

end Valuation

namespace Expr

variable {A : Arithmetic V}

/-! ## Values -/

mutual

/-- The value of an expression, if there is no reduction in it. -/
def value? (A : Arithmetic V) (ν : Valuation V) : Expr → Option V
  | .int n => some (A.int n)
  | .float x => some (A.float x)
  | .var name | .tagged name _ => some (ν.scalar name)
  | .subscript aggregate index => (values? A ν index).map (ν.element aggregate)
  | .sum es => (values? A ν es).map A.sum
  | .product es => (values? A ν es).map A.product
  | .binary op a b => do pure (A.binary op (← a.value? A ν) (← b.value? A ν))
  | .call function args => (values? A ν args).map (A.call function)
  | .reduction _ _ _ => none

/-- The values of several expressions, if there is no reduction in them. -/
def values? (A : Arithmetic V) (ν : Valuation V) : List Expr → Option (List V)
  | [] => some []
  | e :: rest => do pure ((← e.value? A ν) :: (← values? A ν rest))

end

mutual

/-- An expression without reductions has a value. -/
theorem exists_value? (ν : Valuation V) : (e : Expr) → e.containsReduction = false →
    ∃ v, e.value? A ν = some v
  | .int _, _ | .float _, _ | .var _, _ | .tagged _ _, _ => ⟨_, rfl⟩
  | .subscript _ index, h => by
    obtain ⟨vs, hvs⟩ := exists_values? ν index h
    exact ⟨_, by rw [value?, hvs, Option.map_some]⟩
  | .sum es, h | .product es, h => by
    obtain ⟨vs, hvs⟩ := exists_values? ν es h
    exact ⟨_, by rw [value?, hvs, Option.map_some]⟩
  | .binary _ a b, h => by
    rw [containsReduction, Bool.or_eq_false_iff] at h
    obtain ⟨x, hx⟩ := exists_value? ν a h.1
    obtain ⟨y, hy⟩ := exists_value? ν b h.2
    exact ⟨_, by rw [value?, hx, hy]; rfl⟩
  | .call _ args, h => by
    obtain ⟨vs, hvs⟩ := exists_values? ν args h
    exact ⟨_, by rw [value?, hvs, Option.map_some]⟩

/-- Several expressions without reductions have values. -/
theorem exists_values? (ν : Valuation V) : (es : List Expr) → anyContainsReduction es = false →
    ∃ vs, values? A ν es = some vs
  | [], _ => ⟨_, rfl⟩
  | e :: rest, h => by
    rw [anyContainsReduction, Bool.or_eq_false_iff] at h
    obtain ⟨v, hv⟩ := exists_value? ν e h.1
    obtain ⟨vs, hvs⟩ := exists_values? ν rest h.2
    exact ⟨_, by rw [values?, hv, hvs]; rfl⟩

end

mutual

/-- The value without points is the value at a point, for what is read there. -/
theorem meaning_of_value? {points : NameSet → List Point} {past now : Reader V} {p : Point} :
    (e : Expr) → {v : V} → e.value? A (.ofReader A now p) = some v →
      e.meaning A points past now p = v
  | .int _, _, h | .float _, _, h | .var _, _, h | .tagged _ _, _, h => Option.some.inj h
  | .subscript aggregate index, _, h => by
    obtain ⟨vs, hvs, rfl⟩ := Option.map_eq_some_iff.mp h
    rw [meaning, meaningAll_of_values? index hvs]
    rfl
  | .sum es, _, h | .product es, _, h => by
    obtain ⟨vs, hvs, rfl⟩ := Option.map_eq_some_iff.mp h
    rw [meaning, meaningAll_of_values? es hvs]
  | .binary _ a b, _, h => by
    obtain ⟨x, hx, h⟩ := Option.bind_eq_some_iff.mp h
    obtain ⟨y, hy, h⟩ := Option.bind_eq_some_iff.mp h
    rw [meaning, meaning_of_value? a hx, meaning_of_value? b hy]
    exact Option.some.inj h
  | .call _ args, _, h => by
    obtain ⟨vs, hvs, rfl⟩ := Option.map_eq_some_iff.mp h
    rw [meaning, meaningAll_of_values? args hvs]

/-- The values without points are the values at a point, for what is read there. -/
theorem meaningAll_of_values? {points : NameSet → List Point} {past now : Reader V} {p : Point} :
    (es : List Expr) → {vs : List V} → values? A (.ofReader A now p) es = some vs →
      meaningAll A points past now p es = vs
  | [], _, h => Option.some.inj h
  | e :: rest, _, h => by
    obtain ⟨v, hv, h⟩ := Option.bind_eq_some_iff.mp h
    obtain ⟨vs, hvs, h⟩ := Option.bind_eq_some_iff.mp h
    rw [meaningAll, meaning_of_value? e hv, meaningAll_of_values? rest hvs]
    exact Option.some.inj h

end

/-! ## Tags -/

mutual

/-- Whether a name with a tag occurs in an expression. -/
def containsTag : Expr → Bool
  | .int _ | .float _ | .var _ => false
  | .tagged _ _ => true
  | .subscript _ index => anyContainsTag index
  | .sum es | .product es => anyContainsTag es
  | .binary _ a b => a.containsTag || b.containsTag
  | .call _ args => anyContainsTag args
  | .reduction _ _ body => body.containsTag

/-- Whether a name with a tag occurs in one of several expressions. -/
def anyContainsTag : List Expr → Bool
  | [] => false
  | e :: rest => e.containsTag || anyContainsTag rest

end

/-! ## Bodies of reductions -/

/-- The free names of several expressions are those of each. -/
theorem mem_dependenciesOfAll {es : List Expr} {n : String} :
    n ∈ dependenciesOfAll es ↔ ∃ e ∈ es, n ∈ e.dependencies := by
  induction es with
  | nil => simp [dependenciesOfAll]
  | cons e rest ih => rw [dependenciesOfAll, NameSet.mem_union, ih, List.exists_mem_cons_iff]

mutual

/-- The bodies of all reductions in an expression, outer ones before those in them. -/
def reductionBodies : Expr → List Expr
  | .int _ | .float _ | .var _ | .tagged _ _ => []
  | .subscript _ index => reductionBodiesOfAll index
  | .sum es | .product es => reductionBodiesOfAll es
  | .binary _ a b => a.reductionBodies ++ b.reductionBodies
  | .call _ args => reductionBodiesOfAll args
  | .reduction _ _ body => body :: body.reductionBodies

/-- The bodies of all reductions in several expressions, in order. -/
def reductionBodiesOfAll : List Expr → List Expr
  | [] => []
  | e :: rest => e.reductionBodies ++ reductionBodiesOfAll rest

end

mutual

/-- A free name of the body of a reduction is free in the whole expression or bound in it. -/
theorem of_mem_reductionBodies {body : Expr} {n : String} (hn : n ∈ body.dependencies) :
    (e : Expr) → body ∈ e.reductionBodies → n ∈ e.dependencies ∨ ∃ b ∈ e.binders, b.name = n
  | .subscript _ index, h => by
    rw [dependencies, NameSet.mem_add]
    exact (of_mem_reductionBodiesOfAll hn index h).imp_left .inr
  | .sum es, h | .product es, h => of_mem_reductionBodiesOfAll hn es h
  | .binary _ a b, h => by
    rw [dependencies, NameSet.mem_union, binders]
    rcases List.mem_append.mp h with h | h
    · exact (of_mem_reductionBodies hn a h).imp .inl
        fun ⟨c, hc, he⟩ => ⟨c, List.mem_append_left _ hc, he⟩
    · exact (of_mem_reductionBodies hn b h).imp .inr
        fun ⟨c, hc, he⟩ => ⟨c, List.mem_append_right _ hc, he⟩
  | .call _ args, h => of_mem_reductionBodiesOfAll hn args h
  | .reduction _ bound inner, h => by
    have hinner : n ∈ inner.dependencies ∨ ∃ b ∈ inner.binders, b.name = n := by
      rcases List.mem_cons.mp h with rfl | h
      · exact .inl hn
      · exact of_mem_reductionBodies hn inner h
    rw [dependencies, NameSet.mem_diff, NameSet.mem_ofList, binders]
    rcases hinner with hfree | ⟨b, hb, he⟩
    · by_cases hbound : n ∈ bound.map Binder.name
      · obtain ⟨b, hb, he⟩ := List.mem_map.mp hbound
        exact .inr ⟨b, List.mem_append_right _ hb, he⟩
      · exact .inl ⟨hfree, hbound⟩
    · exact .inr ⟨b, List.mem_append_left _ hb, he⟩

/-- A free name of the body of a reduction in several expressions is free or bound in them. -/
theorem of_mem_reductionBodiesOfAll {body : Expr} {n : String} (hn : n ∈ body.dependencies) :
    (es : List Expr) → body ∈ reductionBodiesOfAll es →
      n ∈ dependenciesOfAll es ∨ ∃ b ∈ bindersOfAll es, b.name = n
  | e :: rest, h => by
    rw [dependenciesOfAll, NameSet.mem_union, bindersOfAll]
    rcases List.mem_append.mp h with h | h
    · exact (of_mem_reductionBodies hn e h).imp .inl
        fun ⟨c, hc, he⟩ => ⟨c, List.mem_append_left _ hc, he⟩
    · exact (of_mem_reductionBodiesOfAll hn rest h).imp .inr
        fun ⟨c, hc, he⟩ => ⟨c, List.mem_append_right _ hc, he⟩

end

end Expr

end LoopKernel
