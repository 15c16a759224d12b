import LoopKernel.Kernel.Basic
import LoopKernel.Polyhedron.Points
import LoopKernel.Proofs.NameSet
import Mathlib.Algebra.BigOperators.Group.List.Basic
import Mathlib.Algebra.Ring.Int.Defs

/-!
# Values of expressions

The value that an expression has at a point of the loop indices. A reduction folds its operation
over the points that extend the present one by its own indices. What the operators do is a
parameter, and so is what a variable holds.
-/

namespace LoopKernel

/-! ## Points -/

namespace Point

/-- The loop indices that a point gives a value. -/
def names (p : Point) : NameSet := p.mapValues fun _ _ => ()

/-- The part of a point on some loop indices. -/
def restrict (p : Point) (s : NameSet) : Point := p.filter fun n _ => s.contains n

/-- The part of a point off some loop indices. -/
def without (p : Point) (s : NameSet) : Point := p.filter fun n _ => !s.contains n

/-- A point names the indices that it has a value for. -/
theorem mem_names {p : Point} {n : String} : n ∈ p.names ↔ ∃ x, p.get? n = some x := by
  change (p.mapValues fun _ _ => ()).contains n = true ↔ _
  rw [SortedMap.contains_iff]
  simp

/-- An index without a value is not named. -/
theorem not_mem_names {p : Point} {n : String} : n ∉ p.names ↔ p.get? n = none := by
  rw [mem_names]
  cases p.get? n <;> simp

/-- A restricted point keeps the values inside the set. -/
theorem get?_restrict (p : Point) (s : NameSet) (n : String) :
    (p.restrict s).get? n = if n ∈ s then p.get? n else none := by
  rw [restrict, SortedMap.get?_filter]
  by_cases h : n ∈ s
  · rw [if_pos h, NameSet.contains_iff.mpr h]
    cases p.get? n <;> rfl
  · rw [if_neg h, NameSet.contains_eq_false.mpr h]
    cases p.get? n <;> rfl

/-- Nothing is left of a point on no indices. -/
theorem restrict_empty (p : Point) : p.restrict ∅ = ∅ := by
  apply SortedMap.ext_get?
  intro n
  rw [get?_restrict, if_neg (NameSet.not_mem_empty n), SortedMap.get?_empty]

/-- A point without a set of indices keeps the values outside the set. -/
theorem get?_without (p : Point) (s : NameSet) (n : String) :
    (p.without s).get? n = if n ∈ s then none else p.get? n := by
  rw [without, SortedMap.get?_filter]
  by_cases h : n ∈ s
  · rw [if_pos h, NameSet.contains_iff.mpr h]
    cases p.get? n <;> rfl
  · rw [if_neg h, NameSet.contains_eq_false.mpr h]
    cases p.get? n <;> rfl

end Point

/-! ## Operators -/

/-- What the leaves and the operators of expressions do on values of some type. -/
structure Arithmetic (V : Type) where
  int : Int → V
  float : Binary64 → V
  /-- The constant named `INFINITY`. -/
  infinity : V
  sum : List V → V
  product : List V → V
  binary : BinaryOp → V → V → V
  call : String → List V → V

namespace Arithmetic

variable {V : Type}

/-- Exact integers: sums, products, `max` and `min` are those of mathematics, all else is open. -/
def integers (float : Binary64 → Int) (infinity : Int) (binary : BinaryOp → Int → Int → Int)
    (call : String → List Int → Int) : Arithmetic Int where
  int n := n
  float := float
  infinity := infinity
  sum := List.sum
  product := List.prod
  binary := binary
  call function args :=
    match function, args with
    | "max", [a, b] => max a b
    | "min", [a, b] => min a b
    | function, args => call function args

/-- One step of a reduction: its operation on what is accumulated and one more value. -/
def combine (A : Arithmetic V) (kind : ReductionKind) (accumulated value : V) : V :=
  match kind with
  | .sum => A.sum [accumulated, value]
  | .product => A.product [accumulated, value]
  | .max | .min => A.call kind.name [accumulated, value]

/-- The value that a reduction starts with. -/
def neutral (A : Arithmetic V) (op : ReductionOp) : V :=
  match op.kind, op.dtype.isFloat with
  | .sum, _ => A.int 0
  | .product, _ => A.int 1
  | .max, true => A.product [A.int (-1), A.infinity]
  | .min, true => A.infinity
  | .max, false => A.int op.dtype.integers.least
  | .min, false => A.int op.dtype.integers.greatest

/-- Values may be accumulated in any order. -/
def Reorders (A : Arithmetic V) : Prop :=
  ∀ kind, RightCommutative (A.combine kind)

/-- Sums, products, maxima and minima of exact integers do not depend on the order. -/
theorem integers_reorders (float : Binary64 → Int) (infinity : Int)
    (binary : BinaryOp → Int → Int → Int) (call : String → List Int → Int) :
    (integers float infinity binary call).Reorders := by
  intro kind
  constructor
  intro a b c
  cases kind with
  | sum => simp only [combine, integers, List.sum_cons, List.sum_nil]; omega
  | product =>
    simp only [combine, integers, List.prod_cons, List.prod_nil, Int.mul_one]
    exact Int.mul_right_comm a b c
  | max => simp only [combine, integers, ReductionKind.name]; omega
  | min => simp only [combine, integers, ReductionKind.name]; omega

end Arithmetic

/-! ## Expressions -/

/-- What a variable holds at a point: its value by name and index. -/
abbrev Reader (V : Type) := Point → String → List V → V

namespace Expr

variable {V : Type}

/-- The points that give some loop indices any values and agree with a point on all others. -/
def extensions (points : NameSet → List Point) (p : Point) (bound : NameSet) : List Point :=
  (points (p.names.union bound)).filter fun q =>
    q.names = p.names.union bound ∧ q.without bound = p.without bound

/-- The names that a list of binders binds. -/
def boundNames (binders : List Binder) : NameSet := NameSet.ofList (binders.map Binder.name)

/-- The value of a name or of an element of an array. A loop index of the point hides a variable of
the same name. -/
def readAt (A : Arithmetic V) (now : Reader V) (p : Point) (name : String) (index : List V) : V :=
  match p.get? name with
  | some n => A.int n
  | none => now p name index

/-- The value of a name that stands alone, where `INFINITY` is a constant. -/
def readName (A : Arithmetic V) (now : Reader V) (p : Point) (name : String) : V :=
  if p.get? name = none ∧ name = "INFINITY" then A.infinity else readAt A now p name []

variable (A : Arithmetic V) (points : NameSet → List Point)

mutual

/-- The value of an expression at a point. Variables hold what `now` says, except in reductions,
where they hold what `past` says. -/
def meaning (past : Reader V) : (now : Reader V) → (p : Point) → Expr → V
  | _, _, .int n => A.int n
  | _, _, .float x => A.float x
  | now, p, .var name | now, p, .tagged name _ => readName A now p name
  | now, p, .subscript aggregate index =>
    readAt A now p aggregate (meaningAll past now p index)
  | now, p, .sum es => A.sum (meaningAll past now p es)
  | now, p, .product es => A.product (meaningAll past now p es)
  | now, p, .binary op a b => A.binary op (a.meaning past now p) (b.meaning past now p)
  | now, p, .call function args => A.call function (meaningAll past now p args)
  | _, p, .reduction op binders body =>
    (extensions points p (boundNames binders)).foldl
      (fun total q => A.combine op.kind total (body.meaning past past q)) (A.neutral op)

/-- The values of several expressions. -/
def meaningAll (past : Reader V) : (now : Reader V) → (p : Point) → List Expr → List V
  | _, _, [] => []
  | now, p, e :: rest => e.meaning past now p :: meaningAll past now p rest

end

/-! ## What a value depends on -/

variable {A points}

/-- Two readers agree on a set of names, as far as a point does not hide them. -/
def AgreeOn (names : NameSet) (p : Point) (r s : Reader V) : Prop :=
  ∀ n ∈ names, n ∉ p.names → ∀ q index, r q n index = s q n index

private theorem readAt_congr {now now' : Reader V} {p : Point} {name : String} {index : List V}
    (h : name ∉ p.names → now p name index = now' p name index) :
    readAt A now p name index = readAt A now' p name index := by
  unfold readAt
  cases hp : p.get? name with
  | some n => rfl
  | none => exact h (Point.not_mem_names.mpr hp)

private theorem readName_congr {now now' : Reader V} {p : Point} {name : String}
    (h : name ∉ p.names → now p name [] = now' p name []) :
    readName A now p name = readName A now' p name := by
  unfold readName
  rw [readAt_congr h]

private theorem AgreeOn.mono {names names' : NameSet} {p : Point} {r s : Reader V}
    (h : AgreeOn names p r s) (hsub : ∀ n ∈ names', n ∈ names) : AgreeOn names' p r s :=
  fun n hn => h n (hsub n hn)

/-- Points of extensions have the expected names. -/
theorem names_of_mem_extensions {p q : Point} {bound : NameSet}
    (h : q ∈ extensions points p bound) : q.names = p.names.union bound := by
  unfold extensions at h
  rw [List.mem_filter, decide_eq_true_eq] at h
  exact h.2.1

mutual

/-- The value of an expression depends on its free names alone. -/
theorem meaning_congr {past past' now now' : Reader V} {p : Point} :
    (e : Expr) → AgreeOn e.dependencies p past past' → AgreeOn e.dependencies p now now' →
      e.meaning A points past now p = e.meaning A points past' now' p
  | .int _, _, _ => rfl
  | .float _, _, _ => rfl
  | .var name, _, hn => by
    simp only [meaning]
    exact readName_congr fun h => hn name (by simp [dependencies]) h p []
  | .tagged name _, _, hn => by
    simp only [meaning]
    exact readName_congr fun h => hn name (by simp [dependencies]) h p []
  | .subscript aggregate index, hp, hn => by
    have hsub : ∀ n ∈ dependenciesOfAll index, n ∈ (subscript aggregate index).dependencies := by
      intro n h
      simp [dependencies, h]
    simp only [meaning]
    rw [meaningAll_congr index (hp.mono hsub) (hn.mono hsub)]
    exact readAt_congr fun h => hn aggregate (by simp [dependencies]) h p _
  | .sum es, hp, hn => by
    simp only [meaning]
    rw [meaningAll_congr es hp hn]
  | .product es, hp, hn => by
    simp only [meaning]
    rw [meaningAll_congr es hp hn]
  | .binary op a b, hp, hn => by
    have ha : ∀ n ∈ a.dependencies, n ∈ (binary op a b).dependencies := by
      intro n h
      simp [dependencies, h]
    have hb : ∀ n ∈ b.dependencies, n ∈ (binary op a b).dependencies := by
      intro n h
      simp [dependencies, h]
    simp only [meaning]
    rw [meaning_congr a (hp.mono ha) (hn.mono ha), meaning_congr b (hp.mono hb) (hn.mono hb)]
  | .call _ args, hp, hn => by
    simp only [meaning]
    rw [meaningAll_congr args hp hn]
  | .reduction op binders body, hp, _ => by
    simp only [meaning]
    apply List.foldl_ext
    intro total q hq
    -- At an extended point the binders are among the names of the point, so only what is free in
    -- the whole is still looked up.
    have hq' : AgreeOn body.dependencies q past past' := by
      intro n hn hnq
      rw [names_of_mem_extensions hq, NameSet.mem_union, not_or] at hnq
      have hfree : n ∈ (reduction op binders body).dependencies := by
        rw [dependencies, NameSet.mem_diff]
        exact ⟨hn, hnq.2⟩
      exact hp n hfree hnq.1
    rw [meaning_congr body hq' hq']

/-- The values of several expressions depend on their free names alone. -/
theorem meaningAll_congr {past past' now now' : Reader V} {p : Point} :
    (es : List Expr) → AgreeOn (dependenciesOfAll es) p past past' →
      AgreeOn (dependenciesOfAll es) p now now' →
      meaningAll A points past now p es = meaningAll A points past' now' p es
  | [], _, _ => rfl
  | e :: rest, hp, hn => by
    have he : ∀ n ∈ e.dependencies, n ∈ dependenciesOfAll (e :: rest) := by
      intro n h
      simp [dependenciesOfAll, h]
    have hr : ∀ n ∈ dependenciesOfAll rest, n ∈ dependenciesOfAll (e :: rest) := by
      intro n h
      simp [dependenciesOfAll, h]
    simp only [meaningAll]
    rw [meaning_congr e (hp.mono he) (hn.mono he),
      meaningAll_congr rest (hp.mono hr) (hn.mono hr)]

end

end Expr

end LoopKernel
