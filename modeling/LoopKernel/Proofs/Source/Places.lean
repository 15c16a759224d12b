import LoopKernel.Proofs.Checked
import LoopKernel.Source.Loading

/-!
# Sources without places

Trees and statements with all places forgotten, and that nothing but the places in what is reported
depends on them: building a kernel from statements without places gives the same kernel, and the
same problems without places.
-/

namespace LoopKernel

/-! ## Forgetting places -/

/-- The place that stands for all places. -/
def Span.nowhere : Span := ⟨0, 0⟩

/-- A subject without its place in the source. -/
def Subject.unplaced : Subject → Subject
  | .source _ => .source .nowhere
  | s => s

/-- A diagnostic without places in the source. -/
def Diagnostic.unplaced (d : Diagnostic) : Diagnostic :=
  ⟨d.problem, d.subject.unplaced, d.related.map fun r => ⟨r.subject.unplaced, r.label⟩⟩

theorem Diagnostic.unplaced_relatedTo (d : Diagnostic) (s : Subject) (label : String) :
    (d.relatedTo s label).unplaced = d.unplaced.relatedTo s.unplaced label := by
  simp [unplaced, relatedTo]

namespace Source

/-- A name without its place. -/
def Ident.unplaced (id : Ident) : Ident := ⟨id.name, .nowhere⟩

/-- A bound index without its place. -/
def BoundIndex.unplaced (b : BoundIndex) : BoundIndex := ⟨b.index.unplaced, b.marked⟩

mutual

/-- A tree without places. -/
def Term.unplaced : Term → Term
  | .int _ n => .int .nowhere n
  | .float _ x => .float .nowhere x
  | .var _ name => .var .nowhere name
  | .tagged _ name tag => .tagged .nowhere name tag
  | .subscript _ aggregate index =>
    .subscript .nowhere aggregate.unplaced (Term.allUnplaced index)
  | .neg _ operand => .neg .nowhere operand.unplaced
  | .binary _ op left right => .binary .nowhere op left.unplaced right.unplaced
  | .call _ function args => .call .nowhere function.unplaced (Term.allUnplaced args)
  | .reduce _ op _ indices body =>
    .reduce .nowhere op .nowhere (indices.map BoundIndex.unplaced) body.unplaced

/-- Several trees without places. -/
def Term.allUnplaced : List Term → List Term
  | [] => []
  | t :: rest => t.unplaced :: Term.allUnplaced rest

end

theorem Term.allUnplaced_eq_map (ts : List Term) : Term.allUnplaced ts = ts.map Term.unplaced := by
  induction ts with
  | nil => rfl
  | cons t rest ih => rw [allUnplaced, ih, List.map_cons]

theorem Term.span_unplaced (t : Term) : t.unplaced.span = .nowhere := by cases t <;> rfl

theorem join_unplaced (op : Operator) (left right : Term) :
    (join op left right).unplaced = join op left.unplaced right.unplaced := by
  rw [join, join, Term.unplaced, Term.span_unplaced, Term.span_unplaced]
  rfl

theorem tower_unplaced (base : Term) (exponents : List Term) :
    (tower base exponents).unplaced = tower base.unplaced (exponents.map Term.unplaced) := by
  induction exponents generalizing base with
  | nil => rfl
  | cons e rest ih => rw [tower, join_unplaced, ih, List.map_cons, tower]

theorem foldl_join_unplaced (first : Term) (rest : List (Operator × Term)) :
    (rest.foldl (fun left (op, right) => join op left right) first).unplaced =
      (rest.map (Prod.map id Term.unplaced)).foldl (fun left (op, right) => join op left right)
        first.unplaced := by
  induction rest generalizing first with
  | nil => rfl
  | cons item rest ih =>
    rw [List.foldl_cons, ih, List.map_cons, List.foldl_cons, join_unplaced]
    rfl

/-- Of the signs before an operand, only their number shows. -/
theorem foldr_neg_unplaced (signs : List Span) (operand : Term) :
    (signs.foldr (fun sign e => .neg (sign.through e.span) e) operand).unplaced =
      (signs.map fun _ => ()).foldr (fun _ e => .neg .nowhere e) operand.unplaced := by
  induction signs with
  | nil => rfl
  | cons sign rest ih => rw [List.foldr_cons, Term.unplaced, ih, List.map_cons, List.foldr_cons]

/-- A chain without places. -/
def Chain.unplaced (c : Chain) : Chain :=
  ⟨c.first.unplaced, c.rest.map (Prod.map id Term.unplaced), .nowhere⟩

/-- What an argument statement declares, without places. -/
def ArgumentForm.unplaced : ArgumentForm → ArgumentForm
  | .global shape => .global (shape.map Term.unplaced)
  | .image shape => .image (shape.map Term.unplaced)
  | .scalar approximately _ => .scalar approximately .nowhere

/-- A tag entry without places. -/
def TagEntry.unplaced (e : TagEntry) : TagEntry := ⟨e.iname.unplaced, e.tag, .nowhere⟩

/-- An instruction statement without places. -/
def InsnStatement.unplaced (s : InsnStatement) : InsnStatement :=
  ⟨s.id.map Ident.unplaced, s.assignee.unplaced, s.expression.unplaced,
    s.deps.map Ident.unplaced, s.inames.map Ident.unplaced⟩

/-- What a statement says, without places. -/
def StatementBody.unplaced : StatementBody → StatementBody
  | .kernel name => .kernel name.unplaced
  | .set name value _ => .set name.unplaced value .nowhere
  | .domain dims chains => .domain (dims.map Ident.unplaced) (chains.map Chain.unplaced)
  | .arg form dtype name => .arg form.unplaced dtype.unplaced name.unplaced
  | .temp dtype name shape => .temp dtype.unplaced name.unplaced (shape.map Term.unplaced)
  | .tag entries => .tag (entries.map TagEntry.unplaced)
  | .insn statement => .insn statement.unplaced

/-- A statement without places. -/
def Statement.unplaced (s : Statement) : Statement := ⟨s.body.unplaced, .nowhere⟩

end Source

/-! ## Failures -/

namespace Attempt

variable {ε δ α β : Type}

theorem mapCause_bind (x : Attempt ε α) (f : α → Attempt ε β) (g : ε → δ) :
    (x >>= f).mapCause g = x.mapCause g >>= fun a => (f a).mapCause g := by
  rcases x with (_ | e) | _ <;> rfl

theorem mapCause_liftM (x : Checked α) (g : ε → δ) :
    (liftM x : Attempt ε α).mapCause g = liftM x := by
  rcases x with (_ | e) | _
  · rfl
  · exact e.elim
  · rfl

theorem caught_mapCause (x : Attempt ε α) (g : ε → δ) :
    (x.mapCause g).caught = Except.mapError g <$> x.caught := by
  rcases x with (_ | e) | _ <;> rfl

theorem toOption_mapCause (x : Attempt ε α) (g : ε → δ) :
    (x.mapCause g).toOption = x.toOption := by
  rcases x with (_ | e) | _ <;> rfl

end Attempt

namespace Source

/-! ## Lowering -/

theorem lowerIndices_unplaced (scope : Scope) (span : Span) (indices : List BoundIndex) :
    lowerIndices scope .nowhere (indices.map BoundIndex.unplaced) =
      (lowerIndices scope span indices).mapCause Diagnostic.unplaced := by
  induction indices with
  | nil => rfl
  | cons b rest ih =>
    rw [List.map_cons, lowerIndices, lowerIndices, ih]
    change (if scope.dims.contains b.index.name then _ else _) = _
    split
    · rw [Attempt.mapCause_bind]
      rfl
    · rfl

theorem binaryOperand?_unplaced (scope : Scope) (op : ReductionKind) (indices : List BoundIndex) :
    binaryOperand? scope op (indices.map BoundIndex.unplaced) =
      binaryOperand? scope op indices := by
  cases op <;> rcases indices with _ | ⟨b, _ | ⟨_, _⟩⟩ <;> rfl

mutual

/-- A tree without places stands for the same expression, or fails for the same cause. -/
theorem lower_unplaced (scope : Scope) : (t : Term) →
    lower scope t.unplaced = (lower scope t).mapCause Diagnostic.unplaced
  | .int _ _ | .float _ _ | .var _ _ | .tagged _ _ _ => rfl
  | .subscript _ _ index | .call _ _ index => by
    rw [Term.unplaced, lower, lower, lowerAll_unplaced scope index, Attempt.mapCause_bind]
    rfl
  | .neg _ operand => by
    rw [Term.unplaced, lower, lower, lower_unplaced scope operand, Attempt.mapCause_bind]
    simp only [Attempt.mapCause_liftM]
  | .binary _ op left right => by
    rw [Term.unplaced, lower, lower, lower_unplaced scope left, lower_unplaced scope right]
    simp only [Attempt.mapCause_bind, Attempt.mapCause_liftM]
  | .reduce span op _ indices body => by
    rw [Term.unplaced, lower, lower, lower_unplaced scope body, Attempt.mapCause_bind,
      binaryOperand?_unplaced]
    congr 1
    funext e
    split
    · rfl
    · rw [lowerIndices_unplaced scope span, Attempt.mapCause_bind]
      rfl

theorem lowerAll_unplaced (scope : Scope) : (ts : List Term) →
    lowerAll scope (Term.allUnplaced ts) = (lowerAll scope ts).mapCause Diagnostic.unplaced
  | [] => rfl
  | t :: rest => by
    rw [Term.allUnplaced, lowerAll, lowerAll, lower_unplaced scope t, lowerAll_unplaced scope rest]
    simp only [Attempt.mapCause_bind]
    rfl

end

/-! ## Steps that note problems -/

namespace Noted

variable {α β ι κ : Type}

/-- A value with its problems without places. -/
def unplaced (n : Noted α) : Noted α := ⟨n.value, n.problems.map Diagnostic.unplaced⟩

@[simp] theorem unplaced_clean (a : α) : (clean a).unplaced = clean a := rfl

@[simp] theorem unplaced_problem (a : α) (d : Diagnostic) :
    (problem a d).unplaced = problem a d.unplaced := rfl

theorem andThen_unplaced {n : Noted α} {step step' : α → Checked (Noted β)}
    (h : ∀ a, step' a = unplaced <$> step a) :
    n.unplaced.andThen step' = unplaced <$> n.andThen step := by
  unfold andThen
  change (step' n.value >>= _) = _
  rw [h]
  cases step n.value with
  | error e => rfl
  | ok next =>
    change Except.ok _ = Except.ok _
    simp [unplaced]

theorem bind_unplaced {x x' : Checked (Noted α)} {f f' : Noted α → Checked (Noted β)}
    (hx : x' = unplaced <$> x) (h : ∀ n, f' n.unplaced = unplaced <$> f n) :
    (x' >>= f') = unplaced <$> (x >>= f) := by
  subst hx
  cases x with
  | error e => rfl
  | ok n => exact h n

/-- A run over items without places is the run over the items, if each of its steps is. -/
theorem overAll_unplaced {step : α → ι → Checked (Noted α)} {step' : α → κ → Checked (Noted α)}
    {f : ι → κ} (h : ∀ a i, step' a (f i) = unplaced <$> step a i) (l : List ι) (n : Noted α) :
    overAll step' (l.map f) n.unplaced = unplaced <$> overAll step l n := by
  induction l generalizing n with
  | nil => rfl
  | cons i rest ih =>
    rw [List.map_cons, overAll, overAll]
    exact bind_unplaced (andThen_unplaced fun a => h a i) fun next => ih next

theorem overAll_pure_unplaced {step : α → ι → Noted α} {step' : α → κ → Noted α} {f : ι → κ}
    (h : ∀ a i, step' a (f i) = (step a i).unplaced) (l : List ι) (n : Noted α) :
    overAll (fun a i => pure (step' a i)) (l.map f) n.unplaced =
      unplaced <$> overAll (fun a i => pure (step a i)) l n := by
  refine overAll_unplaced (fun a i => ?_) l n
  rw [h]
  rfl

end Noted

end Source

end LoopKernel
