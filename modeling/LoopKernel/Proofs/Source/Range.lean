import LoopKernel.Proofs.Source.Lowering
import LoopKernel.Proofs.Source.WellFormed

/-!
# Sources that are loaded without overflow

Loading computes with the numbers of a source in two places only: the constraints of the domain, and
the extents of temporaries. It does not overflow if the sides of the constraints stay within words,
and no extent divides the least word by minus one.
-/

namespace LoopKernel.Source

variable {dims : List String}

namespace Noted

variable {α β ι : Type}

theorem safe_andThen {n : Noted α} {step : α → Checked (Noted β)} (h : (step n.value).Safe) :
    (n.andThen step).Safe :=
  h.bind fun _ _ => Attempt.safe_pure _

/-- Steps that are safe from every value are safe one after the other. -/
theorem safe_overAll {step : α → ι → Checked (Noted α)} {l : List ι} {n : Noted α}
    (h : ∀ i ∈ l, ∀ value, (step value i).Safe) : (overAll step l n).Safe := by
  induction l generalizing n with
  | nil => exact Attempt.safe_pure n
  | cons i rest ih =>
    exact (safe_andThen (h i List.mem_cons_self n.value)).bind fun _ _ =>
      ih fun j hj => h j (List.mem_cons_of_mem i hj)

theorem andThen_eq_ok {n : Noted α} {step : α → Checked (Noted β)} {m : Noted β} :
    n.andThen step = .ok m ↔
      ∃ next, step n.value = .ok next ∧ ⟨next.value, n.problems ++ next.problems⟩ = m := by
  simp only [andThen, Attempt.bind_eq_ok, Attempt.pure_eq_ok]

/-- What every step keeps holds after all of them, whatever the problems are. -/
theorem value_overAll {step : α → ι → Checked (Noted α)} {P : α → Prop} {l : List ι}
    {n m : Noted α} (hn : P n.value)
    (hstep : ∀ value i next, P value → step value i = .ok next → P next.value)
    (h : overAll step l n = .ok m) : P m.value := by
  induction l generalizing n with
  | nil =>
    rw [overAll, Attempt.pure_eq_ok] at h
    exact h ▸ hn
  | cons i rest ih =>
    rw [overAll, Attempt.bind_eq_ok] at h
    obtain ⟨next, hnext, h⟩ := h
    obtain ⟨here, hhere, rfl⟩ := andThen_eq_ok.mp hnext
    exact ih (n := ⟨here.value, n.problems ++ here.problems⟩) (hstep n.value i here hn hhere)
      h

end Noted

/-! ## The domain -/

/-- What a comparison takes from the constant of the difference. -/
def Comparison.slack : Comparison → Option String → Nat
  | .lt | .gt => Constraint.one
  | .le | .ge | .eq => fun _ => 0

/-- Comparing two forms does not overflow if the difference, with its slack, is within words. -/
theorem Comparison.within_constraint {op : Comparison} {f g : Affine} {A B : Option String → Nat}
    (hf : f.Within A) (hg : g.Within B) (h : ∀ p, A p + B p + op.slack p < 2 ^ 63) :
    (op.constraint f g).Safe ∧
      ∀ c, op.constraint f g = .ok c → c.form.Within fun p => A p + B p + op.slack p := by
  have hcomm : ∀ p, B p + A p + op.slack p < 2 ^ 63 := fun p => by
    rw [Nat.add_comm (B p)]
    exact h p
  cases op with
  | lt => exact Constraint.within_lt hf hg h
  | gt =>
    obtain ⟨hsafe, hwithin⟩ := Constraint.within_lt hg hf hcomm
    exact ⟨hsafe, fun c hc => (hwithin c hc).mono fun p => by rw [Nat.add_comm (A p)]; rfl⟩
  | le =>
    obtain ⟨hsafe, hwithin⟩ := Constraint.within_ge hg hf hcomm
    exact ⟨hsafe, fun c hc => (hwithin c hc).mono fun p => (Nat.add_comm _ _).le⟩
  | ge => exact Constraint.within_ge (A := A) (B := B) hf hg h
  | eq => exact Constraint.within_eq (A := A) (B := B) hf hg h

/-- Constraining a polyhedron by a comparison within words does not overflow. -/
theorem safe_compareForms {s : Polyhedron} {op : Comparison} {left right : Option Affine}
    {A B : Option String → Nat} (hleft : ∀ f, left = some f → f.Within A)
    (hright : ∀ g, right = some g → g.Within B) (h : ∀ p, A p + B p + op.slack p < 2 ^ 63) :
    (compareForms s op left right).Safe := by
  unfold compareForms
  split
  · next l r =>
    obtain ⟨hsafe, hwithin⟩ := Comparison.within_constraint (hleft l rfl) (hright r rfl) h
    exact hsafe.bind fun c hc =>
      (Constraint.within_normalize (hwithin c hc) h).1.bind fun _ _ => Attempt.safe_pure _
  · exact Attempt.safe_pure s

/-- The affine form of a narrow tree is computed, and is within the weights of the tree. -/
theorem safe_affine (dims : List String) {t : Term} (ht : t.MadeOf Token.IsReadable)
    (hnarrow : t.isNarrow = true) :
    (affine dims t).Safe ∧
      ∀ n, affine dims t = .ok n → ∀ f, n.value = some f → f.Within t.weight := by
  have hfits : ∀ e, (lower ⟨dims, .int64⟩ t).toOption = .ok (some e) →
      Affine.Fits e.toAffine? t.weight := fun e he =>
    fits_of_lower t ht hnarrow (Attempt.toOption_eq_some.mp he)
  unfold affine
  constructor
  · refine (Attempt.safe_toOption.mpr (safe_lower t ht)).bind fun o ho => ?_
    cases o with
    | none => exact Attempt.safe_pure _
    | some e =>
      refine (hfits e ho).1.bind fun form _ => ?_
      cases form <;> exact Attempt.safe_pure _
  · intro n hn f hf
    obtain ⟨o, ho, hn⟩ := Attempt.bind_eq_ok.mp hn
    cases o with
    | none =>
      cases hn
      cases hf
    | some e =>
      obtain ⟨form, hform, hn⟩ := Attempt.bind_eq_ok.mp hn
      cases form <;> cases hn <;> cases hf
      exact (hfits e ho).2 f hform

/-- Whether the difference of two trees, with the slack of a comparison, is within words. -/
def Comparison.isNarrow (op : Comparison) (left right : Term) : Bool :=
  (none :: (left.parts ++ right.parts)).all fun p =>
    left.weight p + right.weight p + op.slack p < 2 ^ 63

theorem Comparison.weight_lt {op : Comparison} {left right : Term}
    (h : op.isNarrow left right = true) (p : Option String) :
    left.weight p + right.weight p + op.slack p < 2 ^ 63 := by
  by_cases hp : p ∈ none :: (left.parts ++ right.parts)
  · exact of_decide_eq_true (List.all_eq_true.mp h p hp)
  · simp only [List.mem_cons, List.mem_append, not_or] at hp
    obtain ⟨hnone, hleft, hright⟩ := hp
    have hslack : op.slack p = 0 := by
      cases p with
      | none => exact absurd rfl hnone
      | some name => cases op <;> rfl
    rw [left.weight_eq_zero hleft, right.weight_eq_zero hright, hslack]
    decide

/-- Whether the comparisons after the left side of a chain stay within words. -/
def comparesNarrowly (left : Term) : List (Comparison × Term) → Bool
  | [] => true
  | (op, right) :: rest => right.isNarrow && op.isNarrow left right && comparesNarrowly right rest

/-- Whether a chain of comparisons stays within words. -/
def Chain.isNarrow (chain : Chain) : Bool :=
  chain.first.isNarrow && comparesNarrowly chain.first chain.rest

/-- The rest of a narrow chain is added without overflow. -/
theorem safe_addComparisons {rest : List (Comparison × Term)} {left : Term} {form : Option Affine}
    {s : Polyhedron} (hform : ∀ f, form = some f → f.Within left.weight)
    (hrest : ∀ c ∈ rest, c.2.MadeOf Token.IsReadable) (h : comparesNarrowly left rest = true) :
    (addComparisons dims rest form s).Safe := by
  induction rest generalizing left form s with
  | nil => exact Attempt.safe_pure _
  | cons c rest ih =>
    obtain ⟨op, right⟩ := c
    rw [List.forall_mem_cons] at hrest
    simp only [comparesNarrowly, Bool.and_eq_true] at h
    obtain ⟨⟨hright, hop⟩, hnext⟩ := h
    obtain ⟨hsafe, hwithin⟩ := safe_affine dims hrest.1 hright
    refine hsafe.bind fun n hn => Noted.safe_andThen ?_
    exact (safe_compareForms hform (hwithin n hn) (Comparison.weight_lt hop)).bind fun _ _ =>
      ih (hwithin n hn) hrest.2 hnext

/-- A narrow chain is added without overflow. -/
theorem safe_addChain {chain : Chain} {s : Polyhedron}
    (hchain : ∀ t ∈ chain.terms, t.MadeOf Token.IsReadable) (h : chain.isNarrow = true) :
    (addChain dims s chain).Safe := by
  rw [Chain.terms, List.forall_mem_cons, List.forall_mem_map] at hchain
  rw [Chain.isNarrow, Bool.and_eq_true] at h
  obtain ⟨hsafe, hwithin⟩ := safe_affine dims hchain.1 h.1
  exact hsafe.bind fun n hn =>
    Noted.safe_andThen (safe_addComparisons (hwithin n hn) hchain.2 h.2)

/-- The dimensions that a list of names gives: each name once. -/
def listedDims (idents : List Ident) : List String :=
  idents.foldl (fun dims id => (addDimension dims id).value) []

/-- Comparisons constrain a polyhedron over the same dimensions, whatever the problems are. -/
theorem dims_of_addComparisons_value {rest : List (Comparison × Term)} {left : Option Affine}
    {s : Polyhedron} {n : Noted Polyhedron} (h : addComparisons dims rest left s = .ok n) :
    n.value.dims = s.dims := by
  induction rest generalizing left s n with
  | nil =>
    rw [addComparisons, Attempt.pure_eq_ok] at h
    rw [← h]
    rfl
  | cons comparison rest ih =>
    obtain ⟨op, term⟩ := comparison
    rw [addComparisons, Attempt.bind_eq_ok] at h
    obtain ⟨right, -, h⟩ := h
    obtain ⟨next, hnext, rfl⟩ := Noted.andThen_eq_ok.mp h
    obtain ⟨compared, hcompared, hnext⟩ := Attempt.bind_eq_ok.mp hnext
    exact (ih hnext).trans (dims_of_compareForms hcompared)

/-- The domain is over the dimensions that are listed, whatever the problems are. -/
theorem dims_of_domain {idents : List Ident} {chains : List Chain} {n : Noted Polyhedron}
    (h : domain idents chains = .ok n) : n.value.dims = listedDims idents := by
  have hlist : ∀ (l : List Ident) (start listed : Noted (List String)),
      Noted.overAll (fun dims id => pure (addDimension dims id)) l start = .ok listed →
      listed.value = l.foldl (fun dims id => (addDimension dims id).value) start.value := by
    intro l
    induction l with
    | nil =>
      intro start listed h
      cases h
      rfl
    | cons id rest ih =>
      intro start listed h
      let added := addDimension start.value id
      exact ih ⟨added.value, start.problems ++ added.problems⟩ listed h
  unfold domain at h
  obtain ⟨listed, hlisted, h⟩ := Attempt.bind_eq_ok.mp h
  obtain ⟨next, hnext, rfl⟩ := Noted.andThen_eq_ok.mp h
  have hdims : next.value.dims = listed.value := by
    refine Noted.value_overAll (P := fun s => s.dims = listed.value) rfl
      (fun s chain next hs hstep => ?_) hnext
    obtain ⟨left, -, hstep⟩ := Attempt.bind_eq_ok.mp hstep
    obtain ⟨added, hadded, rfl⟩ := Noted.andThen_eq_ok.mp hstep
    exact (dims_of_addComparisons_value hadded).trans hs
  exact hdims.trans (hlist idents _ listed hlisted)

/-- A domain of narrow chains is built without overflow. -/
theorem safe_domain {idents : List Ident} {chains : List Chain}
    (hchains : ∀ c ∈ chains, ∀ t ∈ c.terms, t.MadeOf Token.IsReadable)
    (h : chains.all Chain.isNarrow = true) : (domain idents chains).Safe := by
  refine (Noted.safe_overAll fun _ _ _ => Attempt.safe_pure _).bind fun listed _ =>
    Noted.safe_andThen (Noted.safe_overAll fun chain hchain s => ?_)
  exact safe_addChain (hchains chain hchain) (List.all_eq_true.mp h chain hchain)

/-! ## Arguments and temporaries -/

/-- Declaring a name is safe if what is done with it is. -/
theorem safe_declare {d : Declared} {dtype name : Ident}
    {next : Declared → Dtype → Checked (Noted Declared)} (h : ∀ d type, (next d type).Safe) :
    (declare d dtype name next).Safe := by
  unfold declare
  split
  · exact Attempt.safe_pure _
  · split
    · exact Attempt.safe_pure _
    · exact h _ _

/-- Arguments are declared without overflow. -/
theorem safe_addArgument {d : Declared} {form : ArgumentForm} {dtype name : Ident}
    (h : (StatementBody.arg form dtype name).MadeOf Token.IsReadable) :
    (addArgument dims d form dtype name).Safe := by
  have hkind : (argumentKind dims form).Safe := by
    cases form with
    | global shape | image shape =>
      exact (safe_lowerAll shape (Term.allMadeOf_iff.mpr h.terms)).bind
        fun _ _ => Attempt.safe_pure _
    | scalar approximately span => exact Attempt.safe_pure _
  refine safe_declare fun d type => (Attempt.safe_caught.mpr hkind).bind fun kind _ => ?_
  cases kind <;> exact Attempt.safe_pure _

/-- Whether the value of an extent is computed without dividing the least word by minus one. -/
def Term.dividesWithin (dims : List String) (t : Term) : Bool :=
  match lower ⟨dims, .int64⟩ t with
  | .ok e => e.dividesWithin fun _ => none
  | .error _ => true

/-- Extents are evaluated without overflow. -/
theorem safe_positiveConstant? {t : Term} (ht : t.MadeOf Token.IsReadable)
    (h : t.dividesWithin dims = true) : (positiveConstant? dims t).Safe := by
  refine (Attempt.safe_toOption.mpr (safe_lower t ht)).bind fun o ho => ?_
  cases o with
  | none => exact Attempt.safe_pure _
  | some e =>
    rw [Attempt.toOption_eq_some] at ho
    simp only [Term.dividesWithin, ho] at h
    have hvalue := Expr.gives_evalInt (fun _ _ hn => by cases hn) e
      (literalsFit_of_lower t ht ho) h
    exact hvalue.1.bind fun _ _ => Attempt.safe_pure _

theorem safe_extents {shape : List Term} (hshape : ∀ t ∈ shape, t.MadeOf Token.IsReadable)
    (h : shape.all (Term.dividesWithin dims) = true) : (extents dims shape).Safe := by
  induction shape with
  | nil => exact Attempt.safe_pure _
  | cons t rest ih =>
    rw [List.forall_mem_cons] at hshape
    rw [List.all_cons, Bool.and_eq_true] at h
    refine (safe_positiveConstant? hshape.1 h.1).bind fun o _ => ?_
    cases o with
    | none => exact Attempt.safe_pure _
    | some n =>
      refine (ih hshape.2 h.2).bind fun ns _ => ?_
      cases ns <;> exact Attempt.safe_pure _

/-- Temporaries are declared without overflow. -/
theorem safe_addTemporary {d : Declared} {dtype name : Ident} {shape : List Term}
    (hshape : ∀ t ∈ shape, t.MadeOf Token.IsReadable)
    (h : shape.all (Term.dividesWithin dims) = true) :
    (addTemporary dims d dtype name shape).Safe := by
  refine safe_declare fun d type => (safe_extents hshape h).bind fun ns _ => ?_
  cases ns <;> exact Attempt.safe_pure _

/-- Whether the extents that a statement declares are computed within words. -/
def StatementBody.dividesWithin (dims : List String) : StatementBody → Bool
  | .temp _ _ shape => shape.all (Term.dividesWithin dims)
  | _ => true

/-- All arguments and temporaries are declared without overflow. -/
theorem safe_declarations {statements : List Statement}
    (hmade : ∀ s ∈ statements, s.body.MadeOf Token.IsReadable)
    (h : (statements.all fun s => s.body.dividesWithin dims) = true) :
    (declarations dims statements).Safe := by
  refine (Noted.safe_overAll fun s hs d => ?_).bind fun args _ =>
    Noted.safe_overAll fun s hs d => ?_
  · have hbody := hmade s hs
    split
    · next form dtype name heq =>
      rw [heq] at hbody
      exact safe_addArgument hbody
    · exact Attempt.safe_pure _
  · have hbody := hmade s hs
    have hwithin := List.all_eq_true.mp h s hs
    split
    · next dtype name shape heq =>
      rw [heq] at hbody hwithin
      exact safe_addTemporary hbody.terms hwithin
    · exact Attempt.safe_pure _

/-! ## Kernels -/

/-- Instructions are built without overflow. -/
theorem safe_instructions {dtypes : SortedMap String Dtype} {statements : List Statement}
    (hmade : ∀ s ∈ statements, s.body.MadeOf Token.IsReadable) :
    (instructions dims dtypes statements).Safe := by
  have hstatement : ∀ entry ∈ insnStatements statements,
      (StatementBody.insn entry.1).MadeOf Token.IsReadable := by
    intro entry hentry
    obtain ⟨s, hs, hbody⟩ := List.mem_filterMap.mp hentry
    have hmade := hmade s hs
    split at hbody
    · next statement heq =>
      cases hbody
      rwa [heq] at hmade
    · cases hbody
  refine (Noted.safe_overAll fun _ _ _ => Attempt.safe_pure _).bind fun claimed _ =>
    Noted.safe_andThen (Noted.safe_overAll fun entry hentry insns => ?_)
  obtain ⟨⟨s, span⟩, id⟩ := entry
  have hterms := (hstatement (s, span) (List.of_mem_zip hentry).1).terms
  have htarget : s.assignee.MadeOf Token.IsReadable := hterms _ (by simp [StatementBody.terms])
  have hexpression : s.expression.MadeOf Token.IsReadable :=
    hterms _ (by simp [StatementBody.terms])
  have hassignment : ∀ scope, (lowerAssignment scope s).Safe := fun scope =>
    (safe_lower _ htarget).bind fun _ _ => (safe_lower _ hexpression).bind fun _ _ =>
      Attempt.safe_pure _
  refine (Attempt.safe_caught.mpr (hassignment _)).bind fun assignment _ => ?_
  cases assignment with
  | error d => exact Attempt.safe_pure _
  | ok assignment =>
    exact (Noted.safe_overAll fun _ _ _ => Attempt.safe_pure _).bind fun _ _ =>
      (Noted.safe_overAll fun _ _ _ => Attempt.safe_pure _).bind fun _ _ => Attempt.safe_pure _

/-- The parts after the domain are built without overflow. -/
theorem safe_buildOver {statements : List Statement} {device : Device} {domain : Polyhedron}
    (hmade : ∀ s ∈ statements, s.body.MadeOf Token.IsReadable)
    (h : (statements.all fun s => s.body.dividesWithin domain.dims) = true) :
    (buildOver statements device domain).Safe := by
  have htags : (tags domain.dims statements).Safe :=
    (Noted.safe_overAll fun _ _ _ => Attempt.safe_pure _).bind fun _ _ => Attempt.safe_pure _
  exact (safe_declarations hmade h).bind fun _ _ => Noted.safe_andThen
    (htags.bind fun _ _ => Noted.safe_andThen
      ((safe_instructions hmade).bind fun _ _ => Noted.safe_andThen (Attempt.safe_pure _)))

/-- Whether the constraints and the extents of a list of statements are computed within words. -/
def computesWithin (statements : List Statement) : Bool :=
  match domainStatements statements with
  | [] => true
  | ((dims, chains), _) :: _ =>
    chains.all Chain.isNarrow &&
      statements.all fun s => s.body.dividesWithin (listedDims dims)

/-- A kernel is built without overflow. -/
theorem safe_build {statements : List Statement} {device : Device}
    (hmade : ∀ s ∈ statements, s.body.MadeOf Token.IsReadable)
    (h : computesWithin statements = true) : (build statements device).Safe := by
  have hsettings : (settings statements device).Safe := by
    refine Noted.safe_overAll fun s _ device => ?_
    split <;> exact Attempt.safe_pure _
  refine hsettings.bind fun _ _ => Noted.safe_andThen ?_
  unfold computesWithin at h
  split
  · exact Attempt.safe_pure _
  · next dims chains span others heq =>
    simp only [heq, Bool.and_eq_true] at h
    have hchains : ∀ c ∈ chains, ∀ t ∈ c.terms, t.MadeOf Token.IsReadable := by
      intro c hc t ht
      have hdomain : ((dims, chains), span) ∈ domainStatements statements := by simp [heq]
      obtain ⟨s, hs, hbody⟩ := List.mem_filterMap.mp hdomain
      have hterms := (hmade s hs).terms
      split at hbody
      · next dims' chains' heq' =>
        cases hbody
        rw [heq'] at hterms
        exact hterms t (List.mem_flatMap.mpr ⟨c, hc, ht⟩)
      · cases hbody
    refine Noted.safe_andThen ((safe_domain hchains h.1).bind fun domain hdomain =>
      Noted.safe_andThen (safe_buildOver hmade ?_))
    rw [dims_of_domain hdomain]
    exact h.2

/-- Whether the constraints and the extents of a source are computed within words. -/
def computesWithinWords (source : String) : Bool :=
  match (read source).file with
  | .ok file => computesWithin file.statements
  | .error _ => true

/-- A source whose constraints and extents are computed within words is loaded, or has problems that
are reported. -/
theorem loads_or_reports (source : String) (device : Device)
    (h : computesWithinWords source = true) :
    (∃ k, load source device = .ok k) ∨
      ∃ problems, load source device = .error (.cause problems) := by
  have hsafe : (load source device).Safe := by
    unfold computesWithinWords at h
    unfold load
    dsimp only
    split
    · exact Attempt.safe_fail _
    · next file hfile =>
      simp only [hfile] at h
      have hmade := madeOf_of_read hfile Lexer.isReadable_of_mem_split
      split
      · refine (Attempt.safe_liftM.mpr (safe_build hmade h)).bind fun built _ => ?_
        split
        · exact Attempt.safe_pure _
        · exact Attempt.safe_fail _
      · exact Attempt.safe_fail _
  rcases hload : load source device with (_ | problems) | k
  · exact absurd hload hsafe
  · exact .inr ⟨problems, rfl⟩
  · exact .inl ⟨k, rfl⟩

/-- A source with a strict bound, a product in a constraint, and a quotient as an extent. -/
def halfTileSource : String :=
  "domain [i] : 0 <= i < 4*8\narg global float32 a[32]\ntemp float32 t[(7 - 23) // (0 - 2)]\n" ++
    "insn t[i % 8] = a[i]\n"

/-- The source with half a tile is computed within words, so it is loaded or has problems. -/
theorem loads_or_reports_halfTile :
    computesWithinWords halfTileSource = true ∧
      ((∃ k, load halfTileSource .fermi = .ok k) ∨
        ∃ problems, load halfTileSource .fermi = .error (.cause problems)) :=
  have hwithin : computesWithinWords halfTileSource = true := by decide +kernel
  ⟨hwithin, loads_or_reports halfTileSource .fermi hwithin⟩

/-- The condition on constraints is needed. -/
example : ¬ (load "domain [i] : 0 <= i < 9223372036854775807*2\n" .fermi).Safe := by decide +kernel

/-- The condition on extents is needed. -/
example : ¬ (load ("domain [i] : 0 <= i < 4\n" ++
    "temp float32 t[(0 - 9223372036854775807 - 1) // (0 - 1)]\n") .fermi).Safe := by decide +kernel

end LoopKernel.Source
