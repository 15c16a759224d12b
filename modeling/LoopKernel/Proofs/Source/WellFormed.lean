import LoopKernel.Proofs.Source.Loaded
import LoopKernel.Proofs.WellFormed.Basic

/-!
# Loaded kernels are well-formed

A kernel that is loaded without a problem is well-formed: each group of statements is checked
against the names of the ones before it.
-/

namespace LoopKernel.Source

/-! ## Expressions -/

/-- An operator binds what its operands bind. -/
theorem Operator.binders_apply {op : Operator} {l r e : Expr} (h : op.apply l r = .ok e) :
    e.binders = l.binders ++ r.binders := by
  unfold Operator.apply at h
  split at h
  case h_2 =>
    unfold Expr.sub at h
    simp only [Attempt.bind_eq_ok, Attempt.pure_eq_ok] at h
    obtain ⟨negated, hnegated, rfl⟩ := h
    rw [Expr.binders_add, Expr.binders_negate hnegated]
  all_goals
    rw [Attempt.pure_eq_ok] at h
    subst h
  · exact Expr.binders_add l r
  · exact Expr.binders_mul l r
  all_goals rfl

variable {scope : Scope}

/-- The indices of a reduction are dimensions. -/
theorem mem_dims_of_lowerIndices {span : Span} {indices : List BoundIndex} {binders : List Binder}
    (h : lowerIndices scope span indices = .ok binders) : ∀ b ∈ binders, b.name ∈ scope.dims := by
  induction indices generalizing binders with
  | nil =>
    rw [lowerIndices, Attempt.pure_eq_ok] at h
    rw [← h]
    exact fun b hb => absurd hb List.not_mem_nil
  | cons index rest ih =>
    rw [lowerIndices] at h
    split at h
    · next hdim =>
      simp only [Attempt.bind_eq_ok, Attempt.pure_eq_ok] at h
      obtain ⟨others, hothers, rfl⟩ := h
      intro b hb
      rcases List.mem_cons.mp hb with rfl | hb
      · exact List.contains_iff_mem.mp hdim
      · exact ih hothers b hb
    · simp at h

mutual

/-- What the reductions of a lowered expression bind are dimensions. -/
theorem mem_dims_of_lower : (t : Term) → {e : Expr} → lower scope t = .ok e →
    ∀ b ∈ e.binders, b.name ∈ scope.dims
  | .int _ n, e, h | .float _ x, e, h | .var _ name, e, h | .tagged _ name tag, e, h => by
    rw [lower, Attempt.pure_eq_ok] at h
    rw [← h]
    exact fun b hb => absurd hb List.not_mem_nil
  | .subscript _ aggregate index, e, h => by
    simp only [lower, Attempt.bind_eq_ok, Attempt.pure_eq_ok] at h
    obtain ⟨es, hes, rfl⟩ := h
    exact mem_dims_of_lowerAll index hes
  | .neg _ operand, e, h => by
    simp only [lower, Attempt.bind_eq_ok, Attempt.liftM_eq_ok] at h
    obtain ⟨f, hf, h⟩ := h
    rw [Expr.binders_negate h]
    exact mem_dims_of_lower operand hf
  | .binary _ op left right, e, h => by
    simp only [lower, Attempt.bind_eq_ok, Attempt.liftM_eq_ok] at h
    obtain ⟨l, hl, r, hr, h⟩ := h
    rw [op.binders_apply h]
    exact fun b hb => (List.mem_append.mp hb).elim (mem_dims_of_lower left hl b)
      (mem_dims_of_lower right hr b)
  | .call _ function args, e, h => by
    simp only [lower, Attempt.bind_eq_ok, Attempt.pure_eq_ok] at h
    obtain ⟨es, hes, rfl⟩ := h
    exact mem_dims_of_lowerAll args hes
  | .reduce span op _ indices body, e, h => by
    rw [lower, Attempt.bind_eq_ok] at h
    obtain ⟨lowered, hlowered, h⟩ := h
    have hbody := mem_dims_of_lower body hlowered
    split at h
    · rw [Attempt.pure_eq_ok] at h
      subst h
      intro b hb
      simp only [Expr.binders, Expr.bindersOfAll, List.nil_append, List.append_nil] at hb
      exact hbody b hb
    · simp only [Attempt.bind_eq_ok, Attempt.pure_eq_ok] at h
      obtain ⟨binders, hbinders, rfl⟩ := h
      exact fun b hb => (List.mem_append.mp hb).elim (hbody b)
        (mem_dims_of_lowerIndices hbinders b)

/-- What the reductions of several lowered expressions bind are dimensions. -/
theorem mem_dims_of_lowerAll : (ts : List Term) → {es : List Expr} → lowerAll scope ts = .ok es →
    ∀ b ∈ Expr.bindersOfAll es, b.name ∈ scope.dims
  | [], es, h => by
    rw [lowerAll, Attempt.pure_eq_ok] at h
    rw [← h]
    exact fun b hb => absurd hb List.not_mem_nil
  | t :: rest, es, h => by
    simp only [lowerAll, Attempt.bind_eq_ok, Attempt.pure_eq_ok] at h
    obtain ⟨e, he, others, hothers, rfl⟩ := h
    exact fun b hb => (List.mem_append.mp hb).elim (mem_dims_of_lower t he b)
      (mem_dims_of_lowerAll rest hothers b)

end

/-! ## The domain -/

variable {dims : List String}

/-- Comparing forms constrains a polyhedron over the same dimensions. -/
theorem dims_of_compareForms {s t : Polyhedron} {op : Comparison} {left right : Option Affine}
    (h : compareForms s op left right = .ok t) : t.dims = s.dims := by
  unfold compareForms at h
  split at h
  · rw [Attempt.bind_eq_ok] at h
    obtain ⟨c, -, h⟩ := h
    exact Polyhedron.dims_constrain h
  · rw [Attempt.pure_eq_ok] at h
    rw [h]

/-- Comparisons constrain a polyhedron over the same dimensions. -/
theorem dims_of_addComparisons {rest : List (Comparison × Term)} {left : Option Affine}
    {s t : Polyhedron} (h : addComparisons dims rest left s = .ok (.clean t)) :
    t.dims = s.dims := by
  induction rest generalizing left s with
  | nil =>
    rw [addComparisons, Attempt.pure_eq_ok, Noted.clean, Noted.clean, Noted.mk.injEq] at h
    rw [h.1]
  | cons comparison rest ih =>
    obtain ⟨op, term⟩ := comparison
    rw [addComparisons, Attempt.bind_eq_ok] at h
    obtain ⟨right, -, h⟩ := h
    rw [Noted.andThen_clean, Attempt.bind_eq_ok] at h
    obtain ⟨-, compared, hcompared, h⟩ := h
    rw [ih h, dims_of_compareForms hcompared]

/-- The dimensions of a domain are different names of its list. -/
theorem dims_of_domain_clean {idents : List Ident} {chains : List Chain} {p : Polyhedron}
    (h : domain idents chains = .ok (.clean p)) :
    p.dims.Nodup ∧ ∀ n ∈ p.dims, n ∈ idents.map Ident.name := by
  unfold domain at h
  rw [Attempt.bind_eq_ok] at h
  obtain ⟨listed, hlisted, h⟩ := h
  rw [Noted.andThen_clean] at h
  obtain ⟨hclean, h⟩ := h
  rw [Noted.eq_clean hclean] at hlisted
  have hlist : listed.value.Nodup ∧ ∀ n ∈ listed.value, n ∈ idents.map Ident.name := by
    apply Noted.overAll_clean (P := fun done dims =>
      dims.Nodup ∧ ∀ n ∈ dims, n ∈ done.map Ident.name) ⟨List.nodup_nil, by simp⟩ _ hlisted
    rintro done dims id next ⟨hdims, hnames⟩ hstep
    rw [Attempt.pure_eq_ok] at hstep
    unfold addDimension at hstep
    split at hstep
    · cases hstep
    · next hnew =>
      rw [Noted.clean, Noted.clean, Noted.mk.injEq] at hstep
      rw [List.contains_iff_mem] at hnew
      rw [← hstep.1, List.map_append]
      refine ⟨List.concat_eq_append ▸ hdims.concat hnew, fun n hn => ?_⟩
      rcases List.mem_append.mp hn with hn | hn
      · exact List.mem_append_left _ (hnames n hn)
      · exact List.mem_append_right _ (by simpa using hn)
  have hdims : p.dims = listed.value := by
    apply Noted.overAll_clean (P := fun _ s => s.dims = listed.value) rfl _ h
    intro _ s chain next hs hstep
    unfold addChain at hstep
    rw [Attempt.bind_eq_ok] at hstep
    obtain ⟨left, -, hstep⟩ := hstep
    rw [Noted.andThen_clean] at hstep
    rw [dims_of_addComparisons hstep.2, hs]
  exact hdims ▸ hlist

/-! ## Declarations -/

/-- Whether all names declared are different from each other and from the dimensions, and taken. -/
structure Declared.Distinct (dims : List String) (d : Declared) : Prop where
  names : (d.args.map Argument.name ++ d.temporaries.keys ++ dims).Nodup
  taken : ∀ n ∈ d.args.map Argument.name ++ d.temporaries.keys ++ dims, n ∈ d.taken
  temporaries : ∀ n t, d.temporaries.get? n = some t → t.name = n

/-- A free name is none of those declared. -/
theorem Declared.Distinct.not_mem {d : Declared} {n : String} (hd : d.Distinct dims)
    (hfree : n ∉ d.taken) :
    n ∉ d.args.map Argument.name ∧ d.temporaries.contains n ≠ true ∧ n ∉ dims := by
  have hnot := mt (hd.taken n) hfree
  rw [List.mem_append, List.mem_append, not_or, not_or, SortedMap.mem_keys] at hnot
  exact ⟨hnot.1.1, hnot.1.2, hnot.2⟩

/-- A declaration without a problem takes a name that was free. -/
theorem declare_clean {d d' : Declared} {dtype name : Ident}
    {next : Declared → Dtype → Checked (Noted Declared)}
    (h : declare d dtype name next = .ok (.clean d')) :
    ∃ type, name.name ∉ d.taken ∧ next { d with
        taken := d.taken.add name.name
        dtypes := d.dtypes.insert name.name type } type = .ok (.clean d') := by
  unfold declare at h
  split at h
  · simp [pure, Except.pure, Noted.problem, Noted.clean] at h
  · next type _ =>
    split at h
    · simp [pure, Except.pure, Noted.problem, Noted.clean] at h
    · next hfree => exact ⟨type, hfree, h⟩

/-- An argument that is declared without a problem comes last, under a name that was free. -/
theorem addArgument_clean {d d' : Declared} {form : ArgumentForm} {dtype name : Ident}
    (h : addArgument dims d form dtype name = .ok (.clean d')) :
    name.name ∉ d.taken ∧ d'.taken = d.taken.add name.name ∧ d'.temporaries = d.temporaries ∧
      ∃ type kind, argumentKind dims form = .ok kind ∧
        d'.args = d.args ++ [⟨name.name, type, kind⟩] := by
  obtain ⟨type, hfree, h⟩ := declare_clean h
  rw [Attempt.bind_eq_ok] at h
  obtain ⟨caught, hcaught, h⟩ := h
  cases caught with
  | ok kind =>
    simp only [pure, Except.pure, Noted.clean, Except.ok.injEq, Noted.mk.injEq, and_true] at h
    subst h
    exact ⟨hfree, rfl, rfl, type, kind, Attempt.caught_eq_ok.mp hcaught, rfl⟩
  | error problem => simp [pure, Except.pure, Noted.problem, Noted.clean] at h

/-- A temporary that is declared without a problem is stored under its name, which was free. -/
theorem addTemporary_clean {d d' : Declared} {dtype name : Ident} {shape : List Term}
    (h : addTemporary dims d dtype name shape = .ok (.clean d')) :
    name.name ∉ d.taken ∧ d'.taken = d.taken.add name.name ∧ d'.args = d.args ∧
      ∃ t, t.name = name.name ∧ d'.temporaries = d.temporaries.insert name.name t := by
  obtain ⟨type, hfree, h⟩ := declare_clean h
  rw [Attempt.bind_eq_ok] at h
  obtain ⟨sizes, -, h⟩ := h
  cases sizes with
  | ok sizes =>
    simp only [pure, Except.pure, Noted.clean, Except.ok.injEq, Noted.mk.injEq, and_true] at h
    subst h
    exact ⟨hfree, rfl, rfl, _, rfl, rfl⟩
  | error term => simp [pure, Except.pure, Noted.problem, Noted.clean] at h

/-- Declaring an argument keeps all names different. -/
theorem Declared.Distinct.addArgument {d d' : Declared} {form : ArgumentForm} {dtype name : Ident}
    (hd : d.Distinct dims) (h : addArgument dims d form dtype name = .ok (.clean d')) :
    d'.Distinct dims := by
  obtain ⟨hfree, htaken, htemporaries, type, kind, -, hadded⟩ := addArgument_clean h
  have hargs : d'.args.map Argument.name = d.args.map Argument.name ++ [name.name] := by
    rw [hadded, List.map_append, List.map_singleton]
  obtain ⟨hnotArg, hnotTemporary, hnotDim⟩ := hd.not_mem hfree
  obtain ⟨hold, hdims, hold', hdisjoint⟩ := Kernel.nodup_declared_iff.mp hd.names
  refine ⟨?_, fun n hn => ?_, htemporaries ▸ hd.temporaries⟩
  · rw [hargs, htemporaries, Kernel.nodup_declared_iff]
    refine ⟨hold.append (List.nodup_singleton _) (by simpa using hnotArg), hdims, ?_, ?_⟩
    · grind
    · grind
  · rw [htaken, NameSet.mem_add]
    rw [hargs, htemporaries] at hn
    have htaken := hd.taken n
    grind

/-- Declaring a temporary keeps all names different. -/
theorem Declared.Distinct.addTemporary {d d' : Declared} {dtype name : Ident} {shape : List Term}
    (hd : d.Distinct dims) (h : addTemporary dims d dtype name shape = .ok (.clean d')) :
    d'.Distinct dims := by
  obtain ⟨hfree, htaken, hargs, t, ht, htemporaries⟩ := addTemporary_clean h
  obtain ⟨hnotArg, hnotTemporary, hnotDim⟩ := hd.not_mem hfree
  obtain ⟨hold, hdims, hold', hdisjoint⟩ := Kernel.nodup_declared_iff.mp hd.names
  refine ⟨?_, fun n hn => ?_, fun n u hu => ?_⟩
  · rw [hargs, htemporaries, Kernel.nodup_declared_iff]
    refine ⟨hold, hdims, fun n hn => ?_, hdisjoint⟩
    rw [SortedMap.contains_insert, Bool.or_eq_true, beq_iff_eq] at hn
    rcases hn with rfl | hn
    · exact ⟨hnotArg, hnotDim⟩
    · exact hold' n hn
  · rw [htaken, NameSet.mem_add]
    rw [hargs, htemporaries] at hn
    have htaken := hd.taken n
    simp only [List.mem_append, SortedMap.mem_keys, SortedMap.contains_insert, Bool.or_eq_true,
      beq_iff_eq] at hn htaken
    grind
  · rw [htemporaries, SortedMap.get?_insert] at hu
    split at hu
    · next hn =>
      cases hu
      rw [hn, ht]
    · exact hd.temporaries n u hu

/-- What holds before the first declaration and is kept by clean ones holds after the last one. -/
theorem declarations_clean {P : Declared → Prop} (hstart : P ⟨NameSet.ofList dims, ∅, [], ∅⟩)
    (harg : ∀ d d' form dtype name, P d →
      addArgument dims d form dtype name = .ok (.clean d') → P d')
    (htemp : ∀ d d' dtype name shape, P d →
      addTemporary dims d dtype name shape = .ok (.clean d') → P d')
    {statements : List Statement} {d : Declared}
    (h : declarations dims statements = .ok (.clean d)) : P d := by
  unfold declarations at h
  rw [Attempt.bind_eq_ok] at h
  obtain ⟨args, hargs, h⟩ := h
  rw [Noted.eq_clean (Noted.problems_of_overAll_clean h)] at hargs h
  have hargs : P args.value := by
    apply Noted.overAll_clean (P := fun _ d => P d) hstart _ hargs
    intro _ d s next hd hstep
    split at hstep
    · exact harg _ _ _ _ _ hd hstep
    · simp only [pure, Except.pure, Noted.clean, Except.ok.injEq, Noted.mk.injEq, and_true] at hstep
      exact hstep ▸ hd
  apply Noted.overAll_clean (P := fun _ d => P d) hargs _ h
  intro _ d s next hd hstep
  split at hstep
  · exact htemp _ _ _ _ _ hd hstep
  · simp only [pure, Except.pure, Noted.clean, Except.ok.injEq, Noted.mk.injEq, and_true] at hstep
    exact hstep ▸ hd

/-- Declared names are different from each other and from the dimensions. -/
theorem distinct_of_declarations {statements : List Statement} {d : Declared} (hdims : dims.Nodup)
    (h : declarations dims statements = .ok (.clean d)) : d.Distinct dims :=
  declarations_clean ⟨hdims, fun _ hn => NameSet.mem_ofList.mpr hn, fun _ _ ht => by cases ht⟩
    (fun _ _ _ _ _ hd hstep => hd.addArgument hstep)
    (fun _ _ _ _ _ hd hstep => hd.addTemporary hstep) h

/-- What the extents of declared arguments bind are dimensions. -/
theorem mem_dims_of_declarations {statements : List Statement} {d : Declared}
    (h : declarations dims statements = .ok (.clean d)) :
    ∀ arg ∈ d.args, ∀ b ∈ Expr.bindersOfAll arg.kind.shape, b.name ∈ dims := by
  refine declarations_clean (P := fun d =>
    ∀ arg ∈ d.args, ∀ b ∈ Expr.bindersOfAll arg.kind.shape, b.name ∈ dims) (by simp) ?_ ?_ h
  · intro d d' form dtype name hd hstep
    obtain ⟨-, -, -, type, kind, hkind, hargs⟩ := addArgument_clean hstep
    rw [hargs, List.forall_mem_append]
    refine ⟨hd, List.forall_mem_singleton.mpr ?_⟩
    cases form with
    | global shape | image shape =>
      simp only [argumentKind, Attempt.bind_eq_ok, Attempt.pure_eq_ok] at hkind
      obtain ⟨extents, hextents, rfl⟩ := hkind
      exact mem_dims_of_lowerAll shape hextents
    | scalar approximately span =>
      cases hkind
      exact fun b hb => absurd hb List.not_mem_nil
  · intro d d' dtype name shape hd hstep
    rw [(addTemporary_clean hstep).2.2.1]
    exact hd

/-! ## Tags -/

/-- The tags are those of the dimensions. -/
theorem contains_tags_iff {statements : List Statement} {result : SortedMap String IndexTag}
    (h : tags dims statements = .ok (.clean result)) {n : String} :
    result.contains n = true ↔ n ∈ dims := by
  unfold tags at h
  rw [Attempt.bind_eq_ok] at h
  obtain ⟨given, hgiven, h⟩ := h
  simp only [pure, Except.pure, Noted.clean, Except.ok.injEq, Noted.mk.injEq] at h
  obtain ⟨rfl, hclean⟩ := h
  rw [Noted.eq_clean hclean] at hgiven
  have hdims : ∀ n, given.value.contains n = true → n ∈ dims := by
    apply Noted.overAll_clean (P := fun _ (tags : SortedMap String IndexTag) =>
      ∀ n, tags.contains n = true → n ∈ dims) (by simp) _ hgiven
    intro _ tags entry next htags hstep n hn
    rw [Attempt.pure_eq_ok] at hstep
    unfold addTag at hstep
    split at hstep
    · next hdim =>
      rw [Noted.clean, Noted.clean, Noted.mk.injEq] at hstep
      rw [← hstep.1, SortedMap.contains_insert, Bool.or_eq_true, beq_iff_eq] at hn
      rcases hn with rfl | hn
      · exact List.contains_iff_mem.mp hdim
      · exact htags n hn
    · cases hstep
  rw [SortedMap.contains_foldl_insertNew]
  exact ⟨fun hn => hn.elim id (hdims n), .inl⟩

/-! ## Instructions -/

/-- An instruction that is added without a problem refers to dimensions and known instructions. -/
theorem scoped_of_addInstruction {dtypes : SortedMap String Dtype} {ids : List String}
    {insns next : List Instruction} {s : InsnStatement} {span : Span} {id : String}
    (h : addInstruction dims dtypes (NameSet.ofList ids) insns s span id = .ok (.clean next)) :
    ∃ insn, next = insns ++ [insn] ∧ insn.id = id ∧ insn.Scoped dims ids := by
  refine addInstruction_clean (P := fun insn => insn.id = id ∧ insn.Scoped dims ids)
    (fun target expression hlowered => ⟨rfl, ?_, ?_, ?_, ?_⟩)
    (fun insn dep hdep ⟨hid, hinsn⟩ => ⟨hid, ?_, hinsn.forced, hinsn.boosted, hinsn.bound⟩)
    (fun insn n hn ⟨hid, hinsn⟩ => ⟨hid, hinsn.deps, ?_, hinsn.boosted, hinsn.bound⟩) h
  · exact fun id hid => absurd hid (NameSet.not_mem_empty id)
  · exact fun n hn => absurd hn (NameSet.not_mem_empty n)
  · exact fun _ hnone => by cases hnone
  · simp only [lowerAssignment, Attempt.bind_eq_ok, Attempt.pure_eq_ok, Prod.mk.injEq] at hlowered
    obtain ⟨_, htarget, _, hexpression, rfl, rfl⟩ := hlowered
    exact fun b hb => (List.mem_append.mp hb).elim (mem_dims_of_lower s.assignee htarget b)
      (mem_dims_of_lower s.expression hexpression b)
  · intro other hother
    rcases NameSet.mem_add.mp hother with rfl | hother
    · exact NameSet.mem_ofList.mp hdep
    · exact hinsn.deps other hother
  · intro other hother
    rcases NameSet.mem_add.mp hother with rfl | hother
    · exact hn
    · exact hinsn.forced other hother

/-- Instructions refer to dimensions and to each other, under different ids. -/
theorem scoped_of_instructions {dtypes : SortedMap String Dtype} {statements : List Statement}
    {insns : List Instruction} (h : instructions dims dtypes statements = .ok (.clean insns)) :
    (insns.map Instruction.id).Nodup ∧
      ∀ insn ∈ insns, insn.Scoped dims (insns.map Instruction.id) := by
  obtain ⟨ids, hnodup, hlength, h⟩ := instructions_clean h
  have hall : insns.map Instruction.id = ((insnStatements statements).zip ids).map Prod.snd ∧
      ∀ insn ∈ insns, insn.Scoped dims ids := by
    apply Noted.overAll_clean (P := fun done insns =>
      insns.map Instruction.id = done.map Prod.snd ∧ ∀ insn ∈ insns, insn.Scoped dims ids) _ _ h
    · simp
    · rintro done insns ⟨⟨s, span⟩, id⟩ next ⟨hids, hinsns⟩ hstep
      obtain ⟨insn, rfl, hid, hinsn⟩ := scoped_of_addInstruction hstep
      constructor
      · rw [List.map_append, List.map_append, hids, List.map_singleton, hid, List.map_singleton]
      · intro other hother
        rcases List.mem_append.mp hother with hold | hother
        · exact hinsns other hold
        · exact List.mem_singleton.mp hother ▸ hinsn
  rw [List.map_snd_zip hlength.le] at hall
  exact hall.1 ▸ ⟨hnodup, hall.2⟩

/-! ## Kernels -/

/-- A loaded kernel is well-formed. -/
theorem wellFormed_of_load {source : String} {device : Device} {k : Kernel}
    (h : load source device = .ok k) : k.WellFormed := by
  obtain ⟨file, -, hbuild⟩ := load_clean h
  obtain ⟨idents, chains, d, -, hdomain, hover⟩ := build_clean hbuild
  obtain ⟨-, htags, declared, hdeclared, hargs, htemporaries, hinsns⟩ := buildOver_clean hover
  have hdistinct := distinct_of_declarations (dims_of_domain_clean hdomain).1 hdeclared
  obtain ⟨hids, hscoped⟩ := scoped_of_instructions hinsns
  refine ⟨?_, ?_, fun n => contains_tags_iff htags, hids, hscoped⟩
  · rw [hargs, htemporaries]
    exact hdistinct.names
  · rw [htemporaries]
    exact hdistinct.temporaries

end LoopKernel.Source
