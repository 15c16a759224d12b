import LoopKernel.Proofs.Source.Places

/-!
# Kernels from statements without places

Every group of statements is read alike whether places are known or not, up to the places in the
problems. So the kernel that is built, and whether one is built, does not depend on them.
-/

namespace LoopKernel.Source

variable {dims : List String}

/-! ## Settings and the domain -/

theorem addSetting_unplaced (device : Device) (name : Ident) (value : SettingValue) :
    addSetting device name.unplaced value = (addSetting device name value).unplaced := by
  unfold addSetting
  dsimp only [Ident.unplaced]
  cases applySetting? device name.name value <;> rfl

theorem settings_unplaced (statements : List Statement) (device : Device) :
    settings (statements.map Statement.unplaced) device =
      Noted.unplaced <$> settings statements device := by
  refine Noted.overAll_unplaced (fun device s => ?_) statements (.clean device)
  obtain ⟨body, span⟩ := s
  cases body with
  | set name value _ => exact congrArg Except.ok (addSetting_unplaced device name value)
  | _ => rfl

theorem addDimension_unplaced (dims : List String) (id : Ident) :
    addDimension dims id.unplaced = (addDimension dims id).unplaced := by
  unfold addDimension
  change (if dims.contains id.name then _ else _) = _
  split <;> rfl

theorem affine_unplaced (term : Term) :
    affine dims term.unplaced = Noted.unplaced <$> affine dims term := by
  unfold affine
  rw [lower_unplaced, Attempt.toOption_mapCause, Term.span_unplaced]
  cases (lower ⟨dims, .int64⟩ term).toOption with
  | error e => rfl
  | ok o =>
    cases o with
    | none => rfl
    | some e =>
      change (e.toAffine? >>= _) = _ <$> (e.toAffine? >>= _)
      rcases e.toAffine? with _ | (_ | _) <;> rfl

theorem addComparisons_unplaced (rest : List (Comparison × Term)) (left : Option Affine)
    (s : Polyhedron) : addComparisons dims (rest.map (Prod.map id Term.unplaced)) left s =
      Noted.unplaced <$> addComparisons dims rest left s := by
  induction rest generalizing left s with
  | nil => rfl
  | cons comparison rest ih =>
    obtain ⟨op, term⟩ := comparison
    refine Noted.bind_unplaced (affine_unplaced term) fun right =>
      Noted.andThen_unplaced fun form => ?_
    dsimp only [id_eq]
    cases compareForms s op left form with
    | error e => rfl
    | ok s => exact ih form s

theorem addChain_unplaced (s : Polyhedron) (chain : Chain) :
    addChain dims s chain.unplaced = Noted.unplaced <$> addChain dims s chain :=
  Noted.bind_unplaced (affine_unplaced chain.first) fun _ =>
    Noted.andThen_unplaced fun form => addComparisons_unplaced chain.rest form s

theorem domain_unplaced (dims : List Ident) (chains : List Chain) :
    domain (dims.map Ident.unplaced) (chains.map Chain.unplaced) =
      Noted.unplaced <$> domain dims chains :=
  Noted.bind_unplaced
    (Noted.overAll_pure_unplaced (fun dims id => addDimension_unplaced dims id)
      dims (.clean []))
    fun _ => Noted.andThen_unplaced fun dims =>
      Noted.overAll_unplaced addChain_unplaced chains (.clean (.whole dims))

/-! ## Arguments and temporaries -/

theorem declare_unplaced (d : Declared) (dtype name : Ident)
    {next next' : Declared → Dtype → Checked (Noted Declared)}
    (h : ∀ d type, next' d type = Noted.unplaced <$> next d type) :
    declare d dtype.unplaced name.unplaced next' =
      Noted.unplaced <$> declare d dtype name next := by
  unfold declare
  dsimp only [Ident.unplaced]
  cases Dtype.ofName? dtype.name with
  | none => rfl
  | some type =>
    by_cases htaken : d.taken.contains name.name
    · simp only [htaken, if_true]
      rfl
    · simp only [htaken, if_false, Bool.false_eq_true]
      exact h _ _

theorem argumentKind_unplaced (form : ArgumentForm) :
    argumentKind dims form.unplaced =
      (argumentKind dims form).mapCause Diagnostic.unplaced := by
  cases form with
  | global shape | image shape =>
    rw [ArgumentForm.unplaced, ← Term.allUnplaced_eq_map, argumentKind, argumentKind,
      lowerAll_unplaced, Attempt.mapCause_bind]
    rfl
  | scalar approximately span => rfl

theorem addArgument_unplaced (d : Declared) (form : ArgumentForm) (dtype name : Ident) :
    addArgument dims d form.unplaced dtype.unplaced name.unplaced =
      Noted.unplaced <$> addArgument dims d form dtype name := by
  refine declare_unplaced d dtype name fun d type => ?_
  rw [argumentKind_unplaced, Attempt.caught_mapCause]
  rcases (argumentKind dims form).caught with _ | (_ | _) <;> rfl

theorem positiveConstant?_unplaced (term : Term) :
    positiveConstant? dims term.unplaced = positiveConstant? dims term := by
  unfold positiveConstant?
  rw [lower_unplaced, Attempt.toOption_mapCause]

theorem extents_unplaced (shape : List Term) :
    extents dims (shape.map Term.unplaced) =
      Except.mapError Term.unplaced <$> extents dims shape := by
  induction shape with
  | nil => rfl
  | cons t rest ih =>
    rw [List.map_cons, extents, extents, positiveConstant?_unplaced, ih]
    rcases positiveConstant? dims t with _ | (_ | n)
    · rfl
    · rfl
    · rcases extents dims rest with _ | (_ | _) <;> rfl

theorem addTemporary_unplaced (d : Declared) (dtype name : Ident) (shape : List Term) :
    addTemporary dims d dtype.unplaced name.unplaced (shape.map Term.unplaced) =
      Noted.unplaced <$> addTemporary dims d dtype name shape := by
  refine declare_unplaced d dtype name fun d type => ?_
  rw [extents_unplaced]
  rcases extents dims shape with _ | (t | _)
  · rfl
  · change Except.ok (Noted.problem d (.about (.source t.unplaced.span) _)) = _
    rw [Term.span_unplaced]
    rfl
  · rfl

theorem declarations_unplaced (statements : List Statement) :
    declarations dims (statements.map Statement.unplaced) =
      Noted.unplaced <$> declarations dims statements := by
  unfold declarations
  dsimp only
  generalize (⟨NameSet.ofList dims, ∅, [], ∅⟩ : Declared) = start
  refine Noted.bind_unplaced
    (Noted.overAll_unplaced (fun d s => ?_) statements (.clean start))
    fun args => Noted.overAll_unplaced (fun d s => ?_) statements args
  · obtain ⟨body, span⟩ := s
    cases body with
    | arg form dtype name => exact addArgument_unplaced d form dtype name
    | _ => rfl
  · obtain ⟨body, span⟩ := s
    cases body with
    | temp dtype name shape => exact addTemporary_unplaced d dtype name shape
    | _ => rfl

/-! ## Tags -/

theorem addTag_unplaced (tags : SortedMap String IndexTag) (entry : TagEntry) :
    addTag dims tags entry.unplaced = (addTag dims tags entry).unplaced := by
  unfold addTag
  change (if dims.contains entry.iname.name then _ else _) = _
  split <;> rfl

theorem tagEntries_unplaced (statements : List Statement) :
    tagEntries (statements.map Statement.unplaced) =
      (tagEntries statements).map TagEntry.unplaced := by
  induction statements with
  | nil => rfl
  | cons s rest ih =>
    obtain ⟨body, span⟩ := s
    change _ ++ tagEntries _ = (_ ++ tagEntries rest).map _
    rw [ih, List.map_append]
    cases body <;> rfl

theorem tags_unplaced (statements : List Statement) :
    tags dims (statements.map Statement.unplaced) = Noted.unplaced <$> tags dims statements := by
  unfold tags
  rw [tagEntries_unplaced]
  exact Noted.bind_unplaced
    (Noted.overAll_pure_unplaced (fun tags entry => addTag_unplaced tags entry)
      (tagEntries statements) (.clean ∅))
    fun _ => rfl

/-! ## Instructions -/

theorem claimId_unplaced (ids : NameSet) (id : Option Ident) :
    claimId ids (id.map Ident.unplaced) = (claimId ids id).unplaced := by
  cases id with
  | none => rfl
  | some id =>
    rw [Option.map_some, claimId, claimId]
    change (if ids.contains id.name then _ else _) = _
    split <;> rfl

theorem assignIds_unplaced (taken : List String) (given : List (Option Ident)) :
    assignIds taken (given.map (Option.map Ident.unplaced)) = assignIds taken given := by
  induction given generalizing taken with
  | nil => rfl
  | cons id rest ih =>
    cases id with
    | none =>
      rw [List.map_cons, Option.map_none, assignIds, assignIds, ih]
    | some id =>
      rw [List.map_cons, Option.map_some, assignIds, assignIds, ih]
      rfl

theorem addDep_unplaced (known : NameSet) (insn : Instruction) (dep : Ident) :
    addDep known insn dep.unplaced = (addDep known insn dep).unplaced := by
  unfold addDep
  change (if known.contains dep.name then _ else _) = _
  split <;> rfl

theorem addForcedIname_unplaced (span : Span) (insn : Instruction) (iname : Ident) :
    addForcedIname dims .nowhere insn iname.unplaced =
      (addForcedIname dims span insn iname).unplaced := by
  unfold addForcedIname
  change (if dims.contains iname.name then _ else _) = _
  split <;> rfl

theorem lowerAssignment_unplaced (scope : Scope) (s : InsnStatement) :
    lowerAssignment scope s.unplaced =
      (lowerAssignment scope s).mapCause Diagnostic.unplaced := by
  unfold lowerAssignment
  change (lower scope s.assignee.unplaced >>= fun _ => lower scope s.expression.unplaced >>= _) = _
  simp only [lower_unplaced, Attempt.mapCause_bind]
  rfl

theorem assigned_unplaced (term : Term) : assigned term.unplaced = assigned term := by
  cases term <;> rfl

theorem addInstruction_unplaced {dtypes : SortedMap String Dtype} {known : NameSet}
    (insns : List Instruction) (s : InsnStatement) (span : Span) (id : String) :
    addInstruction dims dtypes known insns s.unplaced .nowhere id =
      Noted.unplaced <$> addInstruction dims dtypes known insns s span id := by
  unfold addInstruction
  rw [show assigned s.unplaced.assignee = assigned s.assignee from assigned_unplaced s.assignee]
  dsimp only
  rw [lowerAssignment_unplaced, Attempt.caught_mapCause]
  rcases (lowerAssignment ⟨dims, dtypes.getD (assigned s.assignee) .float32⟩ s).caught with
    _ | (d | ⟨target, expression⟩)
  · rfl
  · change Except.ok (Noted.problem insns _) = Except.ok (Noted.problem insns _)
    rw [Diagnostic.unplaced_relatedTo]
    rfl
  · refine Noted.bind_unplaced
      (Noted.overAll_pure_unplaced (fun insn dep => addDep_unplaced known insn dep) s.deps
        (.clean (.assign id target expression)))
      fun withDeps => ?_
    refine Noted.bind_unplaced
      (Noted.overAll_pure_unplaced (fun insn iname => addForcedIname_unplaced span insn iname)
        s.inames withDeps)
      fun _ => rfl

theorem insnStatements_unplaced (statements : List Statement) :
    insnStatements (statements.map Statement.unplaced) =
      (insnStatements statements).map fun s => (s.1.unplaced, .nowhere) := by
  induction statements with
  | nil => rfl
  | cons s rest ih =>
    obtain ⟨body, span⟩ := s
    cases body with
    | insn statement => exact congrArg (List.cons _) ih
    | _ => exact ih

theorem instructions_unplaced (dtypes : SortedMap String Dtype) (statements : List Statement) :
    instructions dims dtypes (statements.map Statement.unplaced) =
      Noted.unplaced <$> instructions dims dtypes statements := by
  unfold instructions
  dsimp only
  rw [insnStatements_unplaced]
  generalize insnStatements statements = stmts
  have hids : (stmts.map fun s => (s.1.unplaced, Span.nowhere)).map (fun s => s.1.id) =
      (stmts.map fun s => s.1.id).map (Option.map Ident.unplaced) := by
    rw [List.map_map, List.map_map]
    rfl
  rw [hids]
  refine Noted.bind_unplaced (Noted.overAll_pure_unplaced (fun ids id =>
      claimId_unplaced ids id) _ (.clean ∅))
    fun claimed => Noted.andThen_unplaced fun taken => ?_
  rw [assignIds_unplaced, List.zip_map_left]
  exact Noted.overAll_unplaced (fun insns ((s, span), id) =>
    addInstruction_unplaced insns s span id) _ (.clean [])

/-! ## Kernels -/

theorem kernelName_unplaced (statements : List Statement) :
    kernelName (statements.map Statement.unplaced) = kernelName statements := by
  unfold kernelName
  rw [List.foldl_map]
  congr 1
  funext name s
  obtain ⟨body, span⟩ := s
  cases body <;> rfl

theorem domainStatements_unplaced (statements : List Statement) :
    domainStatements (statements.map Statement.unplaced) =
      (domainStatements statements).map fun s =>
        ((s.1.1.map Ident.unplaced, s.1.2.map Chain.unplaced), .nowhere) := by
  induction statements with
  | nil => rfl
  | cons s rest ih =>
    obtain ⟨body, span⟩ := s
    cases body with
    | domain dims chains => exact congrArg (List.cons _) ih
    | _ => exact ih

theorem buildOver_unplaced (statements : List Statement) (device : Device) (domain : Polyhedron) :
    buildOver (statements.map Statement.unplaced) device domain =
      Noted.unplaced <$> buildOver statements device domain := by
  unfold buildOver
  rw [kernelName_unplaced]
  exact Noted.bind_unplaced (declarations_unplaced statements) fun _ =>
    Noted.andThen_unplaced fun declared =>
      Noted.bind_unplaced (tags_unplaced statements) fun _ => Noted.andThen_unplaced fun tags =>
        Noted.bind_unplaced (instructions_unplaced declared.dtypes statements) fun _ =>
          Noted.andThen_unplaced fun _ => rfl

/-- Statements without places build the same kernel, with the same problems without places. -/
theorem build_unplaced (statements : List Statement) (device : Device) :
    build (statements.map Statement.unplaced) device =
      Noted.unplaced <$> build statements device := by
  unfold build
  rw [domainStatements_unplaced]
  refine Noted.bind_unplaced (settings_unplaced statements device) fun _ =>
    Noted.andThen_unplaced fun device => ?_
  rcases domainStatements statements with _ | ⟨⟨⟨dims, chains⟩, span⟩, others⟩
  · rfl
  · have hrepeated :
        (others.map fun s =>
          ((s.1.1.map Ident.unplaced, s.1.2.map Chain.unplaced), Span.nowhere)).map
          (fun s => Diagnostic.about (.source s.2) .repeatedDomain) =
        (others.map fun s => Diagnostic.about (.source s.2) .repeatedDomain).map
          Diagnostic.unplaced := by
      simp only [List.map_map]
      rfl
    rw [List.map_cons]
    dsimp only
    rw [hrepeated]
    refine Noted.andThen_unplaced (n := ⟨(), _⟩) fun _ => ?_
    exact Noted.bind_unplaced (domain_unplaced dims chains) fun _ =>
      Noted.andThen_unplaced fun domain => buildOver_unplaced statements device domain

end LoopKernel.Source
