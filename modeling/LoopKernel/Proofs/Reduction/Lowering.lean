import LoopKernel.Proofs.Reduction.Records

/-!
# What reductions become

Every reduction becomes a temporary with one element for each lane, and two instructions with new
ids, whatever the kernel mentions. The update of an accumulator reads the accumulator, the lanes,
what the body mentions outside of the reductions in it, and the accumulators of these reductions, on
whose updates it depends. So the instructions may run in the order in which they are emitted.
-/

namespace LoopKernel

/-! ## Order of dependencies -/

namespace Instruction

/-- Whether instructions depend only on known ids and on instructions before them. -/
def InOrder (known : List String) : List Instruction → Prop
  | [] => True
  | insn :: rest => (∀ id ∈ insn.deps, id ∈ known) ∧ InOrder (known ++ [insn.id]) rest

instance decidableInOrder : (known : List String) → (insns : List Instruction) →
    Decidable (InOrder known insns)
  | _, [] => .isTrue trivial
  | known, insn :: rest =>
    have := decidableInOrder (known ++ [insn.id]) rest
    inferInstanceAs (Decidable (_ ∧ _))

variable {known : List String} {insns rest : List Instruction}

/-- Instructions in order may be followed by ones that depend on them. -/
theorem inOrder_append : InOrder known (insns ++ rest) ↔
    InOrder known insns ∧ InOrder (known ++ insns.map Instruction.id) rest := by
  induction insns generalizing known with
  | nil => simp [InOrder]
  | cons insn insns ih =>
    rw [List.cons_append, InOrder, InOrder, ih, List.map_cons, List.append_assoc,
      List.singleton_append, and_assoc]

end Instruction

/-! ## Accumulators -/

/-- The element of an accumulator is the only array access in it. -/
theorem ReductionOwner.eq_of_mem_arrayAccesses_element {owner : ReductionOwner} {name : String}
    {access : String × List Expr} (h : access ∈ (owner.element name).arrayAccesses) :
    owner.element name = .subscript access.1 access.2 := by
  have hnone : ∀ lanes : List (String × Int),
      Expr.arrayAccessesOfAll (lanes.map fun lane => .var lane.1) = [] := by
    intro lanes
    induction lanes with
    | nil => rfl
    | cons _ _ ih => exact ih
  unfold element at h ⊢
  split at h
  · cases h
  · rw [Expr.arrayAccesses, hnone, List.mem_singleton] at h
    rw [h]

/-- The temporary that an accumulator is, with one element for each lane. -/
def ReductionOwner.temporary (owner : ReductionOwner) (a : Accumulator) : Temporary :=
  Temporary.ofShape a.name a.op.dtype (owner.lanes.map Prod.snd)

namespace ReductionOp

/-- A neutral element accesses no array. -/
theorem arrayAccesses_neutral (op : ReductionOp) : op.neutral.arrayAccesses = [] := by
  unfold neutral
  split <;> rfl

/-- The operation accesses the arrays that its operands access. -/
theorem arrayAccesses_apply (op : ReductionOp) (e f : Expr) :
    (op.apply e f).arrayAccesses = e.arrayAccesses ++ f.arrayAccesses := by
  unfold apply
  split <;> simp [Expr.arrayAccesses, Expr.arrayAccessesOfAll]

end ReductionOp

namespace Accumulator

/-- What holds of an accumulator alone: its name and ids are new, the first instruction sets it to
the neutral element, and the second one waits for the first one and for whatever the owner waits
for. -/
structure Lowered (k : Kernel) (owner : ReductionOwner) (a : Accumulator) : Prop where
  undeclared : a.name ∉ k.names
  ids : a.init.id ∉ k.insnIds ∧ a.update.id ∉ k.insnIds
  initAssignee : a.init.assignee = owner.element a.name
  neutral : a.init.expression = a.op.neutral
  updateAssignee : a.update.assignee = owner.element a.name
  waits : a.init.id ∈ a.update.deps ∧ ∀ id ∈ owner.deps, id ∈ a.update.deps

/-- What the update of an accumulator applies the operation to. It mentions what the body of the
reduction mentions outside of the reductions in it, the lanes, and accumulators whose updates have
to run before; and it accesses elements of these at the lanes. -/
def Reads (owner : ReductionOwner) (accs : List Accumulator) (a : Accumulator) : Prop :=
  ∃ value, a.update.expression = a.op.apply (owner.element a.name) value ∧
    (∀ n ∈ value.dependencies, n ∈ a.body.surfaceNames ∨ n ∈ owner.laneNames ∨
      ∃ b ∈ accs, b.name = n ∧ b.update.id ∈ a.update.deps) ∧
    ∀ access ∈ value.arrayAccesses, access.1 ∈ a.body.surfaceNames ∨
      ∃ b ∈ accs, owner.element b.name = .subscript access.1 access.2

/-- The ids of the instructions of accumulators. -/
def idsOf (accs : List Accumulator) : List String := (accs.flatMap instructions).map Instruction.id

variable {accs more : List Accumulator}

theorem idsOf_append : idsOf (accs ++ more) = idsOf accs ++ idsOf more := by
  rw [idsOf, List.flatMap_append, List.map_append]
  rfl

/-- The id of an update is one of the ids. -/
theorem update_mem_idsOf {a : Accumulator} (ha : a ∈ accs) : a.update.id ∈ idsOf accs :=
  List.mem_map_of_mem (List.mem_flatMap.mpr
    ⟨a, ha, List.mem_cons_of_mem _ (List.mem_singleton_self _)⟩)

/-- One of the first accumulators is one of all. -/
theorem exists_left {P : Accumulator → Prop} : (∃ a ∈ accs, P a) → ∃ a ∈ accs ++ more, P a :=
  fun ⟨a, ha, hP⟩ => ⟨a, List.mem_append_left more ha, hP⟩

/-- One of the last accumulators is one of all. -/
theorem exists_right {P : Accumulator → Prop} : (∃ a ∈ more, P a) → ∃ a ∈ accs ++ more, P a :=
  fun ⟨a, ha, hP⟩ => ⟨a, List.mem_append_right accs ha, hP⟩

/-- More accumulators may be read. -/
theorem Reads.mono {owner : ReductionOwner} {a : Accumulator} (h : a.Reads owner accs)
    (hsub : ∀ b ∈ accs, b ∈ more) : a.Reads owner more := by
  obtain ⟨value, hexpression, hnames, haccesses⟩ := h
  exact ⟨value, hexpression,
    fun n hn => (hnames n hn).imp_right (Or.imp_right fun ⟨b, hb, h⟩ => ⟨b, hsub b hb, h⟩),
    fun access haccess => (haccesses access haccess).imp_right fun ⟨b, hb, h⟩ => ⟨b, hsub b hb, h⟩⟩

end Accumulator

namespace Realization

variable {k : Kernel} {owner : ReductionOwner} {insn : Instruction} {r s t : Realization}
  {es es' fs fs' : List Expr} {accs more : List Accumulator}

open Accumulator (idsOf exists_left exists_right)

/-- What comes into a state with accumulators: their instructions, temporaries with new names, new
ids, and updates. The instructions are in order after those that the owner waits for. -/
structure Grows (k : Kernel) (owner : ReductionOwner) (r : Realization) (accs : List Accumulator)
    (s : Realization) : Prop where
  emitted : s.emitted = r.emitted ++ accs.flatMap Accumulator.instructions
  lowered : ∀ a ∈ accs, a.Lowered k owner
  temporaries : ∀ n t, s.temporaries.get? n = some t ↔
    r.temporaries.get? n = some t ∨ ∃ a ∈ accs, a.name = n ∧ owner.temporary a = t
  nodup : (accs.map Accumulator.name).Nodup
  new : ∀ a ∈ accs, r.temporaries.get? a.name = none
  ids : (idsOf accs).Nodup
  idsNew : ∀ id ∈ idsOf accs, id ∉ r.ids
  idsKept : ∀ id, id ∈ r.ids ∨ id ∈ idsOf accs → id ∈ s.ids
  updates : ∀ n id, s.updates.get? n = some id ↔
    (n ∉ accs.map Accumulator.name ∧ r.updates.get? n = some id) ∨
      ∃ a ∈ accs, a.name = n ∧ a.update.id = id
  ordered : ∀ known, (∀ id ∈ owner.deps, id ∈ known) →
    (∀ n id, r.updates.get? n = some id → id ∈ known) →
      Instruction.InOrder known (accs.flatMap Accumulator.instructions)

namespace Grows

/-- Nothing comes in. -/
theorem refl (k : Kernel) (owner : ReductionOwner) (r : Realization) : Grows k owner r [] r where
  emitted := (List.append_nil _).symm
  lowered := by simp
  temporaries := by simp
  nodup := List.nodup_nil
  new := by simp
  ids := List.nodup_nil
  idsNew := by simp [idsOf]
  idsKept := by simp [idsOf]
  updates := by simp
  ordered _ _ _ := trivial

/-- Accumulators that are made later have other names. -/
private theorem name_ne (h : Grows k owner r accs s) (h' : Grows k owner s more t)
    {a b : Accumulator} (ha : a ∈ accs) (hb : b ∈ more) : a.name ≠ b.name := by
  intro hsame
  have hin := (h.temporaries a.name _).mpr (.inr ⟨a, ha, rfl, rfl⟩)
  rw [hsame, h'.new b hb] at hin
  cases hin

/-- More accumulators come in after others. -/
theorem trans (h : Grows k owner r accs s) (h' : Grows k owner s more t) :
    Grows k owner r (accs ++ more) t where
  emitted := by rw [h'.emitted, h.emitted, List.flatMap_append, List.append_assoc]
  lowered := List.forall_mem_append.mpr ⟨h.lowered, h'.lowered⟩
  temporaries n t := by
    simp only [h'.temporaries, h.temporaries, List.mem_append, or_and_right, exists_or, or_assoc]
  nodup := by
    rw [List.map_append, List.nodup_append']
    refine ⟨h.nodup, h'.nodup, fun n hn hn' => ?_⟩
    obtain ⟨a, ha, rfl⟩ := List.mem_map.mp hn
    obtain ⟨b, hb, hsame⟩ := List.mem_map.mp hn'
    exact h.name_ne h' ha hb hsame.symm
  new := by
    refine List.forall_mem_append.mpr ⟨h.new, fun a ha => ?_⟩
    cases hget : r.temporaries.get? a.name with
    | none => rfl
    | some t =>
      have hin := (h.temporaries a.name t).mpr (.inl hget)
      rw [h'.new a ha] at hin
      cases hin
  ids := by
    rw [Accumulator.idsOf_append, List.nodup_append']
    exact ⟨h.ids, h'.ids, fun id hid hid' => h'.idsNew id hid' (h.idsKept id (.inr hid))⟩
  idsNew := by
    rw [Accumulator.idsOf_append, List.forall_mem_append]
    exact ⟨h.idsNew, fun id hid hold => h'.idsNew id hid (h.idsKept id (.inl hold))⟩
  idsKept id hid := by
    rw [Accumulator.idsOf_append, List.mem_append, ← or_assoc] at hid
    exact h'.idsKept id (hid.imp_left (h.idsKept id))
  updates n id := by
    have hdisjoint : n ∈ more.map Accumulator.name →
        ¬∃ a ∈ accs, a.name = n ∧ a.update.id = id := by
      rintro hmore ⟨a, ha, rfl, -⟩
      obtain ⟨b, hb, hsame⟩ := List.mem_map.mp hmore
      exact h.name_ne h' ha hb hsame.symm
    rw [h'.updates, h.updates, List.map_append, List.mem_append]
    simp only [List.mem_append, or_and_right, exists_or]
    by_cases hmore : n ∈ more.map Accumulator.name
    · simp only [hmore, hdisjoint hmore, not_true, false_and, or_true, false_or]
    · simp only [hmore, not_false_eq_true, true_and, or_false, or_assoc]
  ordered known hdeps hupdates := by
    rw [List.flatMap_append, Instruction.inOrder_append]
    refine ⟨h.ordered known hdeps hupdates,
      h'.ordered _ (fun id hid => List.mem_append_left _ (hdeps id hid)) fun n id hid => ?_⟩
    rw [List.mem_append]
    rcases (h.updates n id).mp hid with ⟨-, hold⟩ | ⟨a, ha, -, rfl⟩
    · exact .inl (hupdates n id hold)
    · exact .inr (Accumulator.update_mem_idsOf ha)

end Grows

/-- What becomes of a reduction whose body has been realized: an element of a new accumulator, whose
update depends on those of the accumulators that the body has now. -/
structure Adds (k : Kernel) (owner : ReductionOwner) (acc : Accumulator) (body' : Expr)
    (s : Realization) (e' : Expr) (t : Realization) : Prop extends Grows k owner s [acc] t where
  element : e' = owner.element acc.name
  expression : acc.update.expression = acc.op.apply (owner.element acc.name) body'
  waits : ∀ n ∈ body'.dependencies, ∀ id, s.updates.get? n = some id → id ∈ acc.update.deps

/-- Realizing a reduction adds an accumulator. -/
theorem exists_adds (k : Kernel) (owner : ReductionOwner) (insn : Instruction) (op : ReductionOp)
    (binders : List Binder) (body body' : Expr) (s : Realization) :
    ∃ name init update, Adds k owner ⟨⟨insn, op, binders, body⟩, name, init, update⟩ body' s
      (realize k owner op binders body' s).1 (realize k owner op binders body' s).2 := by
  obtain ⟨name, initId, updateId, t, hrealize, hname, htemporaries, hinit, hupdate, hids, hupdates,
    hemitted⟩ := realize_spec k owner op binders body' s
  obtain ⟨hnames, hkeys, -⟩ := freshVar_acc k s.temporaries.keys
  rw [← hname] at hnames hkeys
  have hnew : s.temporaries.get? name = none := by
    rw [Option.eq_none_iff_forall_ne_some]
    exact fun u hu => hkeys (SortedMap.mem_keys.mpr (SortedMap.contains_iff.mpr ⟨u, hu⟩))
  have hdeps : ∀ id, id ∈ (owner.deps.add initId).addAll (updatesRead s.updates body') ↔
      (∃ n ∈ body'.dependencies, s.updates.get? n = some id) ∨ id = initId ∨ id ∈ owner.deps := by
    intro id
    rw [NameSet.mem_addAll, NameSet.mem_add, updatesRead, List.mem_filterMap]
    simp only [NameSet.mem_toList]
  simp only [List.mem_cons, not_or] at hupdate
  rw [hrealize]
  refine ⟨name, _, _, {
    emitted := hemitted
    lowered := List.forall_mem_singleton.mpr ⟨hnames, ⟨hinit.1, hupdate.1⟩, rfl, rfl, rfl,
      (hdeps _).mpr (.inr (.inl rfl)), fun id hid => (hdeps _).mpr (.inr (.inr hid))⟩
    temporaries := fun n u => ?_
    nodup := List.nodup_singleton _
    new := List.forall_mem_singleton.mpr hnew
    ids := ?_, idsNew := ?_, idsKept := fun id hid => ?_
    updates := fun n id => ?_
    ordered := fun known hknown hread => ⟨?_, ⟨fun id hid => ?_, trivial⟩⟩
    element := rfl, expression := rfl
    waits := fun n hn id hid => (hdeps id).mpr (.inl ⟨n, hn, hid⟩) }⟩
  · rw [htemporaries, SortedMap.get?_insert]
    simp only [List.mem_singleton, exists_eq_left]
    by_cases hn : n = name
    · rw [if_pos hn, hn, hnew, Option.some.injEq]
      simp [ReductionOwner.temporary]
    · rw [if_neg hn]
      simp [Ne.symm hn]
  · refine List.nodup_cons.mpr ⟨fun h => ?_, List.nodup_singleton _⟩
    exact hupdate.2.1 (List.mem_singleton.mp h).symm
  · exact List.forall_mem_cons.mpr ⟨hinit.2, List.forall_mem_singleton.mpr hupdate.2.2⟩
  · rw [hids]
    rcases hid with hold | hnew
    · simp [hold]
    · rcases List.mem_cons.mp hnew with rfl | hnew
      · exact List.mem_cons_of_mem _ List.mem_cons_self
      · exact List.mem_singleton.mp hnew ▸ List.mem_cons_self
  · rw [hupdates, SortedMap.get?_insert]
    simp only [List.mem_singleton, exists_eq_left, List.map_singleton]
    by_cases hn : n = name
    · rw [if_pos hn, Option.some.injEq]
      simp [hn, Instruction.assign]
    · rw [if_neg hn]
      simp [hn, Ne.symm hn]
  · exact fun id hid => absurd hid (NameSet.not_mem_empty id)
  · rw [List.mem_append, List.mem_singleton]
    rcases (hdeps id).mp hid with ⟨n, -, hget⟩ | hinitId | hown
    · exact .inl (hread n id hget)
    · exact .inr hinitId
    · exact .inl (hknown id hown)

/-- What stands in the place of several expressions when their reductions are realized: names
outside of reductions stay, lanes and accumulators come in. -/
structure Replaces (owner : ReductionOwner) (insn : Instruction) (es es' : List Expr)
    (accs : List Accumulator) : Prop where
  reductions : accs.map Accumulator.toReduction = Expr.reductionsOfAll insn es
  owners : ∀ a ∈ accs, a.owner = insn
  reads : ∀ a ∈ accs, a.Reads owner accs
  names : ∀ n ∈ Expr.dependenciesOfAll es', n ∈ Expr.surfaceNamesOfAll es ∨
    n ∈ owner.laneNames ∨ ∃ a ∈ accs, a.name = n
  accesses : ∀ access ∈ Expr.arrayAccessesOfAll es', access.1 ∈ Expr.surfaceNamesOfAll es ∨
    ∃ a ∈ accs, owner.element a.name = .subscript access.1 access.2

/-- What becomes of several expressions when their reductions are realized, whatever they mention:
the accumulators that come in, in the order of the reductions, and what stands in their place. -/
structure Lowers (k : Kernel) (owner : ReductionOwner) (insn : Instruction) (r : Realization)
    (es es' : List Expr) (accs : List Accumulator) (s : Realization) : Prop
    extends Grows k owner r accs s, Replaces owner insn es es' accs

namespace Lowers

/-- No expressions. -/
theorem nil (k : Kernel) (owner : ReductionOwner) (insn : Instruction) (r : Realization) :
    Lowers k owner insn r [] [] [] r where
  toGrows := .refl k owner r
  reductions := rfl
  owners := by simp
  reads := by simp
  names := by simp [Expr.dependenciesOfAll]
  accesses := by simp [Expr.arrayAccessesOfAll]

/-- One more expression in front. -/
theorem cons {e e' : Expr} (h : Lowers k owner insn r [e] [e'] accs s)
    (h' : Lowers k owner insn s es es' more t) :
    Lowers k owner insn r (e :: es) (e' :: es') (accs ++ more) t where
  toGrows := h.toGrows.trans h'.toGrows
  reductions := by
    rw [List.map_append, h.reductions, h'.reductions]
    simp [Expr.reductionsOfAll]
  owners := List.forall_mem_append.mpr ⟨h.owners, h'.owners⟩
  reads := List.forall_mem_append.mpr
    ⟨fun a ha => (h.reads a ha).mono fun _ => List.mem_append_left _,
      fun a ha => (h'.reads a ha).mono fun _ => List.mem_append_right _⟩
  names n hn := by
    rw [Expr.mem_dependenciesOfAll_cons] at hn
    rw [Expr.mem_surfaceNamesOfAll_cons]
    rcases hn with hn | hn
    · exact (h.names n hn).imp .inl (Or.imp_right exists_left)
    · exact (h'.names n hn).imp .inr (Or.imp_right exists_right)
  accesses access haccess := by
    rw [Expr.arrayAccessesOfAll, List.mem_append] at haccess
    rw [Expr.mem_surfaceNamesOfAll_cons]
    rcases haccess with haccess | haccess
    · have hfirst := h.accesses access (by simpa [Expr.arrayAccessesOfAll] using haccess)
      exact hfirst.imp .inl exists_left
    · exact (h'.accesses access haccess).imp .inr exists_right

/-- An expression around others that has no reduction of its own. -/
theorem node {e e' : Expr} (own : NameSet) (h : Lowers k owner insn r es es' accs s)
    (hreductions : e.reductions insn = Expr.reductionsOfAll insn es)
    (hsurface : ∀ n, n ∈ e.surfaceNames ↔ n ∈ own ∨ n ∈ Expr.surfaceNamesOfAll es)
    (hdeps : ∀ n, n ∈ e'.dependencies ↔ n ∈ own ∨ n ∈ Expr.dependenciesOfAll es')
    (haccesses : ∀ access ∈ e'.arrayAccesses,
      access.1 ∈ own ∨ access ∈ Expr.arrayAccessesOfAll es') :
    Lowers k owner insn r [e] [e'] accs s := by
  refine { h with
    reductions := ?_, names := fun n hn => ?_, accesses := fun access haccess => ?_ }
  · rw [h.reductions, Expr.reductionsOfAll, Expr.reductionsOfAll, List.append_nil, hreductions]
  · rw [Expr.mem_dependenciesOfAll_singleton, hdeps] at hn
    rw [Expr.mem_surfaceNamesOfAll_singleton, hsurface]
    rcases hn with hn | hn
    · exact .inl (.inl hn)
    · exact (h.names n hn).imp_left .inr
  · rw [Expr.arrayAccessesOfAll, Expr.arrayAccessesOfAll, List.append_nil] at haccess
    rw [Expr.mem_surfaceNamesOfAll_singleton, hsurface]
    rcases haccesses access haccess with hown | hinner
    · exact .inl (.inl hown)
    · exact (h.accesses access hinner).imp_left .inr

/-- A literal or a name. -/
theorem leaf (k : Kernel) (owner : ReductionOwner) (insn : Instruction) (r : Realization) {e : Expr}
    (hreductions : e.reductions insn = []) (hsurface : e.surfaceNames = e.dependencies)
    (haccesses : e.arrayAccesses = []) : Lowers k owner insn r [e] [e] [] r :=
  (nil k owner insn r).node e.dependencies hreductions (by simp [hsurface, Expr.surfaceNamesOfAll])
    (by simp [Expr.dependenciesOfAll]) (by simp [haccesses])

/-- An element of an array. -/
theorem subscript (aggregate : String) (h : Lowers k owner insn r es es' accs s) :
    Lowers k owner insn r [.subscript aggregate es] [.subscript aggregate es'] accs s :=
  h.node (NameSet.ofList [aggregate]) rfl (by simp [Expr.surfaceNames])
    (by simp [Expr.dependencies]) fun access haccess => by
      rw [Expr.arrayAccesses, List.mem_cons] at haccess
      exact haccess.imp_left fun hown => by simp [hown]

/-- An operation on all of several operands. -/
theorem operation (build : List Expr → Expr)
    (hreductions : ∀ es, (build es).reductions insn = Expr.reductionsOfAll insn es)
    (hsurface : ∀ es, (build es).surfaceNames = Expr.surfaceNamesOfAll es)
    (hdeps : ∀ es, (build es).dependencies = Expr.dependenciesOfAll es)
    (haccesses : ∀ es, (build es).arrayAccesses = Expr.arrayAccessesOfAll es)
    (h : Lowers k owner insn r es es' accs s) :
    Lowers k owner insn r [build es] [build es'] accs s :=
  h.node ∅ (hreductions es) (by simp [hsurface]) (by simp [hdeps]) (by simp [haccesses])

/-- An operation on two operands. -/
theorem binary {a a' b b' : Expr} (op : BinaryOp)
    (h : Lowers k owner insn r [a, b] [a', b'] accs s) :
    Lowers k owner insn r [.binary op a b] [.binary op a' b'] accs s :=
  h.node ∅ (by simp [Expr.reductions, Expr.reductionsOfAll])
    (by simp [Expr.surfaceNames, Expr.surfaceNamesOfAll])
    (by simp [Expr.dependencies, Expr.dependenciesOfAll])
    (by simp [Expr.arrayAccesses, Expr.arrayAccessesOfAll])

/-- A reduction after those in its body. -/
theorem reduction {acc : Accumulator} {body' e' : Expr}
    (h : Lowers k owner acc.owner r [acc.body] [body'] accs s)
    (hacc : Adds k owner acc body' s e' t) :
    Lowers k owner acc.owner r [.reduction acc.op acc.binders acc.body] [e'] (accs ++ [acc]) t where
  toGrows := h.toGrows.trans hacc.toGrows
  reductions := by
    rw [List.map_append, h.reductions]
    simp [Expr.reductionsOfAll, Expr.reductions]
  owners := List.forall_mem_append.mpr ⟨h.owners, List.forall_mem_singleton.mpr rfl⟩
  reads := by
    refine List.forall_mem_append.mpr ⟨fun a ha => (h.reads a ha).mono fun _ =>
      List.mem_append_left _, List.forall_mem_singleton.mpr ⟨body', hacc.expression, ?_, ?_⟩⟩
    · intro n hn
      rcases h.names n (Expr.mem_dependenciesOfAll_singleton.mpr hn) with hsurface | hlane | hread
      · exact .inl (Expr.mem_surfaceNamesOfAll_singleton.mp hsurface)
      · exact .inr (.inl hlane)
      · obtain ⟨b, hb, rfl⟩ := hread
        have hupdate := (h.updates b.name b.update.id).mpr (.inr ⟨b, hb, rfl, rfl⟩)
        exact .inr (.inr ⟨b, List.mem_append_left _ hb, rfl, hacc.waits _ hn _ hupdate⟩)
    · intro access haccess
      have hinner := h.accesses access (by simpa [Expr.arrayAccessesOfAll] using haccess)
      exact hinner.imp Expr.mem_surfaceNamesOfAll_singleton.mp exists_left
  names n hn := by
    rw [Expr.mem_dependenciesOfAll_singleton, hacc.element,
      ReductionOwner.mem_dependencies_element] at hn
    rcases hn with rfl | hlane
    · exact .inr (.inr ⟨acc, by simp, rfl⟩)
    · exact .inr (.inl hlane)
  accesses access haccess := by
    rw [Expr.arrayAccessesOfAll, Expr.arrayAccessesOfAll, List.append_nil, hacc.element] at haccess
    exact .inr ⟨acc, by simp, ReductionOwner.eq_of_mem_arrayAccesses_element haccess⟩

mutual

/-- What becomes of an expression when its reductions are realized. -/
theorem exists_of_mapReductionsM (k : Kernel) (owner : ReductionOwner) (insn : Instruction) :
    (e : Expr) → (r : Realization) →
      ∃ accs, Lowers k owner insn r [e] [(e.mapReductionsM (realize k owner) r).1] accs
        (e.mapReductionsM (realize k owner) r).2
  | .int _, r | .float _, r | .var _, r | .tagged _ _, r => ⟨[], leaf k owner insn r rfl rfl rfl⟩
  | .subscript aggregate index, r => by
    obtain ⟨accs, h⟩ := exists_of_mapReductionsAllM k owner insn index r
    exact ⟨accs, h.subscript aggregate⟩
  | .sum es, r => by
    obtain ⟨accs, h⟩ := exists_of_mapReductionsAllM k owner insn es r
    exact ⟨accs, h.operation .sum (fun _ => rfl) (fun _ => rfl) (fun _ => rfl) fun _ => rfl⟩
  | .product es, r => by
    obtain ⟨accs, h⟩ := exists_of_mapReductionsAllM k owner insn es r
    exact ⟨accs, h.operation .product (fun _ => rfl) (fun _ => rfl) (fun _ => rfl) fun _ => rfl⟩
  | .binary op a b, r => by
    obtain ⟨accs, h⟩ := exists_of_mapReductionsM k owner insn a r
    obtain ⟨more, h'⟩ := exists_of_mapReductionsM k owner insn b
      (a.mapReductionsM (realize k owner) r).2
    exact ⟨accs ++ more, (h.cons h').binary op⟩
  | .call function args, r => by
    obtain ⟨accs, h⟩ := exists_of_mapReductionsAllM k owner insn args r
    exact ⟨accs, h.operation (.call function) (fun _ => rfl) (fun _ => rfl) (fun _ => rfl)
      fun _ => rfl⟩
  | .reduction op binders body, r => by
    obtain ⟨accs, h⟩ := exists_of_mapReductionsM k owner insn body r
    obtain ⟨name, init, update, hacc⟩ := exists_adds k owner insn op binders body
      (body.mapReductionsM (realize k owner) r).1 (body.mapReductionsM (realize k owner) r).2
    exact ⟨_, h.reduction hacc⟩

/-- What becomes of several expressions when their reductions are realized. -/
theorem exists_of_mapReductionsAllM (k : Kernel) (owner : ReductionOwner) (insn : Instruction) :
    (es : List Expr) → (r : Realization) →
      ∃ accs, Lowers k owner insn r es (Expr.mapReductionsAllM (realize k owner) es r).1 accs
        (Expr.mapReductionsAllM (realize k owner) es r).2
  | [], r => ⟨[], nil k owner insn r⟩
  | e :: rest, r => by
    obtain ⟨accs, h⟩ := exists_of_mapReductionsM k owner insn e r
    obtain ⟨more, h'⟩ := exists_of_mapReductionsAllM k owner insn rest
      (e.mapReductionsM (realize k owner) r).2
    exact ⟨accs ++ more, h.cons h'⟩

end

end Lowers

end Realization

/-! ## Owners -/

/-- What an instruction is lowered to: its lanes, the accumulators of its reductions, and the
instruction that is left of it. -/
structure Lowering where
  before : Instruction
  lanes : List (String × Int)
  accumulators : List Accumulator
  after : Instruction

namespace Lowering

variable {groups : List Lowering}

/-- The owner of the reductions of an instruction. -/
def owner (k : Kernel) (g : Lowering) : ReductionOwner :=
  ⟨g.before.id, g.before.deps, k.insnInames g.before, g.lanes⟩

/-- The instructions of a lowering, in the order in which they are emitted. -/
def instructions (g : Lowering) : List Instruction :=
  g.accumulators.flatMap Accumulator.instructions ++ [g.after]

/-- The accumulators of several lowerings. -/
def accumulatorsOf (groups : List Lowering) : List Accumulator := groups.flatMap accumulators

theorem mem_accumulatorsOf {a : Accumulator} :
    a ∈ accumulatorsOf groups ↔ ∃ g ∈ groups, a ∈ g.accumulators := List.mem_flatMap

theorem accumulatorsOf_append (g : Lowering) :
    accumulatorsOf (groups ++ [g]) = accumulatorsOf groups ++ g.accumulators := by
  rw [accumulatorsOf, List.flatMap_append, List.flatMap_singleton]
  rfl

/-- What holds of a lowering alone. -/
structure Sound (k : Kernel) (g : Lowering) : Prop
    extends Realization.Replaces (g.owner k) g.before [g.before.expression] [g.after.expression]
      g.accumulators where
  lanes : k.lanesOf (k.insnInames g.before) = .ok g.lanes
  lowered : ∀ a ∈ g.accumulators, a.Lowered k (g.owner k)
  ordered : ∀ known, (∀ id ∈ g.before.deps, id ∈ known) → Instruction.InOrder known g.instructions
  id : g.after.id = g.before.id
  assignee : g.after.assignee = g.before.assignee
  deps : ∀ id, id ∈ g.after.deps ↔
    id ∈ g.before.deps ∨ ∃ a ∈ g.accumulators, a.update.id = id

end Lowering

namespace Realization

variable {k : Kernel} {r s t : Realization} {insn : Instruction} {groups : List Lowering}

open Accumulator (idsOf)

/-- What holds of all lowerings when some owners are done. -/
structure LowersAll (k : Kernel) (r : Realization) (groups : List Lowering) : Prop where
  sound : ∀ g ∈ groups, g.Sound k
  emitted : r.emitted = groups.flatMap Lowering.instructions
  temporaries : ∀ n t, r.temporaries.get? n = some t ↔
    ∃ g ∈ groups, ∃ a ∈ g.accumulators, a.name = n ∧ (g.owner k).temporary a = t
  nodup : ((Lowering.accumulatorsOf groups).map Accumulator.name).Nodup
  ids : (idsOf (Lowering.accumulatorsOf groups)).Nodup
  idsKept : ∀ id ∈ idsOf (Lowering.accumulatorsOf groups), id ∈ r.ids

/-- At the start there is nothing. -/
theorem LowersAll.start (k : Kernel) : LowersAll k ⟨∅, [], [], ∅⟩ [] where
  sound := by simp
  emitted := rfl
  temporaries := by simp
  nodup := List.nodup_nil
  ids := List.nodup_nil
  idsKept _ h := by cases h

/-- What is left of an owner comes after its accumulators. -/
private theorem sound_of_lowers {changed : Instruction} {lanes : List (String × Int)}
    {accs : List Accumulator} (hlanes : k.lanesOf (k.insnInames insn) = .ok lanes)
    (h : Lowers k ⟨insn.id, insn.deps, k.insnInames insn, lanes⟩ insn { r with updates := ∅ }
      [insn.expression] [changed.expression] accs t)
    (hid : changed.id = insn.id) (hassignee : changed.assignee = insn.assignee)
    (hchanged : changed.deps = insn.deps.addAll t.updates.values) :
    Lowering.Sound k ⟨insn, lanes, accs, changed⟩ := by
  have hdeps : ∀ id, id ∈ changed.deps ↔ id ∈ insn.deps ∨ ∃ a ∈ accs, a.update.id = id := by
    intro id
    rw [hchanged, NameSet.mem_addAll, SortedMap.mem_values, or_comm]
    refine or_congr_right ⟨fun ⟨n, hn⟩ => ?_, fun ⟨a, ha, hid⟩ => ?_⟩
    · obtain ⟨-, hold⟩ | ⟨a, ha, -, hid⟩ := (h.updates n id).mp hn
      · cases hold
      · exact ⟨a, ha, hid⟩
    · exact ⟨a.name, (h.updates a.name id).mpr (.inr ⟨a, ha, rfl, hid⟩)⟩
  refine ⟨h.toReplaces, hlanes, h.lowered, fun known hknown => ?_, hid, hassignee, hdeps⟩
  refine Instruction.inOrder_append.mpr ⟨h.ordered known hknown fun _ _ hnone => ?_, ?_, trivial⟩
  · cases hnone
  · intro id hid
    rw [List.mem_append]
    rcases (hdeps id).mp hid with hown | ⟨a, ha, rfl⟩
    · exact .inl (hknown id hown)
    · exact .inr (Accumulator.update_mem_idsOf ha)

/-- The lowering of one more owner. -/
private theorem LowersAll.append {changed : Instruction} {lanes : List (String × Int)}
    {accs : List Accumulator} (h : LowersAll k r groups)
    (hsound : Lowering.Sound k ⟨insn, lanes, accs, changed⟩)
    (hmore : Grows k ⟨insn.id, insn.deps, k.insnInames insn, lanes⟩ { r with updates := ∅ } accs
      t) :
    LowersAll k ((emit changed).run t).2 (groups ++ [⟨insn, lanes, accs, changed⟩]) where
  sound := List.forall_mem_append.mpr ⟨h.sound, List.forall_mem_singleton.mpr hsound⟩
  emitted := by
    rw [List.flatMap_append, List.flatMap_singleton, ← h.emitted, Lowering.instructions,
      ← List.append_assoc, ← hmore.emitted]
    rfl
  temporaries n u := by
    simp only [List.mem_append, List.mem_singleton, or_and_right, exists_or, exists_eq_left]
    rw [← h.temporaries]
    exact hmore.temporaries n u
  nodup := by
    rw [Lowering.accumulatorsOf_append, List.map_append, List.nodup_append']
    refine ⟨h.nodup, hmore.nodup, fun n hn hn' => ?_⟩
    obtain ⟨a, ha, rfl⟩ := List.mem_map.mp hn
    obtain ⟨b, hb, hsame⟩ := List.mem_map.mp hn'
    obtain ⟨g, hg, ha⟩ := Lowering.mem_accumulatorsOf.mp ha
    have hin := (h.temporaries a.name _).mpr ⟨g, hg, a, ha, rfl, rfl⟩
    have hout := hmore.new b hb
    rw [hsame] at hout
    rw [hout] at hin
    cases hin
  ids := by
    rw [Lowering.accumulatorsOf_append, Accumulator.idsOf_append, List.nodup_append']
    exact ⟨h.ids, hmore.ids, fun id hid hid' => hmore.idsNew id hid' (h.idsKept id hid)⟩
  idsKept id hid := by
    rw [Lowering.accumulatorsOf_append, Accumulator.idsOf_append, List.mem_append] at hid
    exact List.mem_cons_of_mem _ (hmore.idsKept id (hid.imp_left (h.idsKept id)))

/-- Realizing an owner adds its lowering. -/
theorem LowersAll.realizeOwner (h : LowersAll k r groups) (hs : k.realizeOwner r insn = .ok s) :
    ∃ g, g.before = insn ∧ LowersAll k s (groups ++ [g]) := by
  obtain ⟨lanes, expression, t, hlanes, hmap, rfl⟩ := Kernel.exists_lanes_of_realizeOwner hs
  obtain ⟨accs, hlowers⟩ := Lowers.exists_of_mapReductionsM k
    ⟨insn.id, insn.deps, k.insnInames insn, lanes⟩ insn insn.expression { r with updates := ∅ }
  rw [hmap] at hlowers
  exact ⟨⟨insn, lanes, accs, _⟩, rfl,
    h.append (sound_of_lowers hlanes hlowers rfl rfl rfl) hlowers.toGrows⟩

end Realization

/-! ## Kernels -/

/-- Whether a kernel has, one after the other, the lowerings of the instructions of another one,
with the temporaries that these add. -/
structure Kernel.LowersTo (k k' : Kernel) (groups : List Lowering) : Prop where
  owners : groups.map Lowering.before = k.instructions
  sound : ∀ g ∈ groups, g.Sound k
  domain : k'.domain = k.domain
  instructions : k'.instructions = groups.flatMap Lowering.instructions
  temporaries : ∀ n t, k'.temporaries.get? n = some t ↔
    (∃ g ∈ groups, ∃ a ∈ g.accumulators, a.name = n ∧ (g.owner k).temporary a = t) ∨
      k.temporaries.get? n = some t
  nodup : ((Lowering.accumulatorsOf groups).map Accumulator.name).Nodup
  ids : (Accumulator.idsOf (Lowering.accumulatorsOf groups)).Nodup

/-- Realizing the reductions of a kernel lowers its instructions. -/
theorem Kernel.exists_lowersTo {k k' : Kernel} (h : k.realizeReduction = .ok k') :
    ∃ groups, k.LowersTo k' groups := by
  obtain ⟨r, hr, rfl, -⟩ := exists_of_realizeReduction h
  obtain ⟨groups, howners, hall⟩ : ∃ groups, groups.map Lowering.before = k.instructions ∧
      Realization.LowersAll k r groups := by
    apply Attempt.foldlM_induction (P := fun done r => ∃ groups,
      groups.map Lowering.before = done ∧ Realization.LowersAll k r groups) _ _ hr
    · exact ⟨[], rfl, .start k⟩
    · rintro done r insn s - ⟨groups, rfl, hdone⟩ hs
      obtain ⟨g, rfl, hnext⟩ := hdone.realizeOwner hs
      exact ⟨groups ++ [g], by rw [List.map_append, List.map_singleton], hnext⟩
  refine ⟨groups, howners, hall.sound, rfl, hall.emitted, fun n t => ?_, hall.nodup, hall.ids⟩
  rw [← hall.temporaries]
  refine (SortedMap.get?_foldl_insert r.temporaries.nodup_keys n t).trans ?_
  rw [SortedMap.mem_entries]
  -- A new name is none of a temporary that the kernel has.
  refine or_congr_right (and_iff_right_of_imp fun hold hnew => ?_)
  obtain ⟨⟨_, u⟩, hu, rfl⟩ := List.mem_map.mp hnew
  obtain ⟨g, hg, a, ha, rfl, -⟩ := (hall.temporaries _ u).mp (SortedMap.mem_entries.mp hu)
  refine ((hall.sound g hg).lowered a ha).undeclared (mem_names.mpr (.inr (.inl ?_)))
  exact SortedMap.contains_iff.mpr ⟨t, hold⟩

end LoopKernel
