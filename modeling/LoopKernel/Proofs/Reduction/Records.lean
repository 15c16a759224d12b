import LoopKernel.Proofs.Hygiene

/-!
# Records of accumulators

Which accumulator each reduction of a kernel becomes: its name, the instruction that sets it and the
one that updates it. Reductions are recorded in the order in which they are replaced, inner ones
first, and the instructions are emitted in that order. The set instruction runs under the indices of
the cells, the update under those and the bound ones; and an accumulator is read by the instruction
that the reduction stood in, that is the update of the reduction around it or the owner.
-/

namespace LoopKernel

/-- A reduction in the expression of an instruction. -/
structure Reduction where
  owner : Instruction
  op : ReductionOp
  binders : List Binder
  body : Expr

namespace Expr

mutual

/-- The reductions in an expression of an instruction, those in a body before the one around it. -/
def reductions (owner : Instruction) : Expr → List Reduction
  | .int _ | .float _ | .var _ | .tagged _ _ => []
  | .subscript _ index => reductionsOfAll owner index
  | .sum es | .product es => reductionsOfAll owner es
  | .binary _ a b => a.reductions owner ++ b.reductions owner
  | .call _ args => reductionsOfAll owner args
  | .reduction op binders body => body.reductions owner ++ [⟨owner, op, binders, body⟩]

/-- The reductions in several expressions of an instruction, in order. -/
def reductionsOfAll (owner : Instruction) : List Expr → List Reduction
  | [] => []
  | e :: rest => e.reductions owner ++ reductionsOfAll owner rest

end

/-- Several expressions mention what the first of them and the others mention. -/
theorem mem_dependenciesOfAll_cons {e : Expr} {es : List Expr} {n : String} :
    n ∈ dependenciesOfAll (e :: es) ↔ n ∈ dependenciesOfAll [e] ∨ n ∈ dependenciesOfAll es := by
  simp [dependenciesOfAll]

/-- Several expressions mention outside of their reductions what the first of them and the others
mention there. -/
theorem mem_surfaceNamesOfAll_cons {e : Expr} {es : List Expr} {n : String} :
    n ∈ surfaceNamesOfAll (e :: es) ↔ n ∈ surfaceNamesOfAll [e] ∨ n ∈ surfaceNamesOfAll es := by
  simp [surfaceNamesOfAll]

end Expr

/-- The reductions of a kernel, in the order in which they are replaced. -/
def Kernel.reductions (k : Kernel) : List Reduction :=
  k.instructions.flatMap fun insn => insn.expression.reductions insn

/-- Whether a body mentions an index only inside the reductions in it, where neither the owner nor
the reduction itself has the index. -/
structure Reduction.Hides (k : Kernel) (red : Reduction) (n : String) : Prop where
  mentioned : n ∈ red.body.dependencies
  dim : k.domain.hasDim n = true
  unbound : n ∉ Expr.boundNames red.binders
  inside : n ∉ red.body.surfaceNames
  foreign : n ∉ k.insnInames red.owner

/-- A reduction with what it became: the name of its accumulator, the instruction that sets the
accumulator to the neutral element and the one that updates it. -/
structure Accumulator extends Reduction where
  name : String
  init : Instruction
  update : Instruction

namespace Accumulator

/-- The instructions of an accumulator, in the order in which they are emitted. -/
def instructions (a : Accumulator) : List Instruction := [a.init, a.update]

/-- The indices of the cells of an accumulator. -/
def cells (k : Kernel) (a : Accumulator) : NameSet :=
  k.cellInames (k.insnInames a.owner) (Expr.boundNames a.binders) a.body

/-- Whether a name is not one made up for an accumulator: it does not read like one, or it is
declared. -/
def Harmless (k : Kernel) (n : String) : Prop := FreshName.IsCandidate "acc" n → n ∈ k.names

/-- What holds of the name and the two instructions of an accumulator. -/
structure Made (k : Kernel) (a : Accumulator) : Prop where
  fresh : ¬Harmless k a.name
  ids : a.init.id ∉ k.insnIds ∧ a.update.id ∉ k.insnIds
  target : a.init.target = a.name
  neutral : a.init.expression = a.op.neutral
  assignee : a.update.assignee = a.init.assignee
  applied : ∃ value, a.update.expression = a.op.apply a.init.assignee value
  initReads : ∀ n ∈ a.init.reads, Harmless k n
  initInames : ∀ n ∈ k.insnInames a.init, n ∈ k.insnInames a.owner ∨ n ∈ a.cells k
  cellsInit : ∀ n ∈ a.cells k, n ∈ k.insnInames a.init
  updateInames : k.insnInames a.update = (a.cells k).union (Expr.boundNames a.binders)

variable {k : Kernel} {a b : Accumulator} {n : String}

/-- What holds of all instructions of accumulators holds of those that set and those that update
them. -/
theorem forall_mem_instructions {accs : List Accumulator} {P : Instruction → Prop} :
    (∀ insn ∈ accs.flatMap instructions, P insn) ↔ ∀ a ∈ accs, P a.init ∧ P a.update := by
  simp only [List.forall_mem_flatMap, instructions, List.forall_mem_cons, List.not_mem_nil,
    false_implies, implies_true, and_true]

theorem mem_cells : n ∈ a.cells k ↔ (n ∈ k.insnInames a.owner ∨
    n ∈ a.body.surfaceNames ∧ k.domain.hasDim n = true) ∧ n ∉ Expr.boundNames a.binders :=
  Kernel.mem_cellInames

/-- The update of an accumulator runs under the indices of the owner. -/
theorem Made.mem_update_of_mem_owner (h : a.Made k) (hn : n ∈ k.insnInames a.owner) :
    n ∈ k.insnInames a.update := by
  rw [h.updateInames, NameSet.mem_union, mem_cells]
  tauto

/-- The update of an accumulator runs under the indices that the set instruction runs under. -/
theorem Made.mem_update_of_mem_init (h : a.Made k) (hn : n ∈ k.insnInames a.init) :
    n ∈ k.insnInames a.update := by
  rcases h.initInames n hn with hown | hcell
  · exact h.mem_update_of_mem_owner hown
  · rw [h.updateInames, NameSet.mem_union]
    exact .inl hcell

/-- Unless the body hides it, the update of an accumulator runs under an index that the body
mentions. -/
theorem Made.mem_update_of_mem_body (h : a.Made k) (hhides : ¬a.Hides k n)
    (hn : n ∈ a.body.dependencies) (hdim : k.domain.hasDim n = true) :
    n ∈ k.insnInames a.update := by
  rw [h.updateInames, NameSet.mem_union, mem_cells]
  apply Classical.byContradiction
  intro hnot
  simp only [not_or, not_and, Classical.not_not] at hnot
  refine hhides ⟨hn, hdim, hnot.2, fun hs => hnot.2 ?_, fun ho => hnot.2 ?_⟩
  · exact hnot.1 (.inr ⟨hs, hdim⟩)
  · exact hnot.1 (.inl ho)

end Accumulator

/-! ## New accumulators -/

namespace ReductionOp

/-- A neutral element mentions nothing but the constant. -/
theorem eq_of_mem_dependencies_neutral {op : ReductionOp} {n : String}
    (h : n ∈ op.neutral.dependencies) : n = "INFINITY" := by
  unfold neutral at h
  split at h <;> simp [Expr.dependencies, Expr.dependenciesOfAll] at h <;> exact h

end ReductionOp

/-- Whether an owner is an instruction of the kernel: it has the indices of the instruction, and its
lanes are dimensions among these. -/
structure ReductionOwner.Of (k : Kernel) (owner : ReductionOwner) (insn : Instruction) : Prop where
  inames : owner.inames = k.insnInames insn
  lanes : ∀ n ∈ owner.laneNames, n ∈ owner.inames ∧ k.domain.hasDim n = true

namespace Realization

variable {k : Kernel} {owner : ReductionOwner} {insn : Instruction} {r s t : Realization}
  {es es' fs fs' : List Expr} {accs more : List Accumulator} {n : String}

open Accumulator (Harmless)

theorem harmless_of_hasDim (h : k.domain.hasDim n = true) : Harmless k n :=
  fun _ => Kernel.mem_names_of_hasDim h

theorem harmless_infinity (k : Kernel) : Harmless k "INFINITY" := fun h =>
  absurd h.isPrefix (by decide)

/-- What becomes of several expressions when their reductions are realized: the accumulators that
are made, in the order of the reductions, and what is read where. -/
structure Records (k : Kernel) (owner : ReductionOwner) (insn : Instruction) (r : Realization)
    (es es' : List Expr) (accs : List Accumulator) (s : Realization) : Prop where
  reductions : accs.map Accumulator.toReduction = Expr.reductionsOfAll insn es
  emitted : s.emitted = r.emitted ++ accs.flatMap Accumulator.instructions
  temporaries : ∀ n, s.temporaries.contains n = true ↔
    r.temporaries.contains n = true ∨ n ∈ accs.map Accumulator.name
  nodup : (accs.map Accumulator.name).Nodup
  new : ∀ a ∈ accs, r.temporaries.contains a.name = false
  made : ∀ a ∈ accs, a.Made k
  surface : ∀ n ∈ Expr.surfaceNamesOfAll es, n ∈ Expr.dependenciesOfAll es'
  names : ∀ n ∈ Expr.dependenciesOfAll es', n ∈ Expr.surfaceNamesOfAll es ∨
    n ∈ owner.laneNames ∨ n ∈ accs.map Accumulator.name
  covered : ∀ a ∈ accs, a.name ∈ Expr.dependenciesOfAll es' → ∀ n ∈ k.insnInames a.init,
    n ∈ k.insnInames insn ∨ n ∈ Expr.dependenciesOfAll es ∧ k.domain.hasDim n = true
  reads : ∀ a ∈ accs, ∀ n ∈ a.update.reads, n ∈ accs.map Accumulator.name ∨ Harmless k n
  readers : ∀ a ∈ accs, ∀ b ∈ accs, a.name ∈ b.update.reads → (∀ n, ¬b.Hides k n) →
    ∀ n ∈ k.insnInames a.init, n ∈ k.insnInames b.update

/-- What becomes of a reduction whose body has been realized: an element of an accumulator, whose
instructions are emitted. -/
structure Replaced (k : Kernel) (owner : ReductionOwner) (acc : Accumulator) (body' : Expr)
    (s : Realization) (e' : Expr) (t : Realization) : Prop where
  element : e' = owner.element acc.name
  emitted : t.emitted = s.emitted ++ acc.instructions
  temporaries : ∀ n, t.temporaries.contains n = true ↔
    s.temporaries.contains n = true ∨ n = acc.name
  new : s.temporaries.contains acc.name = false
  made : acc.Made k
  reads : ∀ n ∈ acc.update.reads, n = acc.name ∨ n ∈ body'.dependencies ∨ Harmless k n

namespace Records

/-- Realized expressions mention their accumulators and what is harmless. -/
theorem mem_names_or_harmless (h : Records k owner insn r es es' accs s) (howner : owner.Of k insn)
    (hclean : ∀ n ∈ Expr.dependenciesOfAll es, Harmless k n)
    (hn : n ∈ Expr.dependenciesOfAll es') : n ∈ accs.map Accumulator.name ∨ Harmless k n := by
  rcases h.names n hn with hs | hl | ha
  · exact .inr (hclean n (Expr.mem_dependenciesOfAll_of_mem_surfaceNamesOfAll es hs))
  · exact .inr (harmless_of_hasDim (howner.lanes n hl).2)
  · exact .inl ha

/-- Accumulators that are made later have other names. -/
theorem not_mem_names (h : Records k owner insn r es es' accs s)
    (h' : Records k owner insn s fs fs' more t) (hn : n ∈ accs.map Accumulator.name) :
    n ∉ more.map Accumulator.name := by
  intro hmore
  obtain ⟨b, hb, rfl⟩ := List.mem_map.mp hmore
  have hin := (h.temporaries b.name).mpr (.inr hn)
  rw [h'.new b hb] at hin
  cases hin

/-- Earlier expressions mention no accumulator that is made later. -/
theorem not_mem_dependencies_earlier (h : Records k owner insn r es es' accs s)
    (h' : Records k owner insn s fs fs' more t) (howner : owner.Of k insn)
    (hclean : ∀ n ∈ Expr.dependenciesOfAll es, Harmless k n) {a : Accumulator} (ha : a ∈ more) :
    a.name ∉ Expr.dependenciesOfAll es' := fun hmention =>
  h.not_mem_names h'
    ((h.mem_names_or_harmless howner hclean hmention).resolve_right (h'.made a ha).fresh)
    (List.mem_map_of_mem ha)

/-- Later expressions mention no accumulator that was made earlier. -/
theorem not_mem_dependencies_later (h : Records k owner insn r es es' accs s)
    (h' : Records k owner insn s fs fs' more t) (howner : owner.Of k insn)
    (hclean : ∀ n ∈ Expr.dependenciesOfAll fs, Harmless k n) {a : Accumulator} (ha : a ∈ accs) :
    a.name ∉ Expr.dependenciesOfAll fs' := fun hmention =>
  h.not_mem_names h' (List.mem_map_of_mem ha)
    ((h'.mem_names_or_harmless howner hclean hmention).resolve_right (h.made a ha).fresh)

/-- No expressions. -/
theorem nil (k : Kernel) (owner : ReductionOwner) (insn : Instruction) (r : Realization) :
    Records k owner insn r [] [] [] r where
  reductions := rfl
  emitted := (List.append_nil _).symm
  temporaries := by simp
  nodup := List.nodup_nil
  new := by simp
  made := by simp
  surface := by simp [Expr.surfaceNamesOfAll]
  names := by simp [Expr.dependenciesOfAll]
  covered := by simp
  reads := by simp
  readers := by simp

/-- One more expression in front. -/
theorem cons {e e' : Expr} (howner : owner.Of k insn)
    (hclean : ∀ n ∈ Expr.dependenciesOfAll (e :: es), Harmless k n)
    (h : Records k owner insn r [e] [e'] accs s) (h' : Records k owner insn s es es' more t) :
    Records k owner insn r (e :: es) (e' :: es') (accs ++ more) t where
  reductions := by
    rw [List.map_append, h.reductions, h'.reductions]
    simp [Expr.reductionsOfAll]
  emitted := by rw [h'.emitted, h.emitted, List.flatMap_append, List.append_assoc]
  temporaries n := by rw [h'.temporaries, h.temporaries, List.map_append, List.mem_append, or_assoc]
  nodup := by
    rw [List.map_append, List.nodup_append']
    exact ⟨h.nodup, h'.nodup, fun n hn => h.not_mem_names h' hn⟩
  new a ha := by
    rcases List.mem_append.mp ha with ha | ha
    · exact h.new a ha
    · have hout := h'.new a ha
      rw [Bool.eq_false_iff] at hout ⊢
      exact fun hin => hout ((h.temporaries a.name).mpr (.inl hin))
  made := List.forall_mem_append.mpr ⟨h.made, h'.made⟩
  surface n hn := by
    rw [Expr.mem_surfaceNamesOfAll_cons] at hn
    rw [Expr.mem_dependenciesOfAll_cons]
    exact hn.imp (h.surface n) (h'.surface n)
  names n hn := by
    rw [Expr.mem_dependenciesOfAll_cons] at hn
    rw [Expr.mem_surfaceNamesOfAll_cons, List.map_append, List.mem_append]
    rcases hn with hn | hn
    · have hfirst := h.names n hn
      tauto
    · have hrest := h'.names n hn
      tauto
  covered a ha hname n hn := by
    rw [Expr.mem_dependenciesOfAll_cons] at hname ⊢
    -- An accumulator is mentioned in the part in which it was made, not in the other one.
    rcases List.mem_append.mp ha with ha | ha
    · have hfirst := h.covered a ha (hname.resolve_right
        (h.not_mem_dependencies_later h' howner
          (fun n hn => hclean n (Expr.mem_dependenciesOfAll_cons.mpr (.inr hn))) ha)) n hn
      tauto
    · have hrest := h'.covered a ha (hname.resolve_left
        (h.not_mem_dependencies_earlier h' howner
          (fun n hn => hclean n (Expr.mem_dependenciesOfAll_cons.mpr (.inl hn))) ha)) n hn
      tauto
  reads a ha n hn := by
    rw [List.map_append, List.mem_append]
    rcases List.mem_append.mp ha with ha | ha
    · exact (h.reads a ha n hn).imp_left .inl
    · exact (h'.reads a ha n hn).imp_left .inr
  readers a ha b hb hread hhides := by
    -- An accumulator is read among those that are made with it.
    rcases List.mem_append.mp ha with ha | ha <;> rcases List.mem_append.mp hb with hb | hb
    · exact h.readers a ha b hb hread hhides
    · have hmem := (h'.reads b hb _ hread).resolve_right (h.made a ha).fresh
      exact absurd hmem (h.not_mem_names h' (List.mem_map_of_mem ha))
    · have hmem := (h.reads b hb _ hread).resolve_right (h'.made a ha).fresh
      exact absurd (List.mem_map_of_mem ha) (h.not_mem_names h' hmem)
    · exact h'.readers a ha b hb hread hhides

/-- An expression around others that has no reduction of its own. -/
theorem node {e e' : Expr} (own : NameSet) (h : Records k owner insn r es es' accs s)
    (hown : ∀ n ∈ own, Harmless k n)
    (hreductions : e.reductions insn = Expr.reductionsOfAll insn es)
    (hsurface : ∀ n, n ∈ e.surfaceNames ↔ n ∈ own ∨ n ∈ Expr.surfaceNamesOfAll es)
    (hdeps : ∀ n, n ∈ e.dependencies ↔ n ∈ own ∨ n ∈ Expr.dependenciesOfAll es)
    (hdeps' : ∀ n, n ∈ e'.dependencies ↔ n ∈ own ∨ n ∈ Expr.dependenciesOfAll es') :
    Records k owner insn r [e] [e'] accs s := by
  refine { h with
    reductions := ?_, surface := fun n hn => ?_, names := fun n hn => ?_
    covered := fun a ha hname n hn => ?_ }
  · rw [h.reductions, Expr.reductionsOfAll, Expr.reductionsOfAll, List.append_nil, hreductions]
  · rw [Expr.mem_surfaceNamesOfAll_singleton, hsurface] at hn
    rw [Expr.mem_dependenciesOfAll_singleton, hdeps']
    exact hn.imp_right (h.surface n)
  · rw [Expr.mem_dependenciesOfAll_singleton, hdeps'] at hn
    rw [Expr.mem_surfaceNamesOfAll_singleton, hsurface]
    rcases hn with hn | hn
    · exact .inl (.inl hn)
    · exact (h.names n hn).imp_left .inr
  · rw [Expr.mem_dependenciesOfAll_singleton, hdeps'] at hname
    rw [Expr.mem_dependenciesOfAll_singleton, hdeps]
    have hmentions := hname.resolve_left fun ho => (h.made a ha).fresh (hown _ ho)
    exact (h.covered a ha hmentions n hn).imp_right (And.imp_left .inr)

/-- A literal or a name. -/
theorem leaf (owner : ReductionOwner) (r : Realization) {e : Expr}
    (hclean : ∀ n ∈ e.dependencies, Harmless k n)
    (hreductions : e.reductions insn = []) (hsurface : e.surfaceNames = e.dependencies) :
    Records k owner insn r [e] [e] [] r :=
  (nil k owner insn r).node e.dependencies hclean hreductions
    (by simp [hsurface, Expr.surfaceNamesOfAll]) (by simp [Expr.dependenciesOfAll])
    (by simp [Expr.dependenciesOfAll])

/-- An element of an array. -/
theorem subscript {aggregate : String} (haggregate : Harmless k aggregate)
    (h : Records k owner insn r es es' accs s) :
    Records k owner insn r [.subscript aggregate es] [.subscript aggregate es'] accs s :=
  h.node (NameSet.ofList [aggregate]) (by simpa using haggregate) rfl
    (by simp [Expr.surfaceNames]) (by simp [Expr.dependencies]) (by simp [Expr.dependencies])

/-- An operation on all of several operands. -/
theorem operation (build : List Expr → Expr)
    (hreductions : ∀ es, (build es).reductions insn = Expr.reductionsOfAll insn es)
    (hsurface : ∀ es, (build es).surfaceNames = Expr.surfaceNamesOfAll es)
    (hdeps : ∀ es, (build es).dependencies = Expr.dependenciesOfAll es)
    (h : Records k owner insn r es es' accs s) :
    Records k owner insn r [build es] [build es'] accs s :=
  h.node ∅ (by simp) (hreductions es) (by simp [hsurface]) (by simp [hdeps]) (by simp [hdeps])

/-- An operation on two operands. -/
theorem binary {a a' b b' : Expr} (op : BinaryOp)
    (h : Records k owner insn r [a, b] [a', b'] accs s) :
    Records k owner insn r [.binary op a b] [.binary op a' b'] accs s :=
  h.node ∅ (by simp) (by simp [Expr.reductions, Expr.reductionsOfAll])
    (by simp [Expr.surfaceNames, Expr.surfaceNamesOfAll])
    (by simp [Expr.dependencies, Expr.dependenciesOfAll])
    (by simp [Expr.dependencies, Expr.dependenciesOfAll])

/-- The element of an accumulator mentions the accumulator and what is harmless. -/
theorem eq_or_harmless_of_mem_dependencies_element (howner : owner.Of k insn) {name : String}
    (hn : n ∈ (owner.element name).dependencies) : n = name ∨ Harmless k n := by
  rw [ReductionOwner.mem_dependencies_element] at hn
  exact hn.imp_right fun hl => harmless_of_hasDim (howner.lanes n hl).2

/-- The indices around a realized body, as far as they are not bound, are those of the cells. -/
theorem outerInames_diff {body body' : Expr} (h : Records k owner insn r [body] [body'] accs s)
    (howner : owner.Of k insn) (bound : NameSet) :
    (outerInames k owner bound body').diff bound =
      k.cellInames (k.insnInames insn) bound body := by
  rw [← howner.inames]
  apply Realization.outerInames_diff
  · intro n hn
    exact Expr.mem_dependenciesOfAll_singleton.mp
      (h.surface n (Expr.mem_surfaceNamesOfAll_singleton.mpr hn))
  · intro n hn hdim
    rcases h.names n (Expr.mem_dependenciesOfAll_singleton.mpr hn) with hs | hl | ha
    · exact .inl (Expr.mem_surfaceNamesOfAll_singleton.mp hs)
    · exact .inr (howner.lanes n hl).1
    · obtain ⟨a, hmem, rfl⟩ := List.mem_map.mp ha
      exact absurd (harmless_of_hasDim hdim) (h.made a hmem).fresh

/-- The instruction that sets an accumulator reads what is harmless. -/
theorem harmless_of_mem_reads_initInsn (howner : owner.Of k insn) {id name : String}
    {op : ReductionOp} {outer bound : NameSet}
    (hn : n ∈ (initInsn id (owner.element name) op outer bound).reads) : Harmless k n := by
  rcases NameSet.mem_union.mp hn with hn | hn
  · rw [ReductionOp.eq_of_mem_dependencies_neutral hn]
    exact harmless_infinity k
  · unfold Instruction.targetIndex at hn
    split at hn
    · next hassignee =>
      exact harmless_of_hasDim
        (howner.lanes n (ReductionOwner.mem_laneNames_of_element hassignee hn)).2
    · exact absurd hn (NameSet.not_mem_empty n)

/-- The instruction that sets an accumulator runs under indices of the owner and those around the
reduction that are not bound. -/
theorem of_mem_insnInames_initInsn (howner : owner.Of k insn)
    (hinfinity : k.domain.hasDim "INFINITY" = false) {id name : String} {op : ReductionOp}
    {outer bound : NameSet} (hname : k.domain.hasDim name = false)
    (hn : n ∈ k.insnInames (initInsn id (owner.element name) op outer bound)) :
    n ∈ k.insnInames insn ∨ n ∈ outer.diff bound := by
  rcases NameSet.mem_union.mp hn with hforced | hmention
  · exact .inr hforced
  · rw [NameSet.mem_select, NameSet.mem_union] at hmention
    obtain ⟨hn | hn, hdim⟩ := hmention
    · rw [ReductionOp.eq_of_mem_dependencies_neutral hn, hinfinity] at hdim
      cases hdim
    · rcases ReductionOwner.mem_dependencies_element.mp hn with rfl | hlane
      · rw [hname] at hdim
        cases hdim
      · exact .inl (howner.inames ▸ (howner.lanes n hlane).1)

/-- The accumulator that is made for a reduction whose body has been realized. -/
theorem made_realize {body body' : Expr} {op : ReductionOp} {binders : List Binder}
    {name initId updateId : String} {deps : NameSet}
    (h : Records k owner insn r [body] [body'] accs s) (howner : owner.Of k insn)
    (hinfinity : k.domain.hasDim "INFINITY" = false) (hname : name ∉ k.names)
    (hcandidate : FreshName.IsCandidate "acc" name) (hinit : initId ∉ k.insnIds)
    (hupdate : updateId ∉ k.insnIds) :
    Accumulator.Made k ⟨⟨insn, op, binders, body⟩, name,
      initInsn initId (owner.element name) op
        (outerInames k owner (Expr.boundNames binders) body') (Expr.boundNames binders),
      updateInsn updateId deps (owner.element name) op body'
        (outerInames k owner (Expr.boundNames binders) body') (Expr.boundNames binders)⟩ := by
  have hdim : k.domain.hasDim name = false :=
    Bool.eq_false_iff.mpr fun hd => hname (Kernel.mem_names_of_hasDim hd)
  have hcells := h.outerInames_diff howner (Expr.boundNames binders)
  refine ⟨fun hharmless => hname (hharmless hcandidate), ⟨hinit, hupdate⟩,
    ReductionOwner.target_of_element rfl, rfl, rfl, ⟨body', rfl⟩,
    fun n hn => harmless_of_mem_reads_initInsn howner hn, fun n hn => ?_, fun n hn => ?_, ?_⟩
  · rw [Accumulator.cells, ← hcells]
    exact of_mem_insnInames_initInsn howner hinfinity hdim hn
  · rw [Accumulator.cells, ← hcells] at hn
    exact NameSet.mem_union.mpr (.inl hn)
  · rw [insnInames_updateInsn (fun n hn => (howner.lanes n hn).1) hdim, outerInames_union, hcells]
    rfl

/-- A reduction whose body has been realized is replaced by an accumulator. -/
theorem exists_replaced {body body' : Expr} (op : ReductionOp) (binders : List Binder)
    (h : Records k owner insn r [body] [body'] accs s) (howner : owner.Of k insn)
    (hinfinity : k.domain.hasDim "INFINITY" = false) :
    ∃ name init update, Replaced k owner ⟨⟨insn, op, binders, body⟩, name, init, update⟩ body' s
      (realize k owner op binders body' s).1 (realize k owner op binders body' s).2 := by
  obtain ⟨name, initId, updateId, t, hrealize, hname, htemporaries, hinit, hupdate, -, -,
    hemitted⟩ := realize_spec k owner op binders body' s
  obtain ⟨hnames, hkeys, -⟩ := freshVar_acc k s.temporaries.keys
  have hcandidate := k.isCandidate_freshVar "acc" s.temporaries.keys
  rw [← hname] at hnames hkeys hcandidate
  rw [SortedMap.mem_keys, Bool.not_eq_true] at hkeys
  rw [hrealize]
  refine ⟨name, _, _, rfl, hemitted, fun n => ?_, hkeys,
    h.made_realize howner hinfinity hnames hcandidate hinit.1 hupdate.1, fun n hn => ?_⟩
  · rw [htemporaries, SortedMap.contains_insert, Bool.or_eq_true, beq_iff_eq, or_comm]
  · rcases NameSet.mem_union.mp hn with hn | hn
    · rcases (op.mem_dependencies_apply _ _).mp hn with hn | hn
      · exact (eq_or_harmless_of_mem_dependencies_element howner hn).imp_right .inr
      · exact .inr (.inl hn)
    · have hmention := Instruction.mem_dependencies_of_mem_targetIndex hn
      exact (eq_or_harmless_of_mem_dependencies_element howner hmention).imp_right .inr

/-- The accumulators of a body do not have the name of the one around them. -/
theorem not_mem_names_of_replaced {acc : Accumulator} {body' e' : Expr}
    (h : Records k owner insn r es es' accs s) (hacc : Replaced k owner acc body' s e' t) :
    acc.name ∉ accs.map Accumulator.name := by
  intro hmem
  have hin := (h.temporaries acc.name).mpr (.inr hmem)
  rw [hacc.new] at hin
  cases hin

/-- The update of an accumulator runs under the indices that the accumulators of the body that it
reads are set under, if the body hides no index. -/
theorem mem_update_of_reads {acc a : Accumulator} {body' e' : Expr}
    (h : Records k owner acc.owner r [acc.body] [body'] accs s)
    (hacc : Replaced k owner acc body' s e' t) (hhides : ∀ n, ¬acc.Hides k n) (ha : a ∈ accs)
    (hread : a.name ∈ acc.update.reads) (hn : n ∈ k.insnInames a.init) :
    n ∈ k.insnInames acc.update := by
  rcases hacc.reads _ hread with hname | hmention | hharmless
  · exact absurd (hname ▸ List.mem_map_of_mem ha) (h.not_mem_names_of_replaced hacc)
  · rcases h.covered a ha (Expr.mem_dependenciesOfAll_singleton.mpr hmention) n hn with
      hown | ⟨hmentioned, hdim⟩
    · exact hacc.made.mem_update_of_mem_owner hown
    · exact hacc.made.mem_update_of_mem_body (hhides n)
        (Expr.mem_dependenciesOfAll_singleton.mp hmentioned) hdim
  · exact absurd hharmless (h.made a ha).fresh

/-- A reduction after those in its body. -/
theorem reduction {acc : Accumulator} {body' e' : Expr}
    (h : Records k owner acc.owner r [acc.body] [body'] accs s) (howner : owner.Of k acc.owner)
    (hbody : ∀ n ∈ Expr.dependenciesOfAll [acc.body], Harmless k n)
    (hacc : Replaced k owner acc body' s e' t) :
    Records k owner acc.owner r [.reduction acc.op acc.binders acc.body] [e'] (accs ++ [acc])
      t where
  reductions := by
    rw [List.map_append, h.reductions]
    simp [Expr.reductionsOfAll, Expr.reductions]
  emitted := by
    rw [hacc.emitted, h.emitted, List.flatMap_append, List.flatMap_singleton, List.append_assoc]
  temporaries n := by
    rw [hacc.temporaries, h.temporaries, List.map_append, List.mem_append, List.map_singleton,
      List.mem_singleton, or_assoc]
  nodup := by
    rw [List.map_append, List.nodup_append', List.map_singleton]
    exact ⟨h.nodup, List.nodup_singleton _, by simpa using h.not_mem_names_of_replaced hacc⟩
  new := by
    refine List.forall_mem_append.mpr ⟨h.new, List.forall_mem_singleton.mpr ?_⟩
    have hout := hacc.new
    rw [Bool.eq_false_iff] at hout ⊢
    exact fun hin => hout ((h.temporaries acc.name).mpr (.inl hin))
  made := List.forall_mem_append.mpr ⟨h.made, List.forall_mem_singleton.mpr hacc.made⟩
  surface := by simp [Expr.surfaceNamesOfAll, Expr.surfaceNames]
  names n hn := by
    rw [Expr.mem_dependenciesOfAll_singleton, hacc.element,
      ReductionOwner.mem_dependencies_element] at hn
    rw [List.map_append, List.mem_append, List.map_singleton, List.mem_singleton]
    tauto
  covered a ha hmention n hn := by
    rw [Expr.mem_dependenciesOfAll_singleton] at hmention ⊢
    rw [hacc.element] at hmention
    rcases List.mem_append.mp ha with ha | ha
    · have hname := (eq_or_harmless_of_mem_dependencies_element howner hmention).resolve_right
        (h.made a ha).fresh
      exact absurd (hname ▸ List.mem_map_of_mem ha) (h.not_mem_names_of_replaced hacc)
    · rw [List.mem_singleton.mp ha] at hn
      rcases hacc.made.initInames n hn with hown | hcell
      · exact .inl hown
      · obtain ⟨hown | ⟨hsurface, hdim⟩, hbound⟩ := Accumulator.mem_cells.mp hcell
        · exact .inl hown
        · refine .inr ⟨Expr.mem_dependencies_reduction.mpr ⟨?_, hbound⟩, hdim⟩
          exact Expr.mem_dependencies_of_mem_surfaceNames acc.body hsurface
  reads a ha n hn := by
    rw [List.map_append, List.mem_append, List.map_singleton, List.mem_singleton]
    rcases List.mem_append.mp ha with ha | ha
    · exact (h.reads a ha n hn).imp_left .inl
    · rw [List.mem_singleton.mp ha] at hn
      rcases hacc.reads n hn with hname | hmention | hharmless
      · exact .inl (.inr hname)
      · exact (h.mem_names_or_harmless howner hbody
          (Expr.mem_dependenciesOfAll_singleton.mpr hmention)).imp_left .inl
      · exact .inr hharmless
  readers a ha b hb hread hhides n hn := by
    rcases List.mem_append.mp hb with hb | hb
    · rcases List.mem_append.mp ha with ha | ha
      · exact h.readers a ha b hb hread hhides n hn
      · rw [List.mem_singleton.mp ha] at hread
        exact absurd ((h.reads b hb _ hread).resolve_right hacc.made.fresh)
          (h.not_mem_names_of_replaced hacc)
    · rw [List.mem_singleton.mp hb] at hread hhides ⊢
      rcases List.mem_append.mp ha with ha | ha
      · exact h.mem_update_of_reads hacc hhides ha hread hn
      · rw [List.mem_singleton.mp ha] at hn
        exact hacc.made.mem_update_of_mem_init hn

mutual

/-- What becomes of an expression when its reductions are realized. -/
theorem exists_of_mapReductionsM (howner : owner.Of k insn)
    (hinfinity : k.domain.hasDim "INFINITY" = false) : (e : Expr) → (r : Realization) →
    (∀ n ∈ e.dependencies, Harmless k n) → (∀ b ∈ e.binders, k.domain.hasDim b.name = true) →
    ∃ accs, Records k owner insn r [e] [(e.mapReductionsM (realize k owner) r).1] accs
      (e.mapReductionsM (realize k owner) r).2
  | .int _, r, hclean, _ | .float _, r, hclean, _ | .var _, r, hclean, _
  | .tagged _ _, r, hclean, _ => ⟨[], leaf owner r hclean rfl rfl⟩
  | .subscript aggregate index, r, hclean, hbinders => by
    simp only [Expr.dependencies, NameSet.mem_add] at hclean
    obtain ⟨accs, h⟩ := exists_of_mapReductionsAllM howner hinfinity index r
      (fun n hn => hclean n (.inr hn)) hbinders
    exact ⟨accs, h.subscript (hclean aggregate (.inl rfl))⟩
  | .sum es, r, hclean, hbinders => by
    obtain ⟨accs, h⟩ := exists_of_mapReductionsAllM howner hinfinity es r hclean hbinders
    exact ⟨accs, h.operation .sum (fun _ => rfl) (fun _ => rfl) fun _ => rfl⟩
  | .product es, r, hclean, hbinders => by
    obtain ⟨accs, h⟩ := exists_of_mapReductionsAllM howner hinfinity es r hclean hbinders
    exact ⟨accs, h.operation .product (fun _ => rfl) (fun _ => rfl) fun _ => rfl⟩
  | .binary op a b, r, hclean, hbinders => by
    simp only [Expr.dependencies, NameSet.mem_union] at hclean
    rw [Expr.binders, List.forall_mem_append] at hbinders
    obtain ⟨accs, h⟩ := exists_of_mapReductionsM howner hinfinity a r
      (fun n hn => hclean n (.inl hn)) hbinders.1
    obtain ⟨more, h'⟩ := exists_of_mapReductionsM howner hinfinity b
      (a.mapReductionsM (realize k owner) r).2 (fun n hn => hclean n (.inr hn)) hbinders.2
    have hboth : ∀ n ∈ Expr.dependenciesOfAll [a, b], Harmless k n := by
      simpa [Expr.dependenciesOfAll] using hclean
    exact ⟨accs ++ more, (h.cons howner hboth h').binary op⟩
  | .call function args, r, hclean, hbinders => by
    obtain ⟨accs, h⟩ := exists_of_mapReductionsAllM howner hinfinity args r hclean hbinders
    exact ⟨accs, h.operation (.call function) (fun _ => rfl) (fun _ => rfl) fun _ => rfl⟩
  | .reduction op binders body, r, hclean, hbinders => by
    rw [Expr.binders, List.forall_mem_append] at hbinders
    have hbody : ∀ n ∈ body.dependencies, Harmless k n := by
      intro n hn
      by_cases hbound : n ∈ Expr.boundNames binders
      · obtain ⟨b, hb, rfl⟩ := List.mem_map.mp (NameSet.mem_ofList.mp hbound)
        exact harmless_of_hasDim (hbinders.2 b hb)
      · exact hclean n (Expr.mem_dependencies_reduction.mpr ⟨hn, hbound⟩)
    obtain ⟨accs, h⟩ := exists_of_mapReductionsM howner hinfinity body r hbody hbinders.1
    obtain ⟨name, init, update, hacc⟩ := h.exists_replaced op binders howner hinfinity
    exact ⟨_, h.reduction howner
      (fun n hn => hbody n (Expr.mem_dependenciesOfAll_singleton.mp hn)) hacc⟩

/-- What becomes of several expressions when their reductions are realized. -/
theorem exists_of_mapReductionsAllM (howner : owner.Of k insn)
    (hinfinity : k.domain.hasDim "INFINITY" = false) : (es : List Expr) → (r : Realization) →
    (∀ n ∈ Expr.dependenciesOfAll es, Harmless k n) →
    (∀ b ∈ Expr.bindersOfAll es, k.domain.hasDim b.name = true) →
    ∃ accs, Records k owner insn r es (Expr.mapReductionsAllM (realize k owner) es r).1 accs
      (Expr.mapReductionsAllM (realize k owner) es r).2
  | [], r, _, _ => ⟨[], nil k owner insn r⟩
  | e :: rest, r, hclean, hbinders => by
    have hboth : ∀ n, n ∈ e.dependencies ∨ n ∈ Expr.dependenciesOfAll rest → Harmless k n := by
      simpa [Expr.dependenciesOfAll] using hclean
    rw [Expr.bindersOfAll, List.forall_mem_append] at hbinders
    obtain ⟨accs, h⟩ := exists_of_mapReductionsM howner hinfinity e r
      (fun n hn => hboth n (.inl hn)) hbinders.1
    obtain ⟨more, h'⟩ := exists_of_mapReductionsAllM howner hinfinity rest
      (e.mapReductionsM (realize k owner) r).2 (fun n hn => hboth n (.inr hn)) hbinders.2
    exact ⟨accs ++ more, h.cons howner hclean h'⟩

end

end Records

end Realization

end LoopKernel
