import LoopKernel.Proofs.Reduction.Emission

/-!
# Consistent realizations

What realization keeps up about names and ids: accumulators have names that are new to the kernel,
the ids of emitted instructions are different, and what an emitted instruction refers to is in the
kernel or among the emitted instructions. A realized kernel is therefore well-formed.
-/

namespace LoopKernel

/-! ## Binders -/

namespace ReductionOp

/-- The neutral element binds nothing. -/
theorem binders_neutral (op : ReductionOp) : op.neutral.binders = [] := by
  unfold neutral
  split <;> rfl

/-- Applying an operation binds what the operands bind. -/
theorem binders_apply (op : ReductionOp) (accumulator value : Expr) :
    (op.apply accumulator value).binders = accumulator.binders ++ value.binders := by
  unfold apply
  split <;> simp [Expr.binders, Expr.bindersOfAll]

end ReductionOp

/-- The element of an accumulator binds nothing. -/
theorem ReductionOwner.binders_element (owner : ReductionOwner) (name : String) :
    (owner.element name).binders = [] := by
  unfold element
  split
  · rfl
  · rw [Expr.binders, ← Expr.bindersOfAll_map_var (owner.lanes.map Prod.fst), List.map_map]
    rfl

namespace Realization

variable {k : Kernel} {owners : List String} {r s : Realization} {new : List Instruction}

/-! ## Emitted instructions -/

/-- What holds at all times of the temporaries, the emitted instructions and the updates, once the
listed owners are done. -/
structure Consistent (k : Kernel) (owners : List String) (r : Realization) : Prop where
  temporaries : ∀ n t, r.temporaries.get? n = some t → t.name = n ∧ n ∉ k.names
  ids : ∃ fresh, (r.emitted.map Instruction.id).Perm (owners ++ fresh) ∧ fresh.Nodup ∧
    ∀ id ∈ fresh, id ∉ k.insnIds ∧ id ∈ r.ids
  inScope : ∀ insn ∈ r.emitted,
    insn.Scoped k.domain.dims (k.insnIds ++ r.emitted.map Instruction.id)
  updates : ∀ name id, r.updates.get? name = some id → id ∈ r.emitted.map Instruction.id

/-- Instructions stay in scope when more are emitted. -/
private theorem scoped_append (h : ∀ insn ∈ r.emitted,
      insn.Scoped k.domain.dims (k.insnIds ++ r.emitted.map Instruction.id))
    (hemitted : s.emitted = r.emitted ++ new)
    (hnew : ∀ insn ∈ new, insn.Scoped k.domain.dims (k.insnIds ++ s.emitted.map Instruction.id)) :
    ∀ insn ∈ s.emitted,
      insn.Scoped k.domain.dims (k.insnIds ++ s.emitted.map Instruction.id) := by
  intro insn hinsn
  rw [hemitted, List.mem_append] at hinsn
  rcases hinsn with hold | hinsn
  · refine (h insn hold).mono (fun n hn => hn) fun id hid => ?_
    rw [hemitted, List.map_append, ← List.append_assoc]
    exact List.mem_append_left _ hid
  · exact hnew insn hinsn

/-- The indices around a reduction are dimensions if those of the owner are. -/
theorem mem_dims_of_mem_outerInames {owner : ReductionOwner} {bound : NameSet} {body : Expr}
    {n : String} (hinames : ∀ n ∈ owner.inames, n ∈ k.domain.dims)
    (hn : n ∈ outerInames k owner bound body) : n ∈ k.domain.dims := by
  rw [outerInames, NameSet.mem_union, NameSet.mem_select, Bool.and_eq_true] at hn
  exact hn.elim (hinames n) fun hn => Polyhedron.hasDim_iff.mp hn.2.1

/-- The instruction that sets an accumulator refers to the indices around the reduction. -/
theorem scoped_initInsn {dims ids : List String} {id : String} {acc : Expr} {op : ReductionOp}
    {outer bound : NameSet} (hacc : acc.binders = []) (houter : ∀ n ∈ outer, n ∈ dims) :
    (initInsn id acc op outer bound).Scoped dims ids where
  deps _ hid := absurd hid (NameSet.not_mem_empty _)
  forced n hn := houter n (NameSet.mem_diff.mp hn).1
  boosted _ h := by cases h
  bound b hb := by
    change b ∈ acc.binders ++ op.neutral.binders at hb
    rw [hacc, op.binders_neutral] at hb
    cases hb

/-- The instruction that updates an accumulator refers to its dependencies and to the indices around
the reduction and of the reduction. -/
theorem scoped_updateInsn {dims ids : List String} {id : String} {deps : NameSet} {acc body : Expr}
    {op : ReductionOp} {outer bound : NameSet} (hdeps : ∀ id ∈ deps, id ∈ ids)
    (hacc : acc.binders = []) (hbody : body.binders = []) (houter : ∀ n ∈ outer, n ∈ dims)
    (hbound : ∀ n ∈ bound, n ∈ dims) :
    (updateInsn id deps acc op body outer bound).Scoped dims ids where
  deps := hdeps
  forced n hn := (NameSet.mem_union.mp hn).elim (houter n) (hbound n)
  boosted _ h := by cases h
  bound b hb := by
    change b ∈ acc.binders ++ (op.apply acc body).binders at hb
    rw [op.binders_apply, hacc, hbody] at hb
    cases hb

namespace Consistent

/-- At the start there is nothing. -/
theorem start (k : Kernel) : Consistent k [] ⟨∅, [], [], ∅⟩ where
  temporaries _ _ h := by cases h
  ids := ⟨[], .nil, List.nodup_nil, fun _ h => by cases h⟩
  inScope _ h := by cases h
  updates _ _ h := by cases h

/-- The updates of an owner that is done are forgotten. -/
theorem forgetUpdates (h : Consistent k owners r) :
    Consistent k owners { r with updates := ∅ } where
  temporaries := h.temporaries
  ids := h.ids
  inScope := h.inScope
  updates _ _ h := by cases h

/-- The owner itself comes after what its reductions became. -/
theorem emit {insn : Instruction} {id : String} (h : Consistent k owners r) (hid : insn.id = id)
    (hinsn : insn.Scoped k.domain.dims (k.insnIds ++ r.emitted.map Instruction.id)) :
    Consistent k (owners ++ [id]) (Realization.emit insn r).2 := by
  subst hid
  obtain ⟨fresh, hperm, hnodup, hfresh⟩ := h.ids
  refine ⟨h.temporaries, ⟨fresh, ?_, hnodup, fun id hid => ?_⟩, ?_, fun name id hget => ?_⟩
  · change ((r.emitted ++ [insn]).map Instruction.id).Perm _
    rw [List.map_append, List.append_assoc]
    refine (hperm.append_right _).trans ?_
    rw [List.append_assoc]
    exact (List.perm_append_comm).append_left owners
  · exact ⟨(hfresh id hid).1, List.mem_cons_of_mem _ (hfresh id hid).2⟩
  · refine scoped_append h.inScope rfl fun other hother => ?_
    rw [List.mem_singleton.mp hother]
    refine hinsn.mono (fun n hn => hn) fun id hid => ?_
    change id ∈ k.insnIds ++ (r.emitted ++ [insn]).map Instruction.id
    rw [List.map_append, ← List.append_assoc]
    exact List.mem_append_left _ hid
  · exact List.mem_map.mpr ((List.mem_map.mp (h.updates name id hget)).imp fun other hother =>
      hother.imp_left (List.mem_append_left _))

/-- Two ids that are new to a kernel and not taken go with other ones that are. -/
private theorem fresh_append {known taken fresh : List String} {initId updateId : String}
    (hnodup : fresh.Nodup) (hfresh : ∀ id ∈ fresh, id ∉ known ∧ id ∈ taken)
    (hinit : initId ∉ known ∧ initId ∉ taken)
    (hupdate : updateId ∉ known ∧ updateId ∉ initId :: taken) :
    (fresh ++ [initId, updateId]).Nodup ∧ ∀ id ∈ fresh ++ [initId, updateId],
      id ∉ known ∧ id ∈ updateId :: initId :: updateId :: initId :: taken := by
  simp only [List.mem_cons, not_or] at hupdate
  constructor
  · rw [List.nodup_append']
    refine ⟨hnodup, by simp [Ne.symm hupdate.2.1], ?_⟩
    rw [List.disjoint_left]
    grind
  · grind

/-- Realizing a reduction over dimensions keeps what is emitted consistent. -/
theorem realize {owner : ReductionOwner} {op : ReductionOp} {binders : List Binder} {body : Expr}
    (h : Consistent k owners r) (hinames : ∀ n ∈ owner.inames, n ∈ k.domain.dims)
    (hdeps : ∀ id ∈ owner.deps, id ∈ k.insnIds)
    (hbinders : ∀ b ∈ binders, b.name ∈ k.domain.dims) (hbody : body.binders = []) :
    Consistent k owners (Realization.realize k owner op binders body r).2 := by
  obtain ⟨a, initId, updateId, s, hrealize, ha, htemporaries, hinit, hupdate, hids, hupdates,
    hemitted⟩ := realize_spec k owner op binders body r
  rw [hrealize]
  have houter : ∀ n ∈ outerInames k owner (Expr.boundNames binders) body, n ∈ k.domain.dims :=
    fun n hn => mem_dims_of_mem_outerInames hinames hn
  have hbound : ∀ n ∈ Expr.boundNames binders, n ∈ k.domain.dims := by
    intro n hn
    obtain ⟨b, hb, rfl⟩ := List.mem_map.mp (NameSet.mem_ofList.mp hn)
    exact hbinders b hb
  have hemittedIds : s.emitted.map Instruction.id =
      r.emitted.map Instruction.id ++ [initId, updateId] := by
    rw [hemitted, List.map_append]
    rfl
  have hread : ∀ id ∈ (owner.deps.add initId).addAll (updatesRead r.updates body),
      id ∈ k.insnIds ++ s.emitted.map Instruction.id := by
    intro id hid
    rw [hemittedIds, ← List.append_assoc, List.mem_append, List.mem_append]
    simp only [NameSet.mem_addAll, NameSet.mem_add, updatesRead, List.mem_filterMap] at hid
    rcases hid with ⟨name, -, hget⟩ | rfl | hid
    · exact .inl (.inr (h.updates name id hget))
    · exact .inr List.mem_cons_self
    · exact .inl (.inl (hdeps id hid))
  refine ⟨fun n t ht => ?_, ?_, ?_, fun name id hget => ?_⟩
  · rw [htemporaries, SortedMap.get?_insert] at ht
    split at ht
    · next hn =>
      cases ht
      rw [hn, ha]
      exact ⟨rfl, (k.freshVar_not_mem _ _).1⟩
    · exact h.temporaries n t ht
  · obtain ⟨fresh, hperm, hnodup, hfresh⟩ := h.ids
    rw [hemittedIds, hids]
    refine ⟨fresh ++ [initId, updateId], ?_, fresh_append hnodup hfresh hinit hupdate⟩
    rw [← List.append_assoc]
    exact hperm.append_right _
  · refine scoped_append h.inScope hemitted fun insn hinsn => ?_
    rcases List.mem_cons.mp hinsn with rfl | hinsn
    · exact scoped_initInsn (owner.binders_element a) houter
    · rw [List.mem_singleton.mp hinsn]
      exact scoped_updateInsn hread (owner.binders_element a) hbody houter hbound
  · rw [hupdates, SortedMap.get?_insert] at hget
    rw [hemittedIds, List.mem_append]
    split at hget
    · cases hget
      exact .inr (List.mem_cons_of_mem _ (List.mem_singleton_self _))
    · exact .inl (h.updates name id hget)

end Consistent

/-! ## Kernels -/

/-- Realizing the reductions of an expression keeps what is emitted consistent, and leaves none. -/
theorem tracks_realize (owners : List String) (owner : ReductionOwner)
    (hinames : ∀ n ∈ owner.inames, n ∈ k.domain.dims) (hdeps : ∀ id ∈ owner.deps, id ∈ k.insnIds) :
    Expr.Tracks (realize k owner) fun r before after s =>
      after = [] ∧ ((∀ b ∈ before, b.name ∈ k.domain.dims) → Consistent k owners r →
        Consistent k owners s) where
  nil _ := ⟨rfl, fun _ h => h⟩
  append := by
    rintro r s t bs bs' cs cs' ⟨rfl, hfirst⟩ ⟨rfl, hsecond⟩
    exact ⟨rfl, fun hdims h => hsecond (fun b hb => hdims b (List.mem_append_right _ hb))
      (hfirst (fun b hb => hdims b (List.mem_append_left _ hb)) h)⟩
  reduction := by
    rintro r s bs op binders body ⟨hbody, hinner⟩
    refine ⟨owner.binders_element _, fun hdims h => ?_⟩
    exact (hinner (fun b hb => hdims b (List.mem_append_left _ hb)) h).realize hinames hdeps
      (fun b hb => hdims b (List.mem_append_right _ hb)) hbody

/-- Realizing an owner keeps what is emitted consistent. -/
theorem Consistent.realizeOwner {insn : Instruction} (h : Consistent k owners r)
    (hinsn : insn.Scoped k.domain.dims k.insnIds) (hs : k.realizeOwner r insn = .ok s) :
    Consistent k (owners ++ [insn.id]) s := by
  obtain ⟨lanes, expression, t, -, hmap, rfl⟩ := Kernel.exists_lanes_of_realizeOwner hs
  have hinames : ∀ n ∈ k.insnInames insn, n ∈ k.domain.dims := fun n hn =>
    Kernel.mem_dims_of_mem_insnInames hinsn hn
  have htracked := (tracks_realize owners ⟨insn.id, insn.deps, k.insnInames insn, lanes⟩
    hinames hinsn.deps).mapReductionsM insn.expression { r with updates := ∅ }
  rw [hmap] at htracked
  obtain ⟨hnone, hemitted⟩ := htracked
  have hrealized := hemitted (fun b hb => hinsn.bound b (List.mem_append_right _ hb))
    h.forgetUpdates
  refine hrealized.emit rfl ⟨fun id hid => ?_, hinames, hinsn.boosted, fun b hb => ?_⟩
  · rcases NameSet.mem_addAll.mp hid with hupdate | hold
    · obtain ⟨name, hget⟩ := SortedMap.mem_values.mp hupdate
      exact List.mem_append_right _ (hrealized.updates name id hget)
    · exact List.mem_append_left _ (hinsn.deps id hold)
  · refine hinsn.bound b (List.mem_append_left _ ((List.mem_append.mp hb).resolve_right ?_))
    exact fun hexpression => List.not_mem_nil (hnone ▸ hexpression)

end Realization

namespace Kernel.WellFormed

/-- Realizing all reductions keeps a kernel well-formed. -/
theorem realizeReduction {k k' : Kernel} (h : k.WellFormed) (hk : k.realizeReduction = .ok k') :
    k'.WellFormed := by
  obtain ⟨r, hr, rfl, -⟩ := Kernel.exists_of_realizeReduction hk
  have hr : Realization.Consistent k k.insnIds r := by
    apply Attempt.foldlM_induction (P := fun done r =>
      Realization.Consistent k (done.map Instruction.id) r) (.start k) _ hr
    intro done r insn s hinsn hdone hs
    rw [List.map_append]
    exact hdone.realizeOwner (h.instructions insn hinsn) hs
  obtain ⟨fresh, hperm, hnodup, hfresh⟩ := hr.ids
  have hids : ∀ id, id ∈ r.emitted.map Instruction.id ↔ id ∈ k.insnIds ∨ id ∈ fresh := fun id =>
    hperm.mem_iff.trans List.mem_append
  refine ⟨h.names_of_temporaries fun n hn => ?_, fun n t ht => ?_, h.tags, ?_,
    fun insn hinsn => ?_⟩
  · rw [SortedMap.contains_foldl_insert] at hn
    refine hn.symm.imp_right fun hn => ?_
    obtain ⟨t, ht⟩ := SortedMap.contains_iff.mp (SortedMap.mem_keys.mp hn)
    exact (hr.temporaries n t ht).2
  · rcases (SortedMap.get?_foldl_insert r.temporaries.nodup_keys n t).mp ht with hnew | ⟨-, hold⟩
    · exact (hr.temporaries n t (SortedMap.mem_entries.mp hnew)).1
    · exact h.temporaries n t hold
  · refine hperm.nodup_iff.mpr (h.ids.append hnodup fun id hold hnew => ?_)
    exact (hfresh id hnew).1 hold
  · refine (hr.inScope insn hinsn).mono (fun n hn => hn) fun id hid => ?_
    rcases List.mem_append.mp hid with hold | hemitted
    · exact (hids id).mpr (.inl hold)
    · exact hemitted

end Kernel.WellFormed

end LoopKernel
