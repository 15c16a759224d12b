import LoopKernel.Proofs.Reduction.Accumulator
import LoopKernel.Proofs.Reduction.Emission
import LoopKernel.Proofs.Storage.Writes

/-!
# Assignees after realization

Realization keeps the assignees of the instructions that own reductions. The instructions that it
adds assign to elements of accumulators, which are private and have one element for each lane of
instruction-level parallelism.
-/

namespace LoopKernel

namespace Realization

variable {k : Kernel} {r s t : Realization}

/-- What realizing the reductions of an owner adds: instructions that assign to elements of
accumulators, and accumulators that are private and have new names. -/
structure AddsAccumulators (k : Kernel) (owner : ReductionOwner) (r s : Realization) : Prop where
  emitted : ∃ new, s.emitted = r.emitted ++ new ∧
    ∀ insn ∈ new, ∃ a, insn.assignee = owner.element a
  temporaries : ∀ n t, s.temporaries.get? n = some t →
    r.temporaries.get? n = some t ∨ t.isLocal = false ∧ n ∉ k.names

/-- Realizing the reductions of an expression adds accumulators. -/
theorem tracks_addsAccumulators (k : Kernel) (owner : ReductionOwner) :
    Expr.Tracks (realize k owner) fun r _ _ s => AddsAccumulators k owner r s where
  nil r := ⟨⟨[], (List.append_nil _).symm, by simp⟩, fun _ _ h => .inl h⟩
  append := by
    rintro r s t - - - - ⟨⟨first, hfirst, hone⟩, hold⟩ ⟨⟨second, hsecond, htwo⟩, hnew⟩
    refine ⟨⟨first ++ second, ?_, fun insn hinsn => ?_⟩, fun n u hu => ?_⟩
    · rw [hsecond, hfirst, List.append_assoc]
    · exact (List.mem_append.mp hinsn).elim (hone insn) (htwo insn)
    · exact (hnew n u hu).elim (hold n u) .inr
  reduction := by
    rintro r s - op binders body ⟨⟨first, hfirst, hone⟩, hold⟩
    obtain ⟨a, _, _, t, hrealize, ha, htemporaries, -, -, -, -, hemitted⟩ :=
      realize_spec k owner op binders body s
    rw [hrealize]
    rw [hfirst, List.append_assoc] at hemitted
    refine ⟨⟨_, hemitted, fun insn hinsn => ?_⟩, fun n u hu => ?_⟩
    · rcases List.mem_append.mp hinsn with hinsn | hinsn
      · exact hone insn hinsn
      · rcases List.mem_cons.mp hinsn with rfl | hinsn
        · exact ⟨a, rfl⟩
        · exact ⟨a, List.mem_singleton.mp hinsn ▸ rfl⟩
    · rw [htemporaries, SortedMap.get?_insert] at hu
      split at hu
      · next hn =>
        cases hu
        exact .inr ⟨rfl, hn ▸ ha ▸ (k.freshVar_not_mem _ _).1⟩
      · exact hold n u hu

/-- Whether an expression is an element of an accumulator whose lanes are loop indices with
instruction-level parallelism. -/
def IsElement (k : Kernel) (e : Expr) : Prop :=
  ∃ (owner : ReductionOwner) (a : String), e = owner.element a ∧
    ∀ lane ∈ owner.lanes, k.tag lane.1 = .ilp

/-- What holds while reductions are realized: the listed instructions are emitted with their
assignees, other emitted instructions assign to elements of accumulators, and these are private and
have new names. -/
structure Covers (k : Kernel) (done : List Instruction) (r : Realization) : Prop where
  kept : ∀ insn ∈ done, ∃ after ∈ r.emitted, after.assignee = insn.assignee
  emitted : ∀ after ∈ r.emitted,
    (∃ insn ∈ done, insn.assignee = after.assignee) ∨ IsElement k after.assignee
  temporaries : ∀ n t, r.temporaries.get? n = some t → t.isLocal = false ∧ n ∉ k.names

/-- Realizing an owner emits it with its assignee. -/
theorem Covers.realizeOwner {done : List Instruction} {insn : Instruction} (h : Covers k done r)
    (hs : k.realizeOwner r insn = .ok s) : Covers k (done ++ [insn]) s := by
  obtain ⟨lanes, expression, final, hlanes, hmap, rfl⟩ := Kernel.exists_lanes_of_realizeOwner hs
  have hilp : ∀ lane ∈ lanes, k.tag lane.1 = .ilp := by
    intro lane hlane
    obtain ⟨n, hn, hlane⟩ := Attempt.exists_of_mem_mapM hlanes hlane
    simp only [Attempt.bind_eq_ok, Attempt.pure_eq_ok] at hlane
    obtain ⟨_, -, rfl⟩ := hlane
    exact beq_iff_eq.mp (List.mem_filter.mp hn).2
  have hadds :=
    (tracks_addsAccumulators k ⟨insn.id, insn.deps, k.insnInames insn, lanes⟩).mapReductionsM
      insn.expression { r with updates := ∅ }
  rw [hmap] at hadds
  obtain ⟨⟨new, hnew, helements⟩, htemporaries⟩ := hadds
  refine ⟨fun before hbefore => ?_, fun after hafter => ?_, fun n t ht => ?_⟩
  · rcases List.mem_append.mp hbefore with hbefore | hbefore
    · obtain ⟨after, hafter, hsame⟩ := h.kept before hbefore
      refine ⟨after, List.mem_append_left _ ?_, hsame⟩
      exact hnew ▸ List.mem_append_left new hafter
    · exact ⟨_, List.mem_append_right _ (List.mem_singleton_self _),
        List.mem_singleton.mp hbefore ▸ rfl⟩
  · rcases List.mem_append.mp hafter with hafter | hafter
    · rcases List.mem_append.mp (hnew ▸ hafter) with hold | hafter
      · rcases h.emitted after hold with ⟨before, hbefore, hsame⟩ | helement
        · exact .inl ⟨before, List.mem_append_left _ hbefore, hsame⟩
        · exact .inr helement
      · obtain ⟨a, ha⟩ := helements after hafter
        exact .inr ⟨_, a, ha, hilp⟩
    · exact .inl ⟨insn, List.mem_append_right _ (List.mem_singleton_self _),
        List.mem_singleton.mp hafter ▸ rfl⟩
  · exact (htemporaries n t ht).elim (h.temporaries n t) id

end Realization

namespace Kernel

variable {k k' : Kernel} {v n : String} {index : List Expr}

/-- Realizing reductions keeps the elements that are written, and adds elements of accumulators
whose lanes have instruction-level parallelism. The temporaries that are added are private and have
new names. No reduction is left in an assignee. -/
theorem realizeReduction_keeps (h : k.realizeReduction = .ok k') :
    k' = { k with instructions := k'.instructions, temporaries := k'.temporaries } ∧
      (∀ v index, k.Writes v index → k'.Writes v index) ∧
      (∀ v index, k'.Writes v index → k.Writes v index ∨
        ∀ n ∈ Expr.dependenciesOfAll index, k.tag n = .ilp) ∧
      (∀ v t, k'.temporaries.get? v = some t →
        k.temporaries.get? v = some t ∨ t.isLocal = false ∧ v ∉ k.names) ∧
      ∀ insn ∈ k'.instructions, insn.assignee.containsReduction = false := by
  obtain ⟨r, hr, rfl, hnone⟩ := exists_of_realizeReduction h
  have hr : Realization.Covers k k.instructions r := by
    apply Attempt.foldlM_induction (P := Realization.Covers k) ⟨by simp, by simp, ?_⟩ _ hr
    · exact fun _ _ h => by cases h
    · exact fun done r insn s _ hdone hs => hdone.realizeOwner hs
  refine ⟨rfl, ?_, ?_, fun v t ht => ?_, fun insn hinsn => ?_⟩
  · rintro v index ⟨insn, hinsn, hassignee⟩
    obtain ⟨after, hafter, hsame⟩ := hr.kept insn hinsn
    exact ⟨after, hafter, hsame.trans hassignee⟩
  · rintro v index ⟨after, hafter, hassignee⟩
    rcases hr.emitted after hafter with ⟨insn, hinsn, hsame⟩ | ⟨owner, a, helement, hilp⟩
    · exact .inl ⟨insn, hinsn, hsame.trans hassignee⟩
    · refine .inr fun n hn => ?_
      have hname := ReductionOwner.mem_laneNames_of_element (helement.symm.trans hassignee) hn
      obtain ⟨lane, hlane, rfl⟩ := List.mem_map.mp hname
      exact hilp lane hlane
  · rcases (SortedMap.get?_foldl_insert r.temporaries.nodup_keys v t).mp ht with hnew | ⟨-, hold⟩
    · exact .inr (hr.temporaries v t (SortedMap.mem_entries.mp hnew))
    · exact .inl hold
  · have hno := List.filter_eq_nil_iff.mp hnone insn hinsn
    simp only [Bool.or_eq_true, not_or, Bool.not_eq_true] at hno
    exact hno.2

end Kernel

end LoopKernel
