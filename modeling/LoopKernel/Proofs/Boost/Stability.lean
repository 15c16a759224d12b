import LoopKernel.Proofs.Certificate.Kept
import LoopKernel.Proofs.Storage.Repetition

/-!
# Dependencies and loops for extra runs, found again

What is inferred about instructions depends on the assignments and the loops alone, and neither
inference nor limiting changes these. So what has been found once is found again.
-/

namespace LoopKernel

variable {k k' out : Kernel}

/-! ## Kernels with the same loops -/

namespace Kernel.SameLoops

theorem trans (h : k.SameLoops k') (h' : k'.SameLoops out) : k.SameLoops out :=
  ⟨by rw [h'.others, h.others], h'.bare.trans h.bare⟩

/-- What is read off the bare instructions is the same. -/
theorem map_eq {α : Type} {f : Instruction → α} (h : k.SameLoops k')
    (hf : ∀ insn, f insn.bare = f insn) :
    k'.instructions.map f = k.instructions.map f := by
  have hbare (insns : List Instruction) : insns.map f = (insns.map Instruction.bare).map f := by
    rw [List.map_map]
    exact List.map_congr_left fun insn _ => (hf insn).symm
  rw [hbare, h.bare, ← hbare]

theorem insnInames_eq (h : k.SameLoops k') : k'.insnInames = k.insnInames := by
  rw [h.others]
  rfl

end Kernel.SameLoops

namespace DataFlow

/-- The data flow of kernels with the same loops and the same names is the same. -/
theorem ofKernel_congr (h : k.SameLoops k')
    (hdeclared : ∀ n, k'.temporaries.contains n = k.temporaries.contains n) :
    ofKernel k' = ofKernel k := by
  have hargs : k'.argNames = k.argNames := by
    rw [h.others]
    rfl
  have hdeclared :
      k'.argNames.addAll k'.temporaries.keys = k.argNames.addAll k.temporaries.keys := by
    apply NameSet.ext
    intro n
    simp only [NameSet.mem_addAll, SortedMap.mem_keys, hdeclared, hargs]
  have hwriters : k'.writers = k.writers := by
    have hpairs (k : Kernel) : k.writers =
        (k.instructions.map fun insn => (insn.target, insn.id)).foldl
          (fun m pair => m.insert pair.1 ((m.getD pair.1 ∅).add pair.2)) ∅ := by
      rw [List.foldl_map]
      rfl
    rw [hpairs, hpairs, h.map_eq fun _ => rfl]
  unfold ofKernel
  rw [hdeclared, hargs, hwriters]
  dsimp only
  rw [h.map_eq fun _ => rfl]

end DataFlow

namespace Kernel

/-- Which instructions depend on their own results is seen from the loops. -/
theorem poisoned_congr (h : k.SameLoops k')
    (hdeclared : ∀ n, k'.temporaries.contains n = k.temporaries.contains n) :
    k'.poisoned = k.poisoned := by
  have hpairs (k : Kernel) : (k.cyclicInsns (DataFlow.ofKernel k)).map Instruction.target =
      ((k.instructions.map fun insn => (insn.target, insn.id)).filter
        fun pair => (DataFlow.ofKernel k).isCyclic pair.2).map Prod.fst := by
    rw [List.filter_map, List.map_map]
    rfl
  rw [poisoned, poisoned, hpairs, hpairs, DataFlow.ofKernel_congr h hdeclared,
    h.map_eq fun _ => rfl]

/-- What is inferred about an instruction twice is what is inferred once. -/
theorem inferred_inferred (k : Kernel) (insn : Instruction) (into : Option NameSet) :
    k.inferred { k.inferred insn with boostableInto := into } =
      { k.inferred insn with boostableInto := into } := by
  have hdeps : ∀ s t : NameSet, (s.union t).union t = s.union t := by
    intro s t
    apply NameSet.ext
    intro n
    simp only [NameSet.mem_union]
    tauto
  exact congrArg (fun deps => { k.inferred insn with deps := deps, boostableInto := into })
    (hdeps insn.deps _)

/-- The loops for extra runs are seen from the loops. -/
theorem boostTargets_congr (h : k.SameLoops k') (insn : Instruction) :
    k'.boostTargets insn = k.boostTargets insn := by
  have hmap : k'.instructions.map k'.insnInames = k.instructions.map k.insnInames := by
    rw [h.insnInames_eq, h.map_eq fun _ => rfl]
  unfold boostTargets occursWith useCount
  rw [hmap, h.insnInames_eq]

/-- What a limited instruction is given is given to it again. -/
theorem limitFor_limited {insn limited : Instruction} (h : k.limitFor insn = .ok limited) :
    k.limitFor limited = .ok limited := by
  unfold limitFor at h
  split at h
  · simp at h
  · next hboostable =>
    rw [Attempt.pure_eq_ok] at h
    subst h
    simp only [limitFor, hboostable]
    rfl
  · next hboostable =>
    rw [Attempt.pure_eq_ok] at h
    subst h
    simp only [limitFor, hboostable]
    rfl

/-- Inference and limiting change nothing that they have found already. -/
theorem found_again {problems : List Diagnostic}
    (hlimited : k.inferDependencies.1.limitBoostability = .ok k')
    (hadjusted : k'.adjustStorage = .ok (out, problems)) :
    out.inferDependencies.1 = out ∧ out.limitBoostability = .ok out := by
  have hloops := (sameLoops_limitBoostability hlimited).1.trans (sameLoops_adjustStorage hadjusted)
  have hall := k.sameLoops_inferDependencies.trans hloops
  have hdeclared (n : String) : out.temporaries.contains n = k.temporaries.contains n := by
    rw [contains_chooseLayouts hadjusted, (limitBoostability_keeps hlimited).1]
    rfl
  have hfound : ∀ insn ∈ out.instructions, ∃ old ∈ k.instructions,
      k.inferDependencies.1.limitFor (k.inferred old) = .ok insn := by
    intro insn hinsn
    rw [adjustStorage_keeps hadjusted] at hinsn
    unfold limitBoostability at hlimited
    simp only [Attempt.bind_eq_ok, Attempt.pure_eq_ok] at hlimited
    obtain ⟨insns, hinsns, rfl⟩ := hlimited
    obtain ⟨before, hbefore, hinsn⟩ := Attempt.exists_of_mem_mapM hinsns hinsn
    obtain ⟨old, hold, rfl⟩ := List.mem_map.mp hbefore
    exact ⟨old, hold, hinsn⟩
  constructor
  · have hinferred : out.inferred = k.inferred := by
      unfold inferred
      rw [DataFlow.ofKernel_congr hall hdeclared, poisoned_congr hall hdeclared]
    have hself : out.instructions.map out.inferred = out.instructions := by
      refine (List.map_congr_left fun insn hinsn => ?_).trans (List.map_id _)
      obtain ⟨old, -, hlimit⟩ := hfound insn hinsn
      obtain ⟨targets, rfl, -⟩ := limitFor_spec hlimit
      rw [hinferred]
      exact k.inferred_inferred old (some targets)
    exact congrArg (fun insns => { out with instructions := insns }) hself
  · have hself : out.instructions.mapM out.limitFor = .ok out.instructions := by
      refine Attempt.mapM_eq_self fun insn hinsn => ?_
      obtain ⟨old, -, hlimit⟩ := hfound insn hinsn
      have hsame : out.limitFor insn = k.inferDependencies.1.limitFor insn := by
        unfold limitFor
        rw [boostTargets_congr hloops]
      rw [hsame]
      exact limitFor_limited hlimit
    rw [limitBoostability, hself]
    rfl

/-- Inference gives warnings at most. -/
theorem warnings_inferDependencies (k : Kernel) :
    k.inferDependencies.2.any Diagnostic.isError = false := by
  rw [List.any_eq_false]
  intro d hd
  obtain ⟨insn, -, hd⟩ := List.mem_flatMap.mp hd
  obtain ⟨name, -, hd⟩ := List.mem_flatMap.mp hd
  rcases List.mem_append.mp hd with hd | hd <;>
  · split at hd
    · rw [List.mem_singleton.mp hd]
      simp [Diagnostic.isError, Diagnostic.relatedTo, Diagnostic.about, Problem.isWarning]
    · cases hd

end Kernel

end LoopKernel
