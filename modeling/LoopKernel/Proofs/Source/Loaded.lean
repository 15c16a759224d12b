import LoopKernel.Proofs.Checked
import LoopKernel.Proofs.FreshName
import LoopKernel.Proofs.NameSet
import LoopKernel.Source.Loading
import Mathlib.Data.List.Nodup
import Mathlib.Data.List.Zip

/-!
# Loaded kernels

A kernel is loaded when no step of its building has a problem. Such a building is taken apart into
its steps, and an invariant of clean steps holds of what is built.
-/

namespace LoopKernel.Source

namespace Noted

variable {α β ι : Type}

/-- Two steps one after the other are clean when both are. -/
theorem andThen_clean {n : Noted α} {step : α → Checked (Noted β)} {b : β} :
    n.andThen step = .ok (clean b) ↔ n.problems = [] ∧ step n.value = .ok (clean b) := by
  unfold andThen
  rw [Attempt.bind_eq_ok]
  constructor
  · rintro ⟨next, hs, he⟩
    simp only [pure, Except.pure, clean, Except.ok.injEq, Noted.mk.injEq,
      List.append_eq_nil_iff] at he
    obtain ⟨hv, hn, hp⟩ := he
    refine ⟨hn, hs.trans ?_⟩
    rw [clean, ← hv, ← hp]
  · rintro ⟨hn, hs⟩
    exact ⟨clean b, hs, by rw [hn]; rfl⟩

/-- A value without problems is a clean one. -/
theorem eq_clean {n : Noted α} (h : n.problems = []) : n = clean n.value := by
  rw [clean, ← h]

/-- A clean run over a list starts clean. -/
theorem problems_of_overAll_clean {step : α → ι → Checked (Noted α)} {l : List ι} {n : Noted α}
    {final : α} (h : overAll step l n = .ok (clean final)) : n.problems = [] := by
  induction l generalizing n with
  | nil =>
    simp only [overAll, pure, Except.pure, Except.ok.injEq] at h
    rw [h, clean]
  | cons i rest ih =>
    rw [overAll, Attempt.bind_eq_ok] at h
    obtain ⟨next, hn, hr⟩ := h
    have hnext := eq_clean (ih hr)
    rw [hnext, andThen_clean] at hn
    exact hn.1

/-- What holds at the start of a clean run and is kept by clean steps holds at its end. The
invariant may speak of the items that the run has gone through. -/
theorem overAll_clean {step : α → ι → Checked (Noted α)} {P : List ι → α → Prop} {start : α}
    (hstart : P [] start)
    (hstep : ∀ done value i next, P done value → step value i = .ok (clean next) →
      P (done ++ [i]) next)
    {l : List ι} {final : α} (h : overAll step l (clean start) = .ok (clean final)) :
    P l final := by
  have general : ∀ (l done : List ι) (value : α), P done value →
      overAll step l (clean value) = .ok (clean final) → P (done ++ l) final := by
    intro l
    induction l with
    | nil =>
      intro done value hp h
      simp only [overAll, pure, Except.pure, clean, Except.ok.injEq, Noted.mk.injEq] at h
      rw [List.append_nil, ← h.1]
      exact hp
    | cons i rest ih =>
      intro done value hp h
      rw [overAll, Attempt.bind_eq_ok] at h
      obtain ⟨next, hn, hr⟩ := h
      have hnext := eq_clean (problems_of_overAll_clean hr)
      rw [hnext, andThen_clean] at hn
      rw [hnext] at hr
      have := ih (done ++ [i]) next.value (hstep done value i _ hp hn.2) hr
      rwa [List.append_assoc] at this
  exact general l [] start hstart h

end Noted

/-! ## Ids of instructions -/

/-- The ids that are given. -/
def givenNames (given : List (Option Ident)) : List String :=
  given.filterMap fun id => id.map Ident.name

private theorem givenNames_concat_none (given : List (Option Ident)) :
    givenNames (given ++ [none]) = givenNames given := by
  simp [givenNames]

private theorem givenNames_concat_some (given : List (Option Ident)) (id : Ident) :
    givenNames (given ++ [some id]) = givenNames given ++ [id.name] := by
  simp [givenNames]

private theorem claimId_clean {ids next : NameSet} {id : Ident}
    (h : claimId ids (some id) = .clean next) : id.name ∉ ids ∧ next = ids.add id.name := by
  simp only [claimId] at h
  split at h
  · cases h
  · next hfree =>
    simp only [Noted.clean, Noted.mk.injEq, and_true] at h
    exact ⟨hfree, h.symm⟩

/-- Ids that are claimed without a problem are different, and all are taken afterwards. -/
theorem nodup_of_claimed {given : List (Option Ident)} {taken : NameSet}
    (h : Noted.overAll (fun ids id => pure (claimId ids id)) given (.clean ∅) =
      .ok (.clean taken)) :
    (givenNames given).Nodup ∧ ∀ name, name ∈ taken ↔ name ∈ givenNames given := by
  apply Noted.overAll_clean (P := fun done taken =>
    (givenNames done).Nodup ∧ ∀ name, name ∈ taken ↔ name ∈ givenNames done) _ _ h
  · simp [givenNames]
  · rintro done taken id next ⟨hnodup, hmem⟩ hclaim
    simp only [pure, Except.pure, Except.ok.injEq] at hclaim
    cases id with
    | none =>
      simp only [claimId, Noted.clean, Noted.mk.injEq, and_true] at hclaim
      rw [givenNames_concat_none, ← hclaim]
      exact ⟨hnodup, hmem⟩
    | some id =>
      obtain ⟨hfree, rfl⟩ := claimId_clean hclaim
      rw [givenNames_concat_some]
      rw [hmem] at hfree
      constructor
      · exact List.concat_eq_append ▸ hnodup.concat hfree
      · intro name
        rw [NameSet.mem_add, hmem, List.mem_append, List.mem_singleton, or_comm]

/-- Every id is given or fresh. -/
theorem mem_assignIds {taken : List String} {given : List (Option Ident)} {name : String}
    (h : name ∈ assignIds taken given) : name ∈ givenNames given ∨ name ∉ taken := by
  induction given generalizing taken with
  | nil => cases h
  | cons id rest ih =>
    cases id with
    | some id =>
      rw [assignIds, List.mem_cons] at h
      rcases h with rfl | h
      · exact .inl List.mem_cons_self
      · exact (ih h).imp_left (List.mem_cons_of_mem _)
    | none =>
      rw [assignIds, List.mem_cons] at h
      rcases h with rfl | h
      · exact .inr (FreshName.choose_not_mem taken "insn")
      · exact (ih h).imp_right fun hr ht => hr (List.mem_cons_of_mem _ ht)

/-- The ids of instructions are different when the given ones are different and taken. -/
theorem nodup_assignIds {taken : List String} {given : List (Option Ident)}
    (hnodup : (givenNames given).Nodup) (htaken : ∀ name ∈ givenNames given, name ∈ taken) :
    (assignIds taken given).Nodup := by
  induction given generalizing taken with
  | nil => exact List.nodup_nil
  | cons id rest ih =>
    cases id with
    | some id =>
      obtain ⟨hid, hrest⟩ := List.nodup_cons.mp hnodup
      rw [assignIds, List.nodup_cons]
      refine ⟨fun hm => ?_, ih hrest fun name hn => htaken name (List.mem_cons_of_mem _ hn)⟩
      rcases mem_assignIds hm with hg | hfresh
      · exact hid hg
      · exact hfresh (htaken id.name List.mem_cons_self)
    | none =>
      have hfree := FreshName.choose_not_mem taken "insn"
      rw [assignIds, List.nodup_cons]
      refine ⟨fun hm => ?_, ih hnodup fun name hn => List.mem_cons_of_mem _ (htaken name hn)⟩
      rcases mem_assignIds hm with hg | hfresh
      · exact hfree (htaken _ hg)
      · exact hfresh List.mem_cons_self

theorem length_assignIds (taken : List String) (given : List (Option Ident)) :
    (assignIds taken given).length = given.length := by
  induction given generalizing taken with
  | nil => rfl
  | cons id rest ih =>
    cases id with
    | some id => rw [assignIds, List.length_cons, ih, List.length_cons]
    | none => rw [assignIds, List.length_cons, ih, List.length_cons]

/-! ## Instructions -/

/-- A dependency that is added without a problem is known. -/
theorem addDep_clean {known : NameSet} {insn next : Instruction} {dep : Ident}
    (h : addDep known insn dep = .clean next) :
    dep.name ∈ known ∧ next = { insn with deps := insn.deps.add dep.name } := by
  unfold addDep at h
  split at h
  · next hknown =>
    simp only [Noted.clean, Noted.mk.injEq, and_true] at h
    exact ⟨hknown, h.symm⟩
  · cases h

/-- A loop index that is forced without a problem is a dimension. -/
theorem addForcedIname_clean {dims : List String} {span : Span} {insn next : Instruction}
    {iname : Ident} (h : addForcedIname dims span insn iname = .clean next) :
    iname.name ∈ dims ∧ next = { insn with forcedInames := insn.forcedInames.add iname.name } := by
  unfold addForcedIname at h
  split at h
  · next hdim =>
    simp only [Noted.clean, Noted.mk.injEq, and_true] at h
    exact ⟨List.contains_iff_mem.mp hdim, h.symm⟩
  · cases h

/-- An instruction that is added without a problem has what holds of the bare assignment and is kept
by known dependencies and forced dimensions. -/
theorem addInstruction_clean {P : Instruction → Prop} {dims : List String}
    {dtypes : SortedMap String Dtype} {known : NameSet} {insns next : List Instruction}
    {s : InsnStatement} {span : Span} {id : String}
    (hassign : ∀ target expression,
      lowerAssignment ⟨dims, dtypes.getD (assigned s.assignee) .float32⟩ s =
        .ok (target, expression) → P (.assign id target expression))
    (hdep : ∀ insn, ∀ dep ∈ known, P insn → P { insn with deps := insn.deps.add dep })
    (hforced : ∀ insn, ∀ n ∈ dims, P insn →
      P { insn with forcedInames := insn.forcedInames.add n })
    (h : addInstruction dims dtypes known insns s span id = .ok (.clean next)) :
    ∃ insn, next = insns ++ [insn] ∧ P insn := by
  unfold addInstruction at h
  rw [Attempt.bind_eq_ok] at h
  obtain ⟨lowered, hlowered, h⟩ := h
  cases lowered with
  | error d =>
    simp [pure, Except.pure, Noted.problem, Noted.clean] at h
  | ok assignment =>
    obtain ⟨target, expression⟩ := assignment
    simp only [Attempt.bind_eq_ok] at h
    obtain ⟨withDeps, hdeps, insn, hinsn, h⟩ := h
    simp only [pure, Except.pure, Except.ok.injEq, Noted.clean, Noted.mk.injEq] at h
    obtain ⟨rfl, hp⟩ := h
    rw [Noted.eq_clean hp] at hinsn
    have hclean := Noted.eq_clean (Noted.problems_of_overAll_clean hinsn)
    rw [hclean] at hdeps hinsn
    refine ⟨insn.value, rfl, ?_⟩
    apply Noted.overAll_clean (P := fun _ insn => P insn) _ _ hinsn
    · apply Noted.overAll_clean (P := fun _ insn => P insn) _ _ hdeps
      · exact hassign target expression (Attempt.caught_eq_ok.mp hlowered)
      · intro _ insn dep next hinsn hstep
        simp only [pure, Except.pure, Except.ok.injEq] at hstep
        obtain ⟨hknown, rfl⟩ := addDep_clean hstep
        exact hdep insn dep.name hknown hinsn
    · intro _ insn iname next hinsn hstep
      simp only [pure, Except.pure, Except.ok.injEq] at hstep
      obtain ⟨hdim, rfl⟩ := addForcedIname_clean hstep
      exact hforced insn iname.name hdim hinsn

/-- Instructions are read without a problem one by one, under different ids. -/
theorem instructions_clean {dims : List String} {dtypes : SortedMap String Dtype}
    {statements : List Statement} {insns : List Instruction}
    (h : instructions dims dtypes statements = .ok (.clean insns)) :
    ∃ ids : List String, ids.Nodup ∧ ids.length = (insnStatements statements).length ∧
      Noted.overAll (fun insns ((s, span), id) =>
          addInstruction dims dtypes (NameSet.ofList ids) insns s span id)
        ((insnStatements statements).zip ids) (.clean []) = .ok (.clean insns) := by
  unfold instructions at h
  simp only [Attempt.bind_eq_ok] at h
  obtain ⟨claimed, hclaimed, h⟩ := h
  rw [Noted.andThen_clean] at h
  obtain ⟨hp, h⟩ := h
  rw [Noted.eq_clean hp] at hclaimed
  obtain ⟨hnodup, hmem⟩ := nodup_of_claimed hclaimed
  refine ⟨_, nodup_assignIds hnodup fun name hn => ?_, ?_, h⟩
  · rw [NameSet.mem_toList]
    exact (hmem name).mpr hn
  · rw [length_assignIds, List.length_map]

/-! ## Kernels -/

/-- The parts that a kernel is built from. -/
theorem buildOver_clean {statements : List Statement} {device : Device} {domain : Polyhedron}
    {k : Kernel} (h : buildOver statements device domain = .ok (.clean (some k))) :
    k.domain = domain ∧ tags domain.dims statements = .ok (.clean k.tags) ∧
      ∃ declared, declarations domain.dims statements = .ok (.clean declared) ∧
        k.args = declared.args ∧ k.temporaries = declared.temporaries ∧
        instructions domain.dims declared.dtypes statements = .ok (.clean k.instructions) := by
  unfold buildOver at h
  rw [Attempt.bind_eq_ok] at h
  obtain ⟨declared, hdeclared, h⟩ := h
  rw [Noted.andThen_clean, Attempt.bind_eq_ok] at h
  obtain ⟨hd, tags, htags, h⟩ := h
  rw [Noted.andThen_clean, Attempt.bind_eq_ok] at h
  obtain ⟨ht, insns, hinsns, h⟩ := h
  rw [Noted.andThen_clean] at h
  obtain ⟨hi, h⟩ := h
  simp only [pure, Except.pure, Noted.clean, Except.ok.injEq, Noted.mk.injEq,
    Option.some.injEq, and_true] at h
  subst h
  refine ⟨rfl, ?_, declared.value, ?_, rfl, rfl, ?_⟩
  · rw [htags, ← Noted.eq_clean ht]
  · rw [hdeclared, ← Noted.eq_clean hd]
  · rw [hinsns, ← Noted.eq_clean hi]

/-- A kernel is built over its domain. -/
theorem build_clean {statements : List Statement} {device : Device} {k : Kernel}
    (h : build statements device = .ok (.clean (some k))) :
    ∃ dims chains d, (∃ span, ((dims, chains), span) ∈ domainStatements statements) ∧
      domain dims chains = .ok (.clean k.domain) ∧
        buildOver statements d k.domain = .ok (.clean (some k)) := by
  unfold build at h
  rw [Attempt.bind_eq_ok] at h
  obtain ⟨device, -, h⟩ := h
  rw [Noted.andThen_clean] at h
  obtain ⟨-, h⟩ := h
  split at h
  · simp [pure, Except.pure, Noted.problem, Noted.clean] at h
  · next dims chains span others hs =>
    rw [Noted.andThen_clean, Attempt.bind_eq_ok] at h
    obtain ⟨-, dom, hdom, h⟩ := h
    rw [Noted.andThen_clean] at h
    obtain ⟨hp, hover⟩ := h
    rw [Noted.eq_clean hp] at hdom
    have hk := (buildOver_clean hover).1
    rw [← hk] at hdom hover
    exact ⟨dims, chains, device.value, ⟨span, hs ▸ List.mem_cons_self⟩, hdom, hover⟩

/-- A source is loaded when its statements are built without a problem. -/
theorem load_clean {source : String} {device : Device} {k : Kernel}
    (h : load source device = .ok k) :
    ∃ file, (read source).file = .ok file ∧
      build file.statements device = .ok (.clean (some k)) := by
  simp only [load] at h
  split at h
  · cases h
  · next file hfile =>
    split at h
    · rw [Attempt.bind_eq_ok] at h
      obtain ⟨built, hbuilt, h⟩ := h
      have hbuilt := Attempt.ofChecked_eq_ok.mp hbuilt
      split at h
      · simp only [pure, Except.pure, Except.ok.injEq] at h
        rw [h] at hbuilt
        exact ⟨file, hfile, hbuilt⟩
      · cases h
    · cases h

end LoopKernel.Source
