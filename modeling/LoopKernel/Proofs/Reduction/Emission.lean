import LoopKernel.Proofs.Execution.Run
import LoopKernel.Proofs.WellFormed.Basic
import LoopKernel.Reduction.Realization

/-!
# Emitted instructions

What realization keeps up while it emits instructions: they assign to declared names or to
accumulators with names of their own, and every accumulator is assigned to. Instructions that are
emitted later leave the accumulators made before alone.
-/

namespace LoopKernel

namespace Realization

variable {k : Kernel} {r s t : Realization} {new more : List Instruction}

/-! ## Cells -/

/-- The loop indices that the first instruction with a target runs under. -/
def cellsIn (k : Kernel) (insns : List Instruction) (name : String) : NameSet :=
  match insns.find? fun insn => insn.target == name with
  | some insn => k.insnInames insn
  | none => ∅

/-- Instructions after the first one with a target make no difference. -/
theorem cellsIn_append {name : String} (h : ∃ insn ∈ new, insn.target = name) :
    cellsIn k (new ++ more) name = cellsIn k new name := by
  obtain ⟨insn, hinsn, htarget⟩ := h
  have hsome : (new.find? fun insn => insn.target == name).isSome = true :=
    List.find?_isSome.mpr ⟨insn, hinsn, beq_iff_eq.mpr htarget⟩
  unfold cellsIn
  rw [List.find?_append, Option.or_of_isSome hsome]

/-- The first instruction with a target comes after those with other ones. -/
theorem cellsIn_append_cons {name : String} {insn : Instruction}
    (h : ∀ other ∈ new, other.target ≠ name) (hinsn : insn.target = name) :
    cellsIn k (new ++ insn :: more) name = k.insnInames insn := by
  have hnone : (new.find? fun insn => insn.target == name) = none :=
    List.find?_eq_none.mpr fun other hother => by simpa using h other hother
  unfold cellsIn
  rw [List.find?_append, hnone, Option.none_or, List.find?_cons_of_pos]
  exact beq_iff_eq.mpr hinsn

/-! ## Extensions -/

/-- What holds of the temporaries and instructions at all times. -/
structure Sound (k : Kernel) (r : Realization) : Prop where
  fresh : ∀ n, r.temporaries.contains n = true → n ∉ k.names
  targets : ∀ insn ∈ r.emitted, insn.target ∈ k.names ∨ r.temporaries.contains insn.target = true
  covered : ∀ n, r.temporaries.contains n = true → ∃ insn ∈ r.emitted, insn.target = n

/-- Whether one state comes from another by emitting instructions for new temporaries. -/
structure Extends (k : Kernel) (r : Realization) (new : List Instruction) (s : Realization) :
    Prop where
  sound : s.Sound k
  emitted : s.emitted = r.emitted ++ new
  keeps : ∀ n, r.temporaries.contains n = true → s.temporaries.contains n = true
  targets : ∀ insn ∈ new, s.temporaries.contains insn.target = true ∧
    r.temporaries.contains insn.target = false

/-- An instruction that assigns to a declared name may follow. -/
theorem Sound.of_append {insn : Instruction} (h : r.Sound k)
    (htemporaries : s.temporaries = r.temporaries) (hemitted : s.emitted = r.emitted ++ [insn])
    (htarget : insn.target ∈ k.names) : s.Sound k := by
  refine ⟨fun n hn => ?_, fun other hother => ?_, fun n hn => ?_⟩
  · rw [htemporaries] at hn
    exact h.fresh n hn
  · rw [hemitted, List.mem_append, List.mem_singleton] at hother
    rw [htemporaries]
    rcases hother with hother | rfl
    · exact h.targets other hother
    · exact .inl htarget
  · rw [htemporaries] at hn
    obtain ⟨other, hother, hn⟩ := h.covered n hn
    exact ⟨other, by simp [hemitted, hother], hn⟩

namespace Extends

/-- Nothing is emitted. -/
theorem refl (hr : r.Sound k) : Extends k r [] r :=
  ⟨hr, by simp, fun _ h => h, by simp⟩

/-- One extension after the other. -/
theorem trans (h : Extends k r new s) (h' : Extends k s more t) : Extends k r (new ++ more) t := by
  refine ⟨h'.sound, ?_, fun n hn => h'.keeps n (h.keeps n hn), fun insn hinsn => ?_⟩
  · rw [h'.emitted, h.emitted, List.append_assoc]
  · rcases List.mem_append.mp hinsn with hinsn | hinsn
    · exact ⟨h'.keeps _ (h.targets insn hinsn).1, (h.targets insn hinsn).2⟩
    · obtain ⟨hin, hout⟩ := h'.targets insn hinsn
      refine ⟨hin, Bool.eq_false_iff.mpr fun hr => ?_⟩
      rw [h.keeps _ hr] at hout
      cases hout

variable {V : Type} {M : Machine V}

/-- The new instructions leave everything alone that was there before. -/
theorem writeAll_of_mem (h : Extends k r new s) (m : Memory V) {n : String}
    (hn : n ∈ k.names ∨ r.temporaries.contains n = true) :
    m.writeAll (k.storesOf M m new) n = m n := by
  apply m.writeAll_other_name
  intro store hstore
  obtain ⟨insn, hinsn, hname⟩ := Kernel.name_of_mem_storesOf hstore
  obtain ⟨hin, hout⟩ := h.targets insn hinsn
  rw [hname]
  rintro rfl
  rcases hn with hn | hn
  · exact h.sound.fresh _ hin hn
  · rw [hn] at hout
    cases hout

/-- The new instructions store nothing in declared variables. -/
theorem filter_storesOf (h : Extends k r new s) (M : Machine V) (m : Memory V) :
    (k.storesOf M m new).filter (fun store => k.names.contains store.name) = [] := by
  rw [List.filter_eq_nil_iff]
  intro store hstore
  obtain ⟨insn, hinsn, hname⟩ := Kernel.name_of_mem_storesOf hstore
  rw [hname, NameSet.contains_iff]
  exact h.sound.fresh _ (h.targets insn hinsn).1

end Extends

/-- Whether every accumulator is private to the loop indices of the instruction that assigns to it
first, and all declared names are shared. -/
structure HasCells {V : Type} (k : Kernel) (M : Machine V) (r : Realization) : Prop where
  declared : ∀ n ∈ k.names, M.privateTo n = ∅
  temporaries : ∀ n, r.temporaries.contains n = true → M.privateTo n = cellsIn k r.emitted n

/-- Accumulators made before have their cells. -/
theorem HasCells.of_append {V : Type} {M : Machine V} (hr : r.Sound k)
    (hemitted : s.emitted = r.emitted ++ new)
    (hkeeps : ∀ n, r.temporaries.contains n = true → s.temporaries.contains n = true)
    (hM : HasCells k M s) : HasCells k M r := by
  refine ⟨hM.declared, fun n hn => ?_⟩
  rw [hM.temporaries n (hkeeps n hn), hemitted, cellsIn_append (hr.covered n hn)]

/-- Accumulators made before an extension have their cells. -/
theorem HasCells.of_extends {V : Type} {M : Machine V} (hr : r.Sound k) (h : Extends k r new s)
    (hM : HasCells k M s) : HasCells k M r := hM.of_append hr h.emitted h.keeps

/-! ## Accumulators -/

/-- What realizing a reduction does: it makes an accumulator with a new name and emits two
instructions with new ids. -/
theorem realize_spec (k : Kernel) (owner : ReductionOwner) (op : ReductionOp)
    (binders : List Binder) (body : Expr) (r : Realization) :
    ∃ a initId updateId s, realize k owner op binders body r = (owner.element a, s) ∧
      a = k.freshVar "acc" r.temporaries.keys ∧
      s.temporaries =
        r.temporaries.insert a (Temporary.ofShape a op.dtype (owner.lanes.map Prod.snd)) ∧
      (initId ∉ k.insnIds ∧ initId ∉ r.ids) ∧
      (updateId ∉ k.insnIds ∧ updateId ∉ initId :: r.ids) ∧
      s.ids = updateId :: initId :: updateId :: initId :: r.ids ∧
      s.updates = r.updates.insert a updateId ∧
      s.emitted = r.emitted ++
        [initInsn initId (owner.element a) op
            (outerInames k owner (Expr.boundNames binders) body) (Expr.boundNames binders),
          updateInsn updateId ((owner.deps.add initId).addAll (updatesRead r.updates body))
            (owner.element a) op body (outerInames k owner (Expr.boundNames binders) body)
            (Expr.boundNames binders)] :=
  ⟨_, _, _, _, rfl, rfl, rfl, k.freshInsn_not_mem _ _, k.freshInsn_not_mem _ _, rfl, rfl,
    List.append_assoc ..⟩

/-- A name of an accumulator is neither declared nor that of another accumulator, and it is no name
of a constant. -/
theorem freshVar_acc (k : Kernel) (names : List String) :
    k.freshVar "acc" names ∉ k.names ∧ k.freshVar "acc" names ∉ names ∧
      k.freshVar "acc" names ≠ "INFINITY" := by
  obtain ⟨hnames, hothers⟩ := k.freshVar_not_mem "acc" names
  refine ⟨hnames, hothers, ?_⟩
  unfold Kernel.freshVar
  rcases FreshName.choose_eq (k.names.toList ++ names) "acc" with h | ⟨n, h⟩
  · rw [h]
    decide
  · rw [h, FreshName.numbered]
    intro he
    have hhead := congrArg (fun s : String => s.toList.head?) he
    simp at hhead

/-- A new accumulator with its two instructions extends what was made before. -/
theorem extends_accumulator {a : String} {acc : Temporary} {init update : Instruction}
    (hr : r.Sound k) (hnames : a ∉ k.names)
    (hnew : a ∉ r.temporaries.keys) (hinit : init.target = a) (hupdate : update.target = a)
    (htemporaries : s.temporaries = r.temporaries.insert a acc)
    (hemitted : s.emitted = r.emitted ++ [init, update]) : Extends k r [init, update] s := by
  have hcontains : ∀ n, s.temporaries.contains n = true ↔
      n = a ∨ r.temporaries.contains n = true := by
    intro n
    rw [htemporaries, SortedMap.contains_insert, Bool.or_eq_true, beq_iff_eq]
  have htarget : ∀ insn ∈ [init, update], insn.target = a := by
    simp [hinit, hupdate]
  have hout : r.temporaries.contains a = false := by
    rwa [SortedMap.mem_keys, Bool.not_eq_true] at hnew
  refine ⟨⟨fun n hn => ?_, fun insn hinsn => ?_, fun n hn => ?_⟩, hemitted,
    fun n hn => (hcontains n).mpr (.inr hn), fun insn hinsn => ?_⟩
  · rcases (hcontains n).mp hn with rfl | hn
    · exact hnames
    · exact hr.fresh n hn
  · rw [hemitted, List.mem_append] at hinsn
    rcases hinsn with hinsn | hinsn
    · exact (hr.targets insn hinsn).imp_right fun h => (hcontains _).mpr (.inr h)
    · exact .inr ((hcontains _).mpr (.inl (htarget insn hinsn)))
  · rcases (hcontains n).mp hn with rfl | hn
    · exact ⟨init, by simp [hemitted], hinit⟩
    · obtain ⟨insn, hinsn, hn⟩ := hr.covered n hn
      exact ⟨insn, by simp [hemitted, hinsn], hn⟩
  · rw [htarget insn hinsn]
    exact ⟨(hcontains a).mpr (.inl rfl), hout⟩

end Realization

/-! ## Owners and kernels -/

namespace Kernel

variable {k k' : Kernel} {r s : Realization} {insn : Instruction}

/-- What realizing the reductions of an instruction does: after what they become, it emits the
instruction with its expression replaced, which runs under the indices that it had and waits for
the updates of its accumulators. -/
theorem exists_lanes_of_realizeOwner (h : k.realizeOwner r insn = .ok s) :
    ∃ lanes expression t, k.lanesOf (k.insnInames insn) = .ok lanes ∧
      insn.expression.mapReductionsM
          (Realization.realize k ⟨insn.id, insn.deps, k.insnInames insn, lanes⟩)
          { r with updates := ∅ } = (expression, t) ∧
      s = ((Realization.emit { insn with
        expression := expression
        deps := insn.deps.addAll t.updates.values
        forcedInames := k.insnInames insn }).run t).2 := by
  unfold realizeOwner at h
  rw [Attempt.bind_eq_ok] at h
  obtain ⟨lanes, hlanes, h⟩ := h
  exact ⟨lanes, _, _, hlanes, rfl, (Attempt.pure_eq_ok.mp h).symm⟩

/-- A realized kernel has the instructions and the accumulators that a run over its instructions
emits, and no reduction is left. -/
theorem exists_of_realizeReduction (h : k.realizeReduction = .ok k') :
    ∃ r, k.instructions.foldlM k.realizeOwner ⟨∅, [], [], ∅⟩ = .ok r ∧
      k' = { k with
        instructions := r.emitted
        temporaries := r.temporaries.entries.foldl (fun m e => m.insert e.1 e.2) k.temporaries } ∧
      k'.unrealized = [] := by
  unfold realizeReduction at h
  rw [Attempt.bind_eq_ok] at h
  obtain ⟨r, hr, h⟩ := h
  simp only at h
  split at h
  · next hnone =>
    rw [Attempt.pure_eq_ok] at h
    subst h
    exact ⟨r, hr, rfl, hnone⟩
  · cases h

end Kernel

end LoopKernel
