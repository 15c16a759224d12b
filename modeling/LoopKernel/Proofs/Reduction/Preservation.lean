import LoopKernel.Proofs.Execution.InTurn
import LoopKernel.Proofs.Reduction.Absence
import LoopKernel.Proofs.Reduction.Realized

/-!
# Realization preserves meaning

A kernel without reductions stores what the original kernel stores, in the same order, if the
accumulators of all its reductions can hold their values. The accumulators are filled before the
instruction that owned the reductions runs, so the reductions of the original kernel are taken over
the memory that their instruction starts with. For reductions that do not read what their
instruction assigns to it is the same to take them at each point over the memory of that point.
-/

namespace LoopKernel

namespace Kernel

variable {V : Type} {k k' : Kernel}

/-- The loop indices with instruction-level parallelism that an instruction runs under. -/
def laneNames (k : Kernel) (insn : Instruction) : List String :=
  (k.insnInames insn).toList.filter fun i => k.tag i == .ilp

/-- Lanes are listed with their lengths, in order. -/
theorem map_fst_lanesOf {inames : NameSet} {lanes : List (String × Int)}
    (h : k.lanesOf inames = .ok lanes) :
    lanes.map Prod.fst = inames.toList.filter fun i => k.tag i == .ilp := by
  have hname : ∀ i lane, (do pure (i, ← k.inameLength i) : Attempt Diagnostic (String × Int)) =
      .ok lane → lane.1 = id i := by
    intro i lane hlane
    rw [Attempt.bind_eq_ok] at hlane
    obtain ⟨length, -, hlane⟩ := hlane
    rw [← Attempt.pure_eq_ok.mp hlane]
    rfl
  rw [Attempt.map_of_mapM hname h, List.map_id]

/-- The indices of a declared instruction are names of the kernel. -/
theorem mem_names_of_mem_insnInames {insn : Instruction} (h : insn.Declared k) {n : String}
    (hn : n ∈ k.insnInames insn) : n ∈ k.names := by
  simp only [insnInames, NameSet.mem_union, NameSet.mem_select] at hn
  rcases hn with hf | ⟨-, hd⟩
  · exact h.forced n hf
  · exact mem_names_of_hasDim hd

end Kernel

/-! ## Memory -/

namespace Memory

variable {V : Type} {names : NameSet} {m m' : Memory V}

/-- Stores to other names leave no trace on some names. -/
theorem writeAll_eq_of_filter (h : ∀ n ∈ names, m n = m' n) (stores : List (Store V)) :
    ∀ n ∈ names,
      m.writeAll stores n = m'.writeAll (stores.filter fun s => names.contains s.name) n := by
  induction stores generalizing m m' with
  | nil => exact h
  | cons s rest ih =>
    by_cases hs : s.name ∈ names
    · rw [List.filter_cons_of_pos (by simpa [NameSet.contains_iff] using hs)]
      apply ih
      intro n hn
      funext index cell
      unfold write
      rw [h n hn]
    · rw [List.filter_cons_of_neg (by simpa [NameSet.contains_iff] using hs)]
      apply ih
      intro n hn
      rw [m.write_other_name s fun he => hs (he ▸ hn), h n hn]

end Memory

/-! ## Instructions -/

section Owner

variable {V : Type} {k : Kernel} {M : Machine V} {env : String → Int} {owner : ReductionOwner}
  {r s : Realization} {new : List Instruction} {insn changed : Instruction} {base m : Memory V}

/-- The machine that the original kernel runs on, where nothing is private. -/
def Machine.shared (M : Machine V) : Machine V := { M with privateTo := fun _ => ∅ }

/-- At one point, the realized instruction stores what the original one stores. -/
private theorem storeAt_realized (hdeclared : insn.Declared k)
    (hassignee : changed.assignee = insn.assignee) (hM : Realization.HasCells k M s)
    (hm : ∀ n ∈ k.names, m n = base n) {now now' : Memory V} (hnow : ∀ n ∈ k.names, now' n = now n)
    {p : Point}
    (hvalue : changed.expression.meaning M.arithmetic M.points (m.reader M.privateTo)
        (now'.reader M.privateTo) p =
      insn.expression.meaning M.arithmetic M.points (base.reader fun _ => ∅)
        (now.reader fun _ => ∅) p) :
    changed.storeAt M m now' p = insn.storeAt M.shared base now p := by
  have hreader : ∀ (memory memory' : Memory V) (q : Point) (index : List V), ∀ n ∈ k.names,
      memory' n = memory n →
        memory'.reader M.privateTo q n index = memory.reader M.shared.privateTo q n index := by
    intro memory memory' q index n hn he
    rw [Memory.reader, Memory.reader, he, hM.declared n hn]
    rfl
  have htarget : changed.target = insn.target := by
    rw [Instruction.target, Instruction.target, hassignee]
  have htargetIndex : changed.targetIndex = insn.targetIndex := by
    rw [Instruction.targetIndex, Instruction.targetIndex, hassignee]
  unfold Instruction.storeAt
  rw [htarget, htargetIndex, hM.declared _ hdeclared.target]
  congr 1
  apply Expr.meaningAll_congr
  · intro n hn _ q index
    have hn' := hdeclared.mem_names_of_mem_targetIndex hn
    exact hreader base m q index n hn' (hm n hn')
  · intro n hn _ q index
    have hn' := hdeclared.mem_names_of_mem_targetIndex hn
    exact hreader now now' q index n hn' (hnow n hn')

/-- The realized instruction stores what the original one stores, point by point. -/
theorem storesFrom_realized (hpoints : Projects k.domain env M.points)
    (hdeclared : insn.Declared k) (hassignee : changed.assignee = insn.assignee)
    (hM : Realization.HasCells k M s) (hm : ∀ n ∈ k.names, m n = base n)
    (hfresh : ∀ n, s.temporaries.contains n = true → n ∉ k.names)
    (hvalues : SameValues k M env s.temporaries base m (k.insnInames insn) (k.insnInames insn)
      [insn.expression] [changed.expression])
    {l : List Point} (hl : ∀ p ∈ l, p ∈ M.points (k.insnInames insn)) (now now' : Memory V)
    (hnow : ∀ n ∈ k.names, now' n = now n)
    (hafter : ∀ n, s.temporaries.contains n = true → now' n = m n) :
    changed.storesFrom M m now' l = insn.storesFrom M.shared base now l := by
  induction l generalizing now now' with
  | nil => rfl
  | cons p rest ih =>
    obtain ⟨x, hx, rfl⟩ := (hpoints.mem _ p).mp (hl p List.mem_cons_self)
    have hvalue := hvalues (m.reader M.privateTo) now now' hnow hafter x hx
    rw [Expr.meaningAll, Expr.meaningAll] at hvalue
    rw [Instruction.storesFrom, Instruction.storesFrom,
      storeAt_realized hdeclared hassignee hM hm hnow (List.cons.inj hvalue).1]
    congr 1
    -- The store goes to a declared variable, so the accumulators keep what they have.
    apply ih fun q hq => hl q (List.mem_cons_of_mem _ hq)
    · intro n hn
      funext index cell
      unfold Memory.write
      rw [hnow n hn]
    · intro n hn
      rw [Memory.write_other_name, hafter n hn]
      rintro rfl
      exact hfresh _ hn hdeclared.target

/-- An expression stands under the indices of its instruction. -/
theorem surrounds_insnInames (h : insn.Declared k) :
    Surrounds k (k.insnInames insn) (k.insnInames insn) (k.insnInames insn) [insn.expression] := by
  refine ⟨fun _ hn => hn, fun _ hn => hn, fun _ hn => .inl hn, fun n hn hdim => ?_, fun n hn => ?_⟩
  · rw [Expr.mem_dependenciesOfAll_singleton] at hn
    simp only [Kernel.insnInames, NameSet.mem_union, NameSet.mem_select]
    exact .inr ⟨.inl hn, hdim⟩
  · exact h.expression n (Expr.mem_dependenciesOfAll_singleton.mp hn)

/-- An instruction whose reductions are realized runs under the same indices. -/
theorem insnInames_realized (hlanes : ∀ n ∈ owner.laneNames, n ∈ k.insnInames insn)
    (h : Realized k M env owner r [insn.expression] [changed.expression] new s)
    (hassignee : changed.assignee = insn.assignee)
    (hforced : changed.forcedInames = k.insnInames insn) :
    k.insnInames changed = k.insnInames insn := by
  apply NameSet.ext
  intro n
  rw [Kernel.insnInames, hforced, hassignee, NameSet.mem_union, NameSet.mem_select,
    NameSet.mem_union]
  refine or_iff_left_of_imp ?_
  rintro ⟨hn | hn, hdim⟩
  · have hnames := h.names n (Expr.mem_dependenciesOfAll_singleton.mpr hn)
    rw [Expr.mem_surfaceNamesOfAll_singleton] at hnames
    rcases hnames with hs | hl | ht
    · simp only [Kernel.insnInames, NameSet.mem_union, NameSet.mem_select]
      exact .inr ⟨.inl (Expr.mem_dependencies_of_mem_surfaceNames _ hs), hdim⟩
    · exact hlanes n hl
    · exact (h.sound.fresh n ht (Kernel.mem_names_of_hasDim hdim)).elim
  · simp only [Kernel.insnInames, NameSet.mem_union, NameSet.mem_select]
    exact .inr ⟨.inr hn, hdim⟩

end Owner

/-! ## Kernels -/

/-- Whether a list of instructions does the job of original ones: what it stores in declared names,
in order, is what they store. -/
structure Implements {V : Type} (k : Kernel) (M : Machine V) (r : Realization)
    (original new : List Instruction) (s : Realization) : Prop where
  sound : s.Sound k
  emitted : s.emitted = r.emitted ++ new
  keeps : ∀ n, r.temporaries.contains n = true → s.temporaries.contains n = true
  stores : Realization.HasCells k M s → ∀ base m : Memory V, (∀ n ∈ k.names, m n = base n) →
    (k.storesOf M m new).filter (fun store => k.names.contains store.name) =
      k.storesOf M.shared base original

namespace Implements

variable {V : Type} {k : Kernel} {M : Machine V} {env : String → Int}
  {r s t : Realization} {new more : List Instruction} {insns : List Instruction}
  {insn : Instruction}

/-- One more instruction in front. -/
theorem cons (h : Implements k M r [insn] new s) (h' : Implements k M s insns more t) :
    Implements k M r (insn :: insns) (new ++ more) t where
  sound := h'.sound
  emitted := by rw [h'.emitted, h.emitted, List.append_assoc]
  keeps n hn := h'.keeps n (h.keeps n hn)
  stores hM base m hm := by
    have hfirst := h.stores (hM.of_append h.sound h'.emitted h'.keeps) base m hm
    have hmemory : ∀ n ∈ k.names, m.writeAll (k.storesOf M m new) n =
        base.writeAll (k.storesOf M.shared base [insn]) n := by
      rw [← hfirst]
      exact Memory.writeAll_eq_of_filter hm _
    rw [Kernel.storesOf_append, List.filter_append, hfirst, h'.stores hM _ _ hmemory,
      ← Kernel.storesOf_append]
    rfl

/-- The instructions that an instruction becomes do its job. -/
theorem exists_of_realizeOwner (hA : M.arithmetic.Reorders)
    (hpoints : Projects k.domain env M.points) (hr : r.Sound k) (hdeclared : insn.Declared k)
    (hrealizable : k.Realizable env (k.insnInames insn) (k.laneNames insn) (k.insnInames insn)
      insn.expression)
    (h : k.realizeOwner r insn = .ok s) : ∃ new, Implements k M r [insn] new s := by
  obtain ⟨lanes, expression, t, hlanes, hmap, rfl⟩ := Kernel.exists_lanes_of_realizeOwner h
  generalize howner : (⟨insn.id, insn.deps, k.insnInames insn, lanes⟩ : ReductionOwner) = owner
    at hmap
  have hinames : owner.inames = k.insnInames insn := howner ▸ rfl
  have hlaneNames : owner.laneNames = k.laneNames insn := howner ▸ Kernel.map_fst_lanesOf hlanes
  have hown : ∀ n ∈ owner.inames, n ∈ k.names :=
    hinames ▸ fun n hn => Kernel.mem_names_of_mem_insnInames hdeclared hn
  have hlanes : ∀ n ∈ owner.laneNames, n ∈ k.insnInames insn := by
    intro n hn
    rw [hlaneNames, Kernel.laneNames, List.mem_filter, NameSet.mem_toList] at hn
    exact hn.1
  have hr' : Realization.Sound k { r with updates := ∅ } := ⟨hr.fresh, hr.targets, hr.covered⟩
  obtain ⟨new, hrealized⟩ := Realized.exists_of_mapReductionsM (hinames ▸ hlanes) hown hA hpoints
    hr' insn.expression
  rw [hmap] at hrealized
  generalize hchanged : ({ insn with
    expression := expression
    deps := insn.deps.addAll t.updates.values
    forcedInames := k.insnInames insn } : Instruction) = changed
  have hassignee : changed.assignee = insn.assignee := hchanged ▸ rfl
  have hexpression : changed.expression = expression := hchanged ▸ rfl
  have htarget : changed.target = insn.target := by
    rw [Instruction.target, Instruction.target, hassignee]
  have hemitted : ((Realization.emit changed).run t).2.emitted = t.emitted ++ [changed] := rfl
  refine ⟨new ++ [changed], hrealized.sound.of_append rfl hemitted (htarget ▸ hdeclared.target),
    ?_, hrealized.keeps, fun hM base m hm => ?_⟩
  · rw [hemitted, hrealized.emitted, List.append_assoc]
  · have hM' : Realization.HasCells k M t :=
      hM.of_append hrealized.sound hemitted fun n hn => hn
    have hafter : ∀ n ∈ k.names, m.writeAll (k.storesOf M m new) n = base n :=
      fun n hn => (hrealized.writeAll_of_mem m (.inl hn)).trans (hm n hn)
    rw [← hexpression] at hrealized
    have hvalues := hrealized.values base m hm hM' (k.insnInames insn) (k.insnInames insn)
    rw [hinames, hlaneNames] at hvalues
    have hstores := storesFrom_realized hpoints hdeclared hassignee hM' hafter
      hrealized.sound.fresh (hvalues (surrounds_insnInames hdeclared) ⟨hrealizable, trivial⟩)
      (fun p hp => hp) base _ hafter fun _ _ => rfl
    -- Of all these stores, the ones to declared variables are those of the last instruction.
    rw [Kernel.storesOf_append, List.filter_append, hrealized.filter_storesOf, List.nil_append,
      Kernel.storesOf, Kernel.storesOf, Kernel.storesOf, Kernel.storesOf, List.append_nil,
      List.append_nil, insnInames_realized hlanes hrealized hassignee (hchanged ▸ rfl),
      List.filter_eq_self.mpr]
    · exact hstores
    · intro store hstore
      rw [Instruction.name_of_mem_storesFrom hstore, htarget, NameSet.contains_iff]
      exact hdeclared.target

/-- The instructions that several instructions become do their job. -/
theorem exists_of_foldlM (hA : M.arithmetic.Reorders) (hpoints : Projects k.domain env M.points)
    (hr : r.Sound k) (hdeclared : ∀ insn ∈ insns, insn.Declared k)
    (hrealizable : ∀ insn ∈ insns, k.Realizable env (k.insnInames insn) (k.laneNames insn)
      (k.insnInames insn) insn.expression)
    (h : insns.foldlM k.realizeOwner r = .ok s) : ∃ new, Implements k M r insns new s := by
  induction insns generalizing r with
  | nil =>
    rw [List.foldlM_nil, Attempt.pure_eq_ok] at h
    subst h
    exact ⟨[], hr, by simp, fun _ hn => hn, fun _ _ _ _ => rfl⟩
  | cons insn rest ih =>
    rw [List.foldlM_cons, Attempt.bind_eq_ok] at h
    obtain ⟨t, ht, h⟩ := h
    obtain ⟨new, hnew⟩ := exists_of_realizeOwner hA hpoints hr (hdeclared insn List.mem_cons_self)
      (hrealizable insn List.mem_cons_self) ht
    obtain ⟨more, hmore⟩ := ih hnew.sound (fun other ho => hdeclared other (.tail _ ho))
      (fun other ho => hrealizable other (.tail _ ho)) h
    exact ⟨new ++ more, hnew.cons hmore⟩

end Implements

namespace Kernel

/-- The loop indices that the variables of a realized kernel are private to: an accumulator, which
the original kernel does not have, to those of the instruction that assigns to it first. -/
def accumulatorCells (k k' : Kernel) (name : String) : NameSet :=
  if k'.temporaries.contains name && !k.temporaries.contains name then
    Realization.cellsIn k' k'.instructions name
  else ∅

/-- Runs depend on the domain of a kernel alone. -/
theorem storesOf_congr {V : Type} {k k' : Kernel} (h : k'.domain = k.domain) (M : Machine V)
    (m : Memory V) (insns : List Instruction) : k'.storesOf M m insns = k.storesOf M m insns := by
  induction insns generalizing m with
  | nil => rfl
  | cons insn rest ih =>
    have hinames : k'.insnInames insn = k.insnInames insn := by rw [insnInames, insnInames, h]
    rw [storesOf, storesOf, ih, hinames]

/-- A realized kernel has the instructions that were emitted, and the accumulators as temporaries.
-/
theorem realizeReduction_spec {k k' : Kernel} (h : k.realizeReduction = .ok k') :
    ∃ r, k.instructions.foldlM k.realizeOwner ⟨∅, [], [], ∅⟩ = .ok r ∧ k'.domain = k.domain ∧
      k'.instructions = r.emitted ∧ ∀ n, k'.temporaries.contains n = true ↔
        r.temporaries.contains n = true ∨ k.temporaries.contains n = true := by
  obtain ⟨r, hr, rfl, -⟩ := exists_of_realizeReduction h
  refine ⟨r, hr, rfl, rfl, fun n => ?_⟩
  rw [SortedMap.contains_foldl_insert]
  exact or_congr_left SortedMap.mem_keys

/-- The accumulators of a realized kernel have their cells, and declared variables are shared. -/
theorem hasCells_accumulatorCells {V : Type} {k k' : Kernel} {A : Arithmetic V}
    {points : NameSet → List Point} {r : Realization} (hr : r.Sound k)
    (hdomain : k'.domain = k.domain) (hemitted : k'.instructions = r.emitted)
    (htemporaries : ∀ n, k'.temporaries.contains n = true ↔
      r.temporaries.contains n = true ∨ k.temporaries.contains n = true) :
    Realization.HasCells k ⟨A, points, k.accumulatorCells k'⟩ r := by
  have hinames : k'.insnInames = k.insnInames := by
    funext insn
    rw [insnInames, insnInames, hdomain]
  refine ⟨fun n hn => ?_, fun n hn => ?_⟩
  · change k.accumulatorCells k' n = ∅
    rw [accumulatorCells, if_neg]
    rw [Bool.and_eq_true, Bool.not_eq_true', htemporaries]
    rintro ⟨hn' | hn', hnot⟩
    · exact hr.fresh n hn' hn
    · rw [hnot] at hn'
      cases hn'
  · have hdeclared : k.temporaries.contains n = false := by
      refine Bool.eq_false_iff.mpr fun hn' => hr.fresh n hn ?_
      simp [names, SortedMap.mem_keys, hn']
    change k.accumulatorCells k' n = _
    rw [accumulatorCells, if_pos, Realization.cellsIn, Realization.cellsIn, hemitted, hinames]
    rw [Bool.and_eq_true, Bool.not_eq_true', htemporaries]
    exact ⟨.inl hn, hdeclared⟩

/-- A kernel whose reductions are realized stores in all its declared variables what the original
kernel stores in them, if values may be accumulated in any order and the accumulators of all
reductions can hold their values. -/
theorem filter_stores_of_reorders {V : Type} {A : Arithmetic V} {k k' : Kernel}
    {env : String → Int} {points : NameSet → List Point} (hA : A.Reorders)
    (hpoints : Projects k.domain env points)
    (hdeclared : ∀ insn ∈ k.instructions, insn.Declared k)
    (hrealizable : ∀ insn ∈ k.instructions, k.Realizable env (k.insnInames insn) (k.laneNames insn)
      (k.insnInames insn) insn.expression)
    (h : k.realizeReduction = .ok k') (m : Memory V) :
    (k'.stores ⟨A, points, k.accumulatorCells k'⟩ m).filter
        (fun store => k.names.contains store.name) = k.stores ⟨A, points, fun _ => ∅⟩ m := by
  obtain ⟨r, hr, hdomain, hemitted, htemporaries⟩ := realizeReduction_spec h
  have hstart : Realization.Sound k ⟨∅, [], [], ∅⟩ := by
    refine ⟨fun n hn => ?_, fun insn hinsn => ?_, fun n hn => ?_⟩
    · cases hn
    · cases hinsn
    · cases hn
  obtain ⟨new, hnew⟩ := Implements.exists_of_foldlM (M := ⟨A, points, k.accumulatorCells k'⟩) hA
    hpoints hstart hdeclared hrealizable hr
  rw [Kernel.stores, storesOf_congr hdomain, hemitted, hnew.emitted, List.nil_append]
  exact hnew.stores (hasCells_accumulatorCells hnew.sound hdomain hemitted htemporaries) m m
    fun _ _ => rfl

/-- Over exact integers, a kernel whose reductions are realized stores in all its declared variables
what the original kernel stores in them, in the same order: the same values at every point of every
instruction. In the original kernel a reduction reads the memory that its instruction starts with;
this matters only if it reads the variable that the instruction assigns to. That the accumulators
of all reductions can hold their values is sufficient for this, and need not be necessary. -/
theorem filter_stores_realizeReduction {k k' : Kernel} {env : String → Int}
    {points : NameSet → List Point} (float : Binary64 → Int) (infinity : Int)
    (binary : BinaryOp → Int → Int → Int) (call : String → List Int → Int)
    (hpoints : Projects k.domain env points)
    (hdeclared : ∀ insn ∈ k.instructions, insn.Declared k)
    (hrealizable : ∀ insn ∈ k.instructions, k.Realizable env (k.insnInames insn) (k.laneNames insn)
      (k.insnInames insn) insn.expression)
    (h : k.realizeReduction = .ok k') (m : Memory Int) :
    (k'.stores ⟨.integers float infinity binary call, points, k.accumulatorCells k'⟩ m).filter
        (fun store => k.names.contains store.name) =
      k.stores ⟨.integers float infinity binary call, points, fun _ => ∅⟩ m :=
  filter_stores_of_reorders (Arithmetic.integers_reorders float infinity binary call) hpoints
    hdeclared hrealizable h m

/-- The sum of the lower triangle of a matrix, by rows. -/
def triangleSum : Kernel where
  name := "triangle"
  domain := ⟨["i", "j"], [
    ⟨.inequality, ⟨.ofList [("i", 1)], 0⟩⟩,
    ⟨.inequality, ⟨.ofList [("i", -1)], 2⟩⟩,
    ⟨.inequality, ⟨.ofList [("j", 1)], 0⟩⟩,
    ⟨.inequality, ⟨.ofList [("i", 1), ("j", -1)], 0⟩⟩]⟩
  instructions := [.assign "total" (.subscript "out" [.int 0])
    (.reduction ⟨.sum, .float32⟩ [⟨"i", 0⟩]
      (.reduction ⟨.sum, .float32⟩ [⟨"j", 0⟩] (.subscript "a" [.var "i", .var "j"])))]
  args := [⟨"a", .float32, .global [.int 3, .int 3]⟩, ⟨"out", .float32, .global [.int 1]⟩]
  temporaries := ∅
  tags := ∅
  device := .fermi
  schedule := none

/-- The row sums are limited by the row, which the inner body mentions, so the sum is realized. -/
theorem filter_stores_realizeReduction_triangleSum :
    ∃ k' points, triangleSum.realizeReduction = .ok k' ∧
      Projects triangleSum.domain (fun _ => 0) points ∧
      (k'.stores ⟨.integers (fun _ => 0) 0 (fun _ a _ => a) (fun _ _ => 0), points,
        triangleSum.accumulatorCells k'⟩ fun _ _ _ => 1).filter
          (fun store => triangleSum.names.contains store.name) =
        triangleSum.stores ⟨.integers (fun _ => 0) 0 (fun _ a _ => a) (fun _ _ => 0), points,
          fun _ => ∅⟩ fun _ _ _ => 1 := by
  obtain ⟨k', hk'⟩ := Attempt.exists_eq_ok (x := triangleSum.realizeReduction) (by decide +kernel)
  obtain ⟨listed, hlisted⟩ := Attempt.exists_eq_ok
    (x := triangleSum.domain.enumeratePoints fun _ => none) (by decide +kernel)
  have hpoints : Projects triangleSum.domain (fun _ => 0) (Projects.project listed fun _ => 0) :=
    Projects.of_enumeratePoints (by decide) (by decide +kernel) (fun _ _ _ h => by cases h) hlisted
  have hrealizable : ∀ insn ∈ triangleSum.instructions,
      triangleSum.Realizable (fun _ => 0) (triangleSum.insnInames insn) (triangleSum.laneNames insn)
        (triangleSum.insnInames insn) insn.expression := by
    intro insn hinsn
    rw [List.mem_singleton.mp hinsn]
    refine ⟨⟨by decide +kernel, by decide +kernel, by decide +kernel, by decide +kernel,
      independent_of_mentions (by decide +kernel)⟩, ?_⟩
    exact ⟨⟨by decide +kernel, by decide +kernel, by decide +kernel, by decide +kernel,
      independent_of_mentions (by decide +kernel)⟩, trivial, trivial, trivial⟩
  exact ⟨k', _, hk', hpoints, filter_stores_realizeReduction _ _ _ _ hpoints (by decide +kernel)
    hrealizable hk' _⟩

/-- The same holds where a reduction is taken at each point over the memory of that point, with what
the instruction has stored before, if no reduction reads the variable that its instruction assigns
to. -/
theorem filter_storesInTurn_realizeReduction {V : Type} {A : Arithmetic V} {k k' : Kernel}
    {env : String → Int} {points : NameSet → List Point} (hA : A.Reorders)
    (hpoints : Projects k.domain env points)
    (hdeclared : ∀ insn ∈ k.instructions, insn.Declared k)
    (hrealizable : ∀ insn ∈ k.instructions, k.Realizable env (k.insnInames insn) (k.laneNames insn)
      (k.insnInames insn) insn.expression)
    (hothers : ∀ insn ∈ k.instructions, insn.ReducesOthers) (h : k.realizeReduction = .ok k')
    (m : Memory V) :
    (k'.storesInTurn ⟨A, points, k.accumulatorCells k'⟩ m).filter
        (fun store => k.names.contains store.name) =
      k.storesInTurn ⟨A, points, fun _ => ∅⟩ m := by
  have hreduced : ∀ insn ∈ k'.instructions, insn.ReducesOthers := fun insn hinsn =>
    Instruction.reducesOthers_of_containsReduction (isReduced_of_realizeReduction h insn hinsn).1
      (isReduced_of_realizeReduction h insn hinsn).2
  rw [storesInTurn, storesInTurn, ← storesOf_eq_storesInTurnOf hreduced,
    ← storesOf_eq_storesInTurnOf hothers]
  exact filter_stores_of_reorders hA hpoints hdeclared hrealizable h m

end Kernel

end LoopKernel
