import LoopKernel.Proofs.Execution.Accumulation
import LoopKernel.Proofs.Execution.Projection
import LoopKernel.Proofs.Reduction.Separation

/-!
# The value of an accumulator

Once the two instructions of an accumulator have run, each of its cells holds the fold of the
reduction over the points that extend the cell.
-/

namespace LoopKernel

variable {V : Type} {A : Arithmetic V} {points : NameSet → List Point} {past now : Reader V}

/-! ## Elements -/

namespace ReductionOwner

variable {owner : ReductionOwner} {a : String} {p : Point}

/-- The names of the lanes. -/
def laneNames (owner : ReductionOwner) : List String := owner.lanes.map Prod.fst

/-- The index of the element of the lane that a point is in. -/
def laneIndex (A : Arithmetic V) (owner : ReductionOwner) (p : Point) : List V :=
  owner.laneNames.map fun lane => A.int (p.getD lane 0)

/-- The indices of lanes mention the names of the lanes. -/
theorem mem_dependenciesOfAll_lanes {lanes : List (String × Int)} {n : String} :
    n ∈ Expr.dependenciesOfAll (lanes.map fun lane => .var lane.1) ↔ n ∈ lanes.map Prod.fst := by
  induction lanes with
  | nil => simp [Expr.dependenciesOfAll]
  | cons lane rest ih =>
    rw [List.map_cons, Expr.dependenciesOfAll, NameSet.mem_union, ih]
    simp [Expr.dependencies]

theorem mem_dependencies_element {n : String} :
    n ∈ (owner.element a).dependencies ↔ n = a ∨ n ∈ owner.laneNames := by
  unfold element laneNames
  cases h : owner.lanes with
  | nil => simp [Expr.dependencies]
  | cons lane rest =>
    simp only [Expr.dependencies, NameSet.mem_add]
    rw [mem_dependenciesOfAll_lanes]

/-- The index of an element mentions the names of the lanes. -/
theorem mem_laneNames_of_element {v n : String} {index : List Expr}
    (h : owner.element a = .subscript v index) (hn : n ∈ Expr.dependenciesOfAll index) :
    n ∈ owner.laneNames := by
  unfold element at h
  split at h
  · cases h
  · cases h
    exact mem_dependenciesOfAll_lanes.mp hn

private theorem meaningAll_lanes {lanes : List (String × Int)}
    (h : ∀ n ∈ lanes.map Prod.fst, n ∈ p.names) :
    Expr.meaningAll A points past now p (lanes.map fun lane => .var lane.1) =
      (lanes.map Prod.fst).map fun lane => A.int (p.getD lane 0) := by
  induction lanes with
  | nil => simp [Expr.meaningAll]
  | cons lane rest ih =>
    obtain ⟨n, hn⟩ := Point.mem_names.mp (h lane.1 (by simp))
    simp only [List.map_cons, Expr.meaningAll, Expr.meaning]
    rw [ih fun n hn => h n (List.mem_cons_of_mem _ hn), Expr.readName, if_neg (by simp [hn]),
      Expr.readAt, hn, SortedMap.getD, hn]
    rfl

/-- An element holds what its lane has in the accumulator. -/
theorem meaning_element (hlanes : ∀ n ∈ owner.laneNames, n ∈ p.names) (ha : a ∉ p.names)
    (hinfinity : a ≠ "INFINITY") :
    (owner.element a).meaning A points past now p = now p a (owner.laneIndex A p) := by
  have hread : ∀ index, Expr.readAt A now p a index = now p a index := by
    intro index
    rw [Expr.readAt, Point.not_mem_names.mp ha]
  unfold element laneIndex
  unfold laneNames at hlanes ⊢
  cases h : owner.lanes with
  | nil =>
    simp only [Expr.meaning, Expr.readName]
    rw [if_neg (by simp [hinfinity]), hread]
    rfl
  | cons lane rest =>
    rw [h] at hlanes
    simp only [Expr.meaning]
    rw [meaningAll_lanes hlanes, hread]

/-- An instruction that assigns to an element assigns to the accumulator. -/
theorem target_of_element {insn : Instruction} (h : insn.assignee = owner.element a) :
    insn.target = a := by
  unfold Instruction.target
  rw [h, element]
  cases owner.lanes <;> rfl

/-- An instruction that assigns to an element does so at the index of the lane. -/
theorem meaningAll_targetIndex {insn : Instruction} (h : insn.assignee = owner.element a)
    (hlanes : ∀ n ∈ owner.laneNames, n ∈ p.names) :
    Expr.meaningAll A points past now p insn.targetIndex = owner.laneIndex A p := by
  unfold Instruction.targetIndex laneIndex
  unfold laneNames at hlanes ⊢
  rw [h, element]
  cases hcons : owner.lanes with
  | nil => simp [Expr.meaningAll]
  | cons lane rest =>
    rw [hcons] at hlanes
    exact meaningAll_lanes hlanes

/-- The index depends on the lanes alone. -/
theorem laneIndex_congr {q : Point} (h : ∀ n ∈ owner.laneNames, p.get? n = q.get? n) :
    owner.laneIndex A p = owner.laneIndex A q := by
  apply List.map_congr_left
  intro n hn
  rw [SortedMap.getD, SortedMap.getD, h n hn]

end ReductionOwner

/-! ## Operations -/

namespace ReductionOp

variable {op : ReductionOp} {p : Point}

/-- The neutral element has the value that a reduction starts with. -/
theorem meaning_neutral (h : ∀ n ∈ op.neutral.dependencies, n ∉ p.names) :
    op.neutral.meaning A points past now p = A.neutral op := by
  have hname : "INFINITY" ∉ p.names → Expr.readName A now p "INFINITY" = A.infinity := by
    intro hn
    rw [Expr.readName, if_pos ⟨Point.not_mem_names.mp hn, rfl⟩]
  obtain ⟨kind, dtype⟩ := op
  cases kind with
  | sum => simp [neutral, Arithmetic.neutral, Expr.meaning]
  | product => simp [neutral, Arithmetic.neutral, Expr.meaning]
  | max =>
    cases hfloat : dtype.isFloat with
    | false => simp [neutral, Arithmetic.neutral, hfloat, Expr.meaning]
    | true =>
      have hfree := h "INFINITY"
        (by simp [neutral, hfloat, Expr.dependencies, Expr.dependenciesOfAll])
      simp [neutral, Arithmetic.neutral, hfloat, Expr.meaning, Expr.meaningAll, hname hfree]
  | min =>
    cases hfloat : dtype.isFloat with
    | false => simp [neutral, Arithmetic.neutral, hfloat, Expr.meaning]
    | true =>
      have hfree := h "INFINITY" (by simp [neutral, hfloat, Expr.dependencies])
      simp [neutral, Arithmetic.neutral, hfloat, Expr.meaning, hname hfree]

/-- The operation as an expression combines the values of its operands. -/
theorem meaning_apply (e f : Expr) : (op.apply e f).meaning A points past now p =
    A.combine op.kind (e.meaning A points past now p) (f.meaning A points past now p) := by
  unfold apply Arithmetic.combine
  cases op.kind <;> simp [Expr.meaning, Expr.meaningAll]

/-- The operation mentions what its operands mention. -/
theorem mem_dependencies_apply (e f : Expr) {n : String} :
    n ∈ (op.apply e f).dependencies ↔ n ∈ e.dependencies ∨ n ∈ f.dependencies := by
  unfold apply
  cases op.kind <;> simp [Expr.dependencies, Expr.dependenciesOfAll]

end ReductionOp

/-! ## Instructions -/

namespace Realization

section Inames

variable {k : Kernel} {owner : ReductionOwner} {bound : NameSet} {body body' : Expr} {a : String}

/-- The indices around, as far as they are not bound, are those of the cells. -/
theorem outerInames_diff (hsurface : ∀ n ∈ body.surfaceNames, n ∈ body'.dependencies)
    (hnames : ∀ n ∈ body'.dependencies, k.domain.hasDim n = true →
      n ∈ body.surfaceNames ∨ n ∈ owner.inames) :
    (outerInames k owner bound body').diff bound = k.cellInames owner.inames bound body := by
  apply NameSet.ext
  intro n
  simp only [outerInames, Kernel.cellInames, NameSet.mem_diff, NameSet.mem_union,
    NameSet.mem_select, Bool.and_eq_true, Bool.not_eq_true', NameSet.contains_eq_false]
  refine and_congr_left fun hb => ?_
  constructor
  · rintro (hn | ⟨hn, hdim, -⟩)
    · exact .inl hn
    · exact (hnames n hn hdim).symm.imp_right fun h => ⟨h, hdim⟩
  · rintro (hn | ⟨hn, hdim⟩)
    · exact .inl hn
    · exact .inr ⟨hsurface n hn, hdim, hb⟩

/-- The indices around and the bound ones. -/
theorem outerInames_union : (outerInames k owner bound body').union bound =
    ((outerInames k owner bound body').diff bound).union bound := by
  apply NameSet.ext
  intro n
  simp only [NameSet.mem_union, NameSet.mem_diff]
  by_cases hb : n ∈ bound <;> simp [hb]

variable (hlanes : ∀ n ∈ owner.laneNames, n ∈ owner.inames) (ha : k.domain.hasDim a = false)

include hlanes ha

/-- The first instruction runs under the indices around, without the bound ones. -/
theorem insnInames_initInsn (id : String) (op : ReductionOp) (body' : Expr)
    (hbound : ∀ n ∈ owner.laneNames, n ∉ bound)
    (hneutral : ∀ n ∈ op.neutral.dependencies, k.domain.hasDim n = false) :
    k.insnInames (initInsn id (owner.element a) op (outerInames k owner bound body') bound) =
      (outerInames k owner bound body').diff bound := by
  apply NameSet.ext
  intro n
  simp only [Kernel.insnInames, initInsn, Instruction.assign, NameSet.mem_union,
    NameSet.mem_select, ReductionOwner.mem_dependencies_element]
  refine or_iff_left_of_imp ?_
  rintro ⟨hn | rfl | hn, hdim⟩
  · rw [hneutral n hn] at hdim
    cases hdim
  · rw [ha] at hdim
    cases hdim
  · rw [NameSet.mem_diff, outerInames, NameSet.mem_union]
    exact ⟨.inl (hlanes n hn), hbound n hn⟩

/-- The second instruction runs under the indices around and the bound ones. -/
theorem insnInames_updateInsn (id : String) (deps : NameSet) (op : ReductionOp) (bound : NameSet)
    (body' : Expr) :
    k.insnInames (updateInsn id deps (owner.element a) op body' (outerInames k owner bound body')
      bound) = (outerInames k owner bound body').union bound := by
  apply NameSet.ext
  intro n
  have helement : n ∈ (owner.element a).dependencies → k.domain.hasDim n = true →
      n ∈ owner.inames := by
    rw [ReductionOwner.mem_dependencies_element]
    rintro (rfl | hn) hdim
    · rw [ha] at hdim
      cases hdim
    · exact hlanes n hn
  simp only [Kernel.insnInames, updateInsn, Instruction.assign, NameSet.mem_union,
    NameSet.mem_select, ReductionOp.mem_dependencies_apply, outerInames, Bool.and_eq_true,
    Bool.not_eq_true', NameSet.contains_eq_false]
  refine or_iff_left_of_imp ?_
  rintro ⟨(hn | hn) | hn, hdim⟩
  · exact .inl (.inl (helement hn hdim))
  · by_cases hb : n ∈ bound
    · exact .inr hb
    · exact .inl (.inr ⟨hn, hdim, hb⟩)
  · exact .inl (.inl (helement hn hdim))

end Inames

end Realization

/-! ## Values -/

/-- Two instructions that accumulate a reduction into cells for the valuations of some indices. -/
structure Accumulates (k : Kernel) (M : Machine V) (owner : ReductionOwner) (op : ReductionOp)
    (cells bound : NameSet) (body : Expr) (a : String) (init update : Instruction) : Prop where
  lanes : ∀ n ∈ owner.laneNames, n ∈ cells
  fresh : a ∉ cells.union bound
  notInfinity : a ≠ "INFINITY"
  neutral : ∀ n ∈ op.neutral.dependencies, n ∉ cells
  privateTo : M.privateTo a = cells
  initAssignee : init.assignee = owner.element a
  initExpression : init.expression = op.neutral
  initInames : k.insnInames init = cells
  updateAssignee : update.assignee = owner.element a
  updateExpression : update.expression = op.apply (owner.element a) body
  updateInames : k.insnInames update = cells.union bound

namespace Accumulates

variable {k : Kernel} {M : Machine V} {env : String → Int} {owner : ReductionOwner}
  {op : ReductionOp} {cells bound : NameSet} {body : Expr} {a : String} {init update : Instruction}
  {m start memory : Memory V} {q : Point}

/-- The first instruction stores the neutral element. -/
theorem storeAt_init (h : Accumulates k M owner op cells bound body a init update)
    (hq : q.names = cells) : init.storeAt M start memory q =
      ⟨a, owner.laneIndex M.arithmetic q, q.restrict cells, M.arithmetic.neutral op⟩ := by
  unfold Instruction.storeAt
  rw [ReductionOwner.target_of_element h.initAssignee,
    ReductionOwner.meaningAll_targetIndex h.initAssignee (hq ▸ h.lanes), h.initExpression,
    ReductionOp.meaning_neutral (hq ▸ h.neutral), h.privateTo]

/-- The second instruction combines what the cell holds with the value of the body. -/
theorem storeAt_update (h : Accumulates k M owner op cells bound body a init update)
    (hq : q.names = cells.union bound) : update.storeAt M start memory q =
      ⟨a, owner.laneIndex M.arithmetic q, q.restrict cells,
        M.arithmetic.combine op.kind
          (memory a (owner.laneIndex M.arithmetic q) (q.restrict cells))
          (body.meaning M.arithmetic M.points (start.reader M.privateTo)
            (memory.reader M.privateTo) q)⟩ := by
  have hlanes : ∀ n ∈ owner.laneNames, n ∈ q.names := by
    intro n hn
    rw [hq, NameSet.mem_union]
    exact .inl (h.lanes n hn)
  unfold Instruction.storeAt
  rw [ReductionOwner.target_of_element h.updateAssignee,
    ReductionOwner.meaningAll_targetIndex h.updateAssignee hlanes, h.updateExpression,
    ReductionOp.meaning_apply, ReductionOwner.meaning_element hlanes (hq ▸ h.fresh) h.notInfinity,
    h.privateTo, Memory.reader, h.privateTo]

/-- After the first instruction, every cell holds the neutral element. -/
theorem writeAll_init (h : Accumulates k M owner op cells bound body a init update)
    (hpoints : Projects k.domain env M.points) {x : String → Int}
    (hx : x ∈ k.domain.pointsAt env) :
    m.writeAll (init.stores M cells m) a
        (owner.laneIndex M.arithmetic (Point.ofNames x cells)) (Point.ofNames x cells) =
      M.arithmetic.neutral op := by
  have hmem : Point.ofNames x cells ∈ M.points cells := (hpoints.mem cells _).mpr ⟨x, hx, rfl⟩
  have hconst := Instruction.writeAll_storesFrom_const m (m := m) (owner.laneIndex M.arithmetic)
    (fun q => q.restrict cells) (M.arithmetic.neutral op)
    (fun now _ q hq => h.storeAt_init (hpoints.names_of_mem hq)) hmem
  rwa [Point.restrict_ofNames fun _ hn => hn] at hconst

/-- After both instructions, a cell holds the fold over the points that extend it. -/
theorem writeAll_stores (h : Accumulates k M owner op cells bound body a init update)
    (hpoints : Projects k.domain env M.points) (value : Point → V)
    (hvalue : ∀ (past : Reader V) (now : Memory V), (∀ n, n ≠ a → now n = m n) →
      ∀ q ∈ M.points (cells.union bound),
        body.meaning M.arithmetic M.points past (now.reader M.privateTo) q = value q)
    {x : String → Int} (hx : x ∈ k.domain.pointsAt env) :
    m.writeAll (k.storesOf M m [init, update]) a
        (owner.laneIndex M.arithmetic (Point.ofNames x cells)) (Point.ofNames x cells) =
      ((M.points (cells.union bound)).filter fun q =>
        q.restrict cells = Point.ofNames x cells).foldl
          (fun t q => M.arithmetic.combine op.kind t (value q)) (M.arithmetic.neutral op) := by
  have htarget := ReductionOwner.target_of_element h.initAssignee
  have hoff : ∀ n, n ≠ a → m.writeAll (init.stores M cells m) n = m n := by
    intro n hn
    apply m.writeAll_other_name
    intro s hs
    rw [Instruction.name_of_mem_storesFrom hs, htarget]
    exact hn.symm
  have hfold := Instruction.writeAll_storesFrom_accumulates (m.writeAll (init.stores M cells m))
    (M := M) (m := m.writeAll (init.stores M cells m)) (owner.laneIndex M.arithmetic)
    (fun q => q.restrict cells) (M.arithmetic.combine op.kind) value
    (fun now hnow q hq => by
      rw [h.storeAt_update (hpoints.names_of_mem hq),
        hvalue _ now (fun n hn => (hnow n hn).trans (hoff n hn)) q hq])
    (owner.laneIndex M.arithmetic (Point.ofNames x cells)) (Point.ofNames x cells)
  have hlast : k.storesOf M m [init, update] = init.stores M cells m ++
      update.stores M (cells.union bound) (m.writeAll (init.stores M cells m)) := by
    rw [Kernel.storesOf, Kernel.storesOf, Kernel.storesOf, h.initInames, h.updateInames,
      List.append_nil]
  rw [hlast, Memory.writeAll_append]
  refine hfold.trans ?_
  rw [h.writeAll_init hpoints hx]
  congr 1
  apply List.filter_congr
  intro q _
  rw [decide_eq_decide]
  refine and_iff_right_of_imp fun hq => ?_
  -- The lanes are among the indices of the cells.
  apply ReductionOwner.laneIndex_congr
  intro n hn
  rw [← hq, Point.get?_restrict, if_pos (h.lanes n hn)]

/-- Where all indices of the cells have values, the element holds what is in the cell. -/
theorem meaning_element (h : Accumulates k M owner op cells bound body a init update)
    {here : NameSet} (hcells : ∀ n ∈ cells, n ∈ here) (ha : a ∉ here) (past : Reader V)
    (x : String → Int) : (owner.element a).meaning M.arithmetic M.points past
        (memory.reader M.privateTo) (Point.ofNames x here) =
      memory a (owner.laneIndex M.arithmetic (Point.ofNames x cells)) (Point.ofNames x cells) := by
  have hlanes : ∀ n ∈ owner.laneNames, n ∈ (Point.ofNames x here).names := by
    intro n hn
    rw [Point.names_ofNames]
    exact hcells n (h.lanes n hn)
  have hindex : owner.laneIndex M.arithmetic (Point.ofNames x here) =
      owner.laneIndex M.arithmetic (Point.ofNames x cells) := by
    apply ReductionOwner.laneIndex_congr
    intro n hn
    rw [Point.get?_ofNames, Point.get?_ofNames, if_pos (h.lanes n hn),
      if_pos (hcells n (h.lanes n hn))]
  rw [ReductionOwner.meaning_element hlanes (Point.names_ofNames ▸ ha) h.notInfinity,
    Memory.reader, h.privateTo, Point.restrict_ofNames hcells, hindex]

end Accumulates

/-- A fold over the points that extend a point is one over those that extend its cell. -/
theorem foldl_extensions {s : Polyhedron} {env : String → Int} (hA : A.Reorders)
    (hpoints : Projects s env points) {around bound cells : NameSet} {x : String → Int}
    (hcells : ∀ n ∈ cells, n ∈ around ∧ n ∉ bound)
    (hindependent : ∀ z ∈ s.pointsAt env, (∀ n ∈ cells, z n = x n) →
      ∃ y ∈ s.pointsAt env, (∀ n ∈ around, n ∉ bound → y n = x n) ∧ ∀ n ∈ bound, y n = z n)
    (kind : ReductionKind) (start : V) {wide narrow : Point → V}
    (hvalue : ∀ y ∈ s.pointsAt env, wide (Point.ofNames y (around.union bound)) =
      narrow (Point.ofNames y (cells.union bound))) :
    (Expr.extensions points (Point.ofNames x around) bound).foldl
        (fun t q => A.combine kind t (wide q)) start =
      ((points (cells.union bound)).filter fun q => q.restrict cells = Point.ofNames x cells).foldl
        (fun t q => A.combine kind t (narrow q)) start := by
  have hcomm : RightCommutative fun (t : V) (q : Point) => A.combine kind t (narrow q) :=
    ⟨fun t p q => (hA kind).right_comm t (narrow p) (narrow q)⟩
  rw [← (hpoints.perm_extensions hcells hindependent).foldl_eq, List.foldl_map]
  apply List.foldl_ext
  intro t q hq
  obtain ⟨y, hy, -, rfl⟩ := hpoints.mem_extensions.mp hq
  rw [hvalue y hy, Point.restrict_ofNames]
  intro n hn
  rw [NameSet.mem_union] at hn ⊢
  exact hn.imp_left fun hc => (hcells n hc).1

end LoopKernel
