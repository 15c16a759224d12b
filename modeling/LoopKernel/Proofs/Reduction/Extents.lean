import LoopKernel.Proofs.Kernel.Lengths
import LoopKernel.Proofs.Polyhedron.Extent
import LoopKernel.Proofs.Reduction.Dependencies

/-!
# Extents of accumulators

Under instruction-level parallelism an accumulator has an element for each lane. Its extents are the
lengths of the loops, and it is indexed by the loop indices themselves. A length bounds how far the
values of an index spread but says nothing of where they start, so a lane is in bounds if its index
starts at zero, and where the length is the exact spread only then.
-/

namespace LoopKernel

/-! ## Indices into arrays -/

namespace Polyhedron

variable {s : Polyhedron} {name : String} {size : Int}

/-- Whether a variable is at all points an index into an array of a size. -/
def Indexes (s : Polyhedron) (name : String) (size : Int) : Prop :=
  ∀ x : String → Int, s.Holds x → 0 ≤ x name ∧ x name < size

/-- A variable with a static size has a least and a greatest value if there is a point. -/
theorem exists_isLeast_isGreatest (h : s.staticSize name = .ok size) {z : String → Int}
    (hz : s.Holds z) :
    ∃ least greatest, IsLeast (s.values name) least ∧ IsGreatest (s.values name) greatest := by
  have hvalue : ∃ n, n ∈ s.values name := ⟨z name, z, hz, rfl⟩
  obtain ⟨least, hleast, hle⟩ := Int.exists_least_of_bdd (P := (· ∈ s.values name))
    ⟨z name - size, by
      rintro _ ⟨x, hx, rfl⟩
      have := sub_lt_of_staticSize h hz hx
      omega⟩ hvalue
  obtain ⟨greatest, hgreatest, hge⟩ := Int.exists_greatest_of_bdd (P := (· ∈ s.values name))
    ⟨z name + size, by
      rintro _ ⟨x, hx, rfl⟩
      have := sub_lt_of_staticSize h hx hz
      omega⟩ hvalue
  exact ⟨least, greatest, ⟨hleast, hle⟩, hgreatest, hge⟩

/-- A lower bound of a variable that is met is its least value. -/
theorem isLeast_values {least : Int}
    (hbound : ⟨.inequality, ⟨.ofList [(name, 1)], -least⟩⟩ ∈ s.constraints) {z : String → Int}
    (hz : s.Holds z) (hleast : z name = least) : IsLeast (s.values name) least := by
  refine ⟨⟨z, hz, hleast⟩, ?_⟩
  rintro _ ⟨x, hx, rfl⟩
  have hbounded : 0 ≤ -least + (1 * x name + 0) := hx _ hbound
  omega

/-- An array has elements for the values of an index exactly if it has them for the first and the
last one. -/
theorem indexes_iff {least greatest : Int} (hleast : IsLeast (s.values name) least)
    (hgreatest : IsGreatest (s.values name) greatest) :
    s.Indexes name size ↔ 0 ≤ least ∧ greatest < size := by
  constructor
  · intro hall
    obtain ⟨x, hx, hxleast⟩ := hleast.1
    obtain ⟨y, hy, hygreatest⟩ := hgreatest.1
    exact ⟨hxleast ▸ (hall x hx).1, hygreatest ▸ (hall y hy).2⟩
  · rintro ⟨hzero, hsize⟩ x hx
    exact ⟨hzero.trans (hleast.2 ⟨x, hx, rfl⟩), (hgreatest.2 ⟨x, hx, rfl⟩).trans_lt hsize⟩

/-- A static size is the spread of the values and some slack, which is nothing where all constraints
are on differences. A variable is an index into an array of that size exactly if it starts at zero,
or later by no more than the slack. -/
theorem exists_slack (h : s.staticSize name = .ok size) {z : String → Int} (hz : s.Holds z) :
    ∃ least slack, IsLeast (s.values name) least ∧
      IsGreatest (s.values name) (least + size - slack - 1) ∧ 0 ≤ slack ∧
      ((∀ c ∈ s.constraints, c.form.IsDifference) → slack = 0) ∧
      (s.Indexes name size ↔ 0 ≤ least ∧ least ≤ slack) := by
  obtain ⟨least, greatest, hleast, hgreatest⟩ := exists_isLeast_isGreatest h hz
  have hspread : greatest - least < size := by
    obtain ⟨x, hx, rfl⟩ := hgreatest.1
    obtain ⟨y, hy, rfl⟩ := hleast.1
    exact sub_lt_of_staticSize h hx hy
  have hlast : least + size - (size - (greatest - least + 1)) - 1 = greatest := by omega
  refine ⟨least, size - (greatest - least + 1), hleast, hlast.symm ▸ hgreatest, by omega,
    fun hs => ?_, ?_⟩
  · obtain ⟨lo, hi, hle, hvalues, rfl⟩ := values_eq_Icc hs h hz
    rw [hvalues] at hleast hgreatest
    rw [hleast.unique (isLeast_Icc hle), hgreatest.unique (isGreatest_Icc hle)]
    omega
  · rw [indexes_iff hleast hgreatest]
    omega

end Polyhedron

/-! ## Elements of accumulators -/

/-- An accumulator that is subscripted is so by the lanes. -/
theorem ReductionOwner.eq_of_element {owner : ReductionOwner} {name aggregate : String}
    {index : List Expr} (h : owner.element name = .subscript aggregate index) :
    aggregate = name ∧ index = owner.lanes.map fun lane => .var lane.1 := by
  unfold element at h
  split at h
  · cases h
  · rw [Expr.subscript.injEq] at h
    exact ⟨h.1.symm, h.2.symm⟩

namespace Kernel

variable {k k' : Kernel} {groups : List Lowering} {insn : Instruction}
  {access : String × List Expr} {inames : NameSet} {lanes : List (String × Int)}

/-- The lengths of lanes are static sizes in the domain. -/
theorem staticSize_of_lanesOf (h : k.lanesOf inames = .ok lanes) {lane : String × Int}
    (hlane : lane ∈ lanes) : k.domain.staticSize lane.1 = .ok lane.2 := by
  obtain ⟨i, -, hi⟩ := Attempt.exists_of_mem_mapM h hlane
  simp only [Attempt.bind_eq_ok, Attempt.pure_eq_ok] at hi
  obtain ⟨length, hlength, rfl⟩ := hi
  exact staticSize_of_inameLength hlength

/-- Whether a name stands in an instruction outside of its reductions, or in the body of a reduction
outside of those in it. -/
def Spells (k : Kernel) (name : String) : Prop :=
  (∃ insn ∈ k.instructions, name ∈ insn.expression.surfaceNames ∨
    name ∈ insn.assignee.arrayAccesses.map Prod.fst) ∨
  ∃ red ∈ k.reductions, name ∈ red.body.surfaceNames

/-- Every array access of the instructions of lowerings is one of a name that the kernel spells out,
or of an element of an accumulator. -/
theorem LowersTo.spells_or_element (h : k.LowersTo k' groups) (hinsn : insn ∈ k'.instructions)
    (haccess : access ∈ insn.assignee.arrayAccesses ++ insn.expression.arrayAccesses) :
    k.Spells access.1 ∨ ∃ g ∈ groups, ∃ b ∈ g.accumulators,
      (g.owner k).element b.name = .subscript access.1 access.2 := by
  rw [h.instructions, List.mem_flatMap] at hinsn
  obtain ⟨g, hg, hinsn⟩ := hinsn
  have hsound := h.sound g hg
  have helement : ∀ b ∈ g.accumulators, access ∈ ((g.owner k).element b.name).arrayAccesses →
      ∃ g ∈ groups, ∃ b ∈ g.accumulators,
        (g.owner k).element b.name = .subscript access.1 access.2 :=
    fun b hb haccess => ⟨g, hg, b, hb, ReductionOwner.eq_of_mem_arrayAccesses_element haccess⟩
  rw [List.mem_append] at haccess
  rcases List.mem_append.mp hinsn with hnew | hafter
  · obtain ⟨b, hb, hinsn⟩ := List.mem_flatMap.mp hnew
    have hlowered := hsound.lowered b hb
    rcases List.mem_cons.mp hinsn with rfl | hupdate
    · rw [hlowered.initAssignee, hlowered.neutral, ReductionOp.arrayAccesses_neutral] at haccess
      exact .inr (helement b hb (haccess.resolve_right List.not_mem_nil))
    · obtain ⟨value, hvalue, -, hread⟩ := hsound.reads b hb
      rw [List.mem_singleton.mp hupdate, hlowered.updateAssignee, hvalue,
        ReductionOp.arrayAccesses_apply, List.mem_append] at haccess
      rcases haccess with hset | hown | hbody
      · exact .inr (helement b hb hset)
      · exact .inr (helement b hb hown)
      · rcases hread access hbody with hsurface | ⟨c, hc, heq⟩
        · refine .inl (.inr ⟨b.toReduction, ?_, hsurface⟩)
          rw [← h.realizesAs.reductions]
          exact List.mem_map_of_mem (Lowering.mem_accumulatorsOf.mpr ⟨g, hg, hb⟩)
        · exact .inr ⟨g, hg, c, hc, heq⟩
  · rw [List.mem_singleton.mp hafter, hsound.assignee] at haccess
    rcases haccess with hassignee | hexpression
    · exact .inl (.inl ⟨g.before, h.before_mem hg, .inr (List.mem_map_of_mem hassignee)⟩)
    · have hmem : access ∈ Expr.arrayAccessesOfAll [g.after.expression] := by
        simpa [Expr.arrayAccessesOfAll] using hexpression
      rcases hsound.accesses access hmem with hsurface | ⟨c, hc, heq⟩
      · exact .inl (.inl ⟨g.before, h.before_mem hg,
          .inl (Expr.mem_surfaceNamesOfAll_singleton.mp hsurface)⟩)
      · exact .inr ⟨g, hg, c, hc, heq⟩

/-- Whether an accumulator has an extent for each index with instruction-level parallelism of its
owner, the length of the loop, and is subscripted by these indices alone. Only a name that the
kernel spells out, declared nowhere, may happen to be that of the accumulator and have another
subscript. -/
structure LanesIndex (k k' : Kernel) (a : Accumulator) (lanes : List (String × Int)) : Prop where
  measured : k.lanesOf (k.insnInames a.owner) = .ok lanes
  temporary : k'.temporaries.get? a.name =
    some (.ofShape a.name a.op.dtype (lanes.map Prod.snd))
  accesses : ∀ insn ∈ k'.instructions,
    ∀ access ∈ insn.assignee.arrayAccesses ++ insn.expression.arrayAccesses, access.1 = a.name →
      k.Spells a.name ∨ access.2 = lanes.map fun lane => .var lane.1

/-- The accumulators of a lowering are indexed by its lanes. -/
theorem LowersTo.lanesIndex (h : k.LowersTo k' groups) {g : Lowering} (hg : g ∈ groups)
    {a : Accumulator} (ha : a ∈ g.accumulators) : k.LanesIndex k' a g.lanes where
  measured := (h.sound g hg).owners a ha ▸ (h.sound g hg).lanes
  temporary := (h.temporaries a.name _).mpr (.inl ⟨g, hg, a, ha, rfl, rfl⟩)
  accesses insn hinsn access haccess hname := by
    rcases h.spells_or_element hinsn haccess with hspells | ⟨g', hg', b, hb, helement⟩
    · exact .inl (hname ▸ hspells)
    obtain ⟨haggregate, hindex⟩ := ReductionOwner.eq_of_element helement
    -- The name tells the accumulator, which tells the owner, and the owner has its lanes.
    obtain rfl : b = a := h.eq_of_name (Lowering.mem_accumulatorsOf.mpr ⟨g', hg', hb⟩)
      (Lowering.mem_accumulatorsOf.mpr ⟨g, hg, ha⟩) (haggregate ▸ hname)
    have howner : g'.before = g.before :=
      ((h.sound g' hg').owners b hb).symm.trans ((h.sound g hg).owners b ha)
    have hlanes : g'.lanes = g.lanes := by
      have := howner ▸ (h.sound g' hg').lanes
      rw [(h.sound g hg).lanes, Except.ok.injEq] at this
      exact this.symm
    exact .inr (hlanes ▸ hindex)

/-- An accumulator has the lengths of the lanes as extents and the lanes as indices. A lane is in
bounds at all points exactly if its index starts at zero, or later by no more than the slack that
the length has, which is none where all constraints of the domain are bounds of variables or of
differences of two. -/
theorem realizeReduction_lanes_index_iff (h : k.realizeReduction = .ok k') :
    k'.domain = k.domain ∧ ∃ accumulators, k.RealizesAs k' accumulators ∧ ∀ a ∈ accumulators,
      ∃ lanes, k.LanesIndex k' a lanes ∧ ∀ lane ∈ lanes,
        (∃ x : String → Int, k.domain.Holds x) → ∃ least slack,
          IsLeast (k.domain.values lane.1) least ∧
          IsGreatest (k.domain.values lane.1) (least + lane.2 - slack - 1) ∧ 0 ≤ slack ∧
          ((∀ c ∈ k.domain.constraints, c.form.IsDifference) → slack = 0) ∧
          (k.domain.Indexes lane.1 lane.2 ↔ 0 ≤ least ∧ least ≤ slack) := by
  obtain ⟨groups, hgroups⟩ := exists_lowersTo h
  refine ⟨hgroups.domain, _, hgroups.realizesAs, fun a ha => ?_⟩
  obtain ⟨g, hg, ha⟩ := Lowering.mem_accumulatorsOf.mp ha
  have hlanes := hgroups.lanesIndex hg ha
  refine ⟨g.lanes, hlanes, fun lane hlane ⟨z, hz⟩ => ?_⟩
  exact Polyhedron.exists_slack (staticSize_of_lanesOf hlanes.measured hlane) hz

/-- Row sums of a tile with two lanes, the rows of which are counted from zero and the columns from
two. -/
def shiftedTile : Kernel where
  name := "tile"
  domain := ⟨["i", "l", "j"], [
    ⟨.inequality, ⟨.ofList [("i", 1)], 0⟩⟩,
    ⟨.inequality, ⟨.ofList [("i", -1)], 2⟩⟩,
    ⟨.inequality, ⟨.ofList [("l", 1)], -2⟩⟩,
    ⟨.inequality, ⟨.ofList [("l", -1)], 5⟩⟩,
    ⟨.inequality, ⟨.ofList [("j", 1)], 0⟩⟩,
    ⟨.inequality, ⟨.ofList [("j", -1)], 3⟩⟩]⟩
  instructions := [.assign "s" (.subscript "out" [.var "i", .var "l"])
    (.reduction ⟨.sum, .float32⟩ [⟨"j", 0⟩] (.subscript "a" [.var "i", .var "l", .var "j"]))]
  args := [⟨"a", .float32, .global [.int 3, .int 6, .int 4]⟩,
    ⟨"out", .float32, .global [.int 3, .int 6]⟩]
  temporaries := ∅
  tags := .ofList [("i", .ilp), ("l", .ilp)]
  device := .fermi
  schedule := none

/-- The accumulator of the tile has three rows and four columns. Its rows are in bounds, and its
columns are not, since they are counted from two. -/
theorem realizeReduction_lanes_index_iff_shiftedTile :
    ∃ k' a, shiftedTile.realizeReduction = .ok k' ∧
      shiftedTile.LanesIndex k' a [("i", 3), ("l", 4)] ∧
      shiftedTile.domain.Indexes "i" 3 ∧ ¬shiftedTile.domain.Indexes "l" 4 := by
  obtain ⟨k', hk⟩ := Attempt.exists_eq_ok (x := shiftedTile.realizeReduction) (by decide +kernel)
  obtain ⟨-, accumulators, hrealizes, hall⟩ := realizeReduction_lanes_index_iff hk
  have hdifferences : ∀ c ∈ shiftedTile.domain.constraints, c.form.IsDifference := by decide
  have hpoint : shiftedTile.domain.Holds fun n => if n = "l" then 2 else 0 := by decide
  have hrows : IsLeast (shiftedTile.domain.values "i") 0 :=
    Polyhedron.isLeast_values (by decide) hpoint (by decide)
  have hcolumns : IsLeast (shiftedTile.domain.values "l") 2 :=
    Polyhedron.isLeast_values (by decide) hpoint (by decide)
  obtain ⟨a, rfl, ha⟩ := List.map_eq_singleton_iff.mp hrealizes.reductions
  obtain ⟨lanes, hlanes, hindex⟩ := hall a (List.mem_singleton_self a)
  obtain rfl : lanes = [("i", 3), ("l", 4)] := by
    have hmeasured := hlanes.measured
    rw [congrArg Reduction.owner ha] at hmeasured
    exact Except.ok.inj (hmeasured.symm.trans (by decide +kernel))
  refine ⟨k', a, hk, hlanes, ?_, ?_⟩
  · obtain ⟨least, slack, hleast, -, -, hslack, hiff⟩ := hindex ("i", 3) (.head _) ⟨_, hpoint⟩
    rw [hiff, hleast.unique hrows, hslack hdifferences]
    exact ⟨le_rfl, le_rfl⟩
  · obtain ⟨least, slack, hleast, -, -, hslack, hiff⟩ :=
      hindex ("l", 4) (.tail _ (.head _)) ⟨_, hpoint⟩
    rw [hiff, hleast.unique hcolumns, hslack hdifferences]
    decide

end Kernel

end LoopKernel
