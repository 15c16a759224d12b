import LoopKernel.Proofs.Expr.Binders
import LoopKernel.Proofs.FreshName
import LoopKernel.Proofs.Polyhedron.Basic
import LoopKernel.Kernel.Basic
import Mathlib.Data.List.Nodup

/-!
# Well-formed kernels

What the parts of a kernel owe to each other: all names are different, every dimension has a tag,
and instructions refer to dimensions and instructions of the kernel only. The conditions are kept
when temporaries, instructions or dimensions are replaced by others that meet them.
-/

namespace LoopKernel

/-- The extents of an argument. -/
def ArgumentKind.shape : ArgumentKind → List Expr
  | .global shape | .image shape => shape
  | .scalar _ => []

namespace Instruction

/-- The indices that the reductions of an instruction bind. -/
def binders (insn : Instruction) : List Binder := insn.assignee.binders ++ insn.expression.binders

/-- Whether an instruction refers to the given dimensions and instruction ids only. -/
structure Scoped (dims ids : List String) (insn : Instruction) : Prop where
  deps : ∀ id ∈ insn.deps, id ∈ ids
  forced : ∀ n ∈ insn.forcedInames, n ∈ dims
  boosted : ∀ targets, insn.boostableInto = some targets → ∀ n ∈ targets, n ∈ dims
  bound : ∀ b ∈ insn.binders, b.name ∈ dims

/-- More dimensions and instructions leave an instruction in scope. -/
theorem Scoped.mono {dims dims' ids ids' : List String} {insn : Instruction}
    (h : insn.Scoped dims ids) (hdims : ∀ n ∈ dims, n ∈ dims') (hids : ∀ id ∈ ids, id ∈ ids') :
    insn.Scoped dims' ids' :=
  ⟨fun id hid => hids id (h.deps id hid), fun n hn => hdims n (h.forced n hn),
    fun targets ht n hn => hdims n (h.boosted targets ht n hn),
    fun b hb => hdims _ (h.bound b hb)⟩

/-- Whether every name that an instruction uses is a name of the kernel. -/
structure Declared (k : Kernel) (insn : Instruction) : Prop where
  target : insn.target ∈ k.names
  assignee : ∀ n ∈ insn.assignee.dependencies, n ∈ k.names
  expression : ∀ n ∈ insn.expression.dependencies, n ∈ k.names
  forced : ∀ n ∈ insn.forcedInames, n ∈ k.names

variable {k : Kernel} {insn : Instruction}

/-- Whether an instruction is declared can be looked up name by name. -/
theorem declared_iff :
    insn.Declared k ↔ insn.target ∈ k.names ∧ (∀ n ∈ insn.assignee.dependencies, n ∈ k.names) ∧
      (∀ n ∈ insn.expression.dependencies, n ∈ k.names) ∧ ∀ n ∈ insn.forcedInames, n ∈ k.names :=
  ⟨fun h => ⟨h.target, h.assignee, h.expression, h.forced⟩, fun h => ⟨h.1, h.2.1, h.2.2.1, h.2.2.2⟩⟩

instance (k : Kernel) (insn : Instruction) : Decidable (insn.Declared k) :=
  decidable_of_iff _ declared_iff.symm

/-- The assignee mentions what its index mentions. -/
theorem mem_dependencies_of_mem_targetIndex {n : String}
    (hn : n ∈ Expr.dependenciesOfAll insn.targetIndex) : n ∈ insn.assignee.dependencies := by
  unfold targetIndex at hn
  split at hn
  · next aggregate index hassignee =>
    rw [hassignee, Expr.dependencies, NameSet.mem_add]
    exact .inr hn
  · exact absurd hn (NameSet.not_mem_empty n)

/-- The names in the index of the assignee of a declared instruction are names of the kernel. -/
theorem Declared.mem_names_of_mem_targetIndex (h : insn.Declared k) {n : String}
    (hn : n ∈ Expr.dependenciesOfAll insn.targetIndex) : n ∈ k.names :=
  h.assignee n (mem_dependencies_of_mem_targetIndex hn)

end Instruction

namespace Kernel

/-- Whether the parts of a kernel fit together. -/
structure WellFormed (k : Kernel) : Prop where
  names : (k.args.map Argument.name ++ k.temporaries.keys ++ k.domain.dims).Nodup
  temporaries : ∀ n t, k.temporaries.get? n = some t → t.name = n
  tags : ∀ n, k.tags.contains n = true ↔ n ∈ k.domain.dims
  ids : k.insnIds.Nodup
  instructions : ∀ insn ∈ k.instructions, insn.Scoped k.domain.dims k.insnIds

variable {k : Kernel} {n : String}

/-! ## Names -/

/-- The names of a kernel are those of its arguments, temporaries, dimensions and parameters. -/
theorem mem_names : n ∈ k.names ↔ n ∈ k.args.map Argument.name ∨ k.temporaries.contains n = true ∨
    n ∈ k.domain.dims ∨ n ∈ k.domain.params := by
  simp only [names, argNames, NameSet.mem_union, NameSet.mem_addAll, NameSet.mem_ofList,
    SortedMap.mem_keys]
  tauto

/-- Dimensions are names of a kernel. -/
theorem mem_names_of_mem_dims (h : n ∈ k.domain.dims) : n ∈ k.names :=
  mem_names.mpr (.inr (.inr (.inl h)))

theorem mem_names_of_hasDim (h : k.domain.hasDim n = true) : n ∈ k.names :=
  mem_names_of_mem_dims (Polyhedron.hasDim_iff.mp h)

/-- The variables of the domain are names of a kernel. -/
theorem mem_names_of_mem_vars {c : Constraint} (hc : c ∈ k.domain.constraints)
    (hn : n ∈ c.form.vars) : n ∈ k.names := by
  by_cases hdim : n ∈ k.domain.dims
  · exact mem_names_of_mem_dims hdim
  · refine mem_names.mpr (.inr (.inr (.inr ?_)))
    rw [Polyhedron.params, NameSet.mem_ofList, List.mem_filter, List.mem_flatMap]
    rw [Bool.not_eq_true', ← Bool.not_eq_true, Polyhedron.hasDim_iff]
    exact ⟨⟨c, hc, hn⟩, hdim⟩

/-- The points of the domain depend on the names of a kernel alone. -/
theorem holds_domain_congr {x y : String → Int} (h : ∀ n ∈ k.names, x n = y n) :
    k.domain.Holds x ↔ k.domain.Holds y :=
  forall₂_congr fun _ hc => Constraint.holds_congr fun v hv => h v (mem_names_of_mem_vars hc hv)

/-- A fresh variable is new to the kernel and to the other names given. -/
theorem freshVar_not_mem (k : Kernel) (base : String) (others : List String) :
    k.freshVar base others ∉ k.names ∧ k.freshVar base others ∉ others := by
  have hfresh := FreshName.choose_not_mem (k.names.toList ++ others) base
  rw [List.mem_append, NameSet.mem_toList, not_or] at hfresh
  exact hfresh

/-- A fresh id is new to the kernel and to the other ids given. -/
theorem freshInsn_not_mem (k : Kernel) (base : String) (others : List String) :
    k.freshInsn base others ∉ k.insnIds ∧ k.freshInsn base others ∉ others := by
  have hfresh := FreshName.choose_not_mem (k.insnIds ++ others) base
  rw [List.mem_append, not_or] at hfresh
  exact hfresh

/-- The indices of an instruction in scope are dimensions. -/
theorem mem_dims_of_mem_insnInames {ids : List String} {insn : Instruction}
    (h : insn.Scoped k.domain.dims ids) (hn : n ∈ k.insnInames insn) : n ∈ k.domain.dims := by
  rw [insnInames, NameSet.mem_union, NameSet.mem_select] at hn
  rcases hn with hforced | ⟨-, hdim⟩
  · exact h.forced n hforced
  · exact Polyhedron.hasDim_iff.mp hdim

/-- Declared names and dimensions are different when the lists of each kind are, and the kinds have
nothing in common. -/
theorem nodup_declared_iff {args dims : List String} {temporaries : SortedMap String Temporary} :
    (args ++ temporaries.keys ++ dims).Nodup ↔ args.Nodup ∧ dims.Nodup ∧
      (∀ n, temporaries.contains n = true → n ∉ args ∧ n ∉ dims) ∧ ∀ n ∈ dims, n ∉ args := by
  simp only [List.nodup_append', temporaries.nodup_keys, List.disjoint_left, List.mem_append,
    SortedMap.mem_keys]
  grind

namespace WellFormed

/-- What has a tag is a dimension. -/
theorem mem_dims_of_tag (h : k.WellFormed) {tag : IndexTag} (hn : k.tags.get? n = some tag) :
    n ∈ k.domain.dims := (h.tags n).mp (SortedMap.contains_iff.mpr ⟨tag, hn⟩)

/-- No dimension is listed twice. -/
theorem nodup_dims (h : k.WellFormed) : k.domain.dims.Nodup := (nodup_declared_iff.mp h.names).2.1

/-- Temporaries under old or new names leave all names different. -/
theorem names_of_temporaries (h : k.WellFormed) {temporaries : SortedMap String Temporary}
    (hnew : ∀ n, temporaries.contains n = true →
      k.temporaries.contains n = true ∨ n ∉ k.names) :
    (k.args.map Argument.name ++ temporaries.keys ++ k.domain.dims).Nodup := by
  obtain ⟨hargs, hdims, htemporaries, hdisjoint⟩ := nodup_declared_iff.mp h.names
  refine nodup_declared_iff.mpr ⟨hargs, hdims, fun n hn => ?_, hdisjoint⟩
  rcases hnew n hn with hold | hfresh
  · exact htemporaries n hold
  · rw [mem_names] at hfresh
    exact ⟨fun ha => hfresh (.inl ha), fun hd => hfresh (.inr (.inr (.inl hd)))⟩

/-- Old and new dimensions leave all names different. -/
theorem names_of_dims (h : k.WellFormed) {dims : List String} (hnodup : dims.Nodup)
    (hnew : ∀ n ∈ dims, n ∈ k.domain.dims ∨ n ∉ k.names) :
    (k.args.map Argument.name ++ k.temporaries.keys ++ dims).Nodup := by
  obtain ⟨hargs, -, htemporaries, hdisjoint⟩ := nodup_declared_iff.mp h.names
  refine nodup_declared_iff.mpr ⟨hargs, hnodup, fun n hn => ⟨(htemporaries n hn).1, fun hd => ?_⟩,
    fun n hd ha => ?_⟩
  · rcases hnew n hd with hold | hfresh
    · exact (htemporaries n hn).2 hold
    · exact hfresh (mem_names.mpr (.inr (.inl hn)))
  · rcases hnew n hd with hold | hfresh
    · exact hdisjoint n hold ha
    · exact hfresh (mem_names.mpr (.inl ha))

/-- Other values of the temporaries under their names. -/
theorem with_temporaries (h : k.WellFormed) {temporaries : SortedMap String Temporary}
    (hkeys : ∀ n, temporaries.contains n = true → k.temporaries.contains n = true)
    (hnames : ∀ n t, temporaries.get? n = some t → t.name = n) :
    ({ k with temporaries := temporaries } : Kernel).WellFormed where
  names := h.names_of_temporaries fun n hn => .inl (hkeys n hn)
  temporaries := hnames
  tags := h.tags
  ids := h.ids
  instructions := h.instructions

/-- Other contents of the instructions under their ids. -/
theorem with_instructions (h : k.WellFormed) {insns : List Instruction}
    (hids : insns.map Instruction.id = k.insnIds)
    (hscoped : ∀ insn ∈ insns, insn.Scoped k.domain.dims k.insnIds) :
    ({ k with instructions := insns } : Kernel).WellFormed where
  names := h.names
  temporaries := h.temporaries
  tags := h.tags
  ids := by
    rw [insnIds, hids]
    exact h.ids
  instructions insn hinsn := by
    rw [insnIds, hids]
    exact hscoped insn hinsn

/-- Another tag of a dimension. -/
theorem with_tag (h : k.WellFormed) (tag : IndexTag) (hn : n ∈ k.domain.dims) :
    ({ k with tags := k.tags.insert n tag } : Kernel).WellFormed where
  names := h.names
  temporaries := h.temporaries
  tags m := by
    rw [SortedMap.contains_insert, Bool.or_eq_true, beq_iff_eq, h.tags]
    exact ⟨fun hm => hm.elim (fun he => he ▸ hn) id, .inr⟩
  ids := h.ids
  instructions := h.instructions

end WellFormed

end Kernel

end LoopKernel
