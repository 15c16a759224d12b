import LoopKernel.Proofs.Axis.Assignment
import LoopKernel.Proofs.Iname.Mentions
import LoopKernel.Proofs.Kernel.Lengths
import LoopKernel.Proofs.Source.WellFormed

/-!
# Chosen axes are exclusive and long enough

Choosing axes gives no two indices of an instruction the same local axis, as long as no name that a
split leaves in place is the name of an index whose axis is open: such a name would stay behind when
the index is split, and could be taken for a new index later. The indices with a local axis take
fewer values than the axis is long in any case.
-/

namespace LoopKernel.Kernel

/-- Whether no instruction runs over two indices with the same local axis. -/
def ExclusiveAxes (k : Kernel) : Prop :=
  ∀ insn ∈ k.instructions, ∀ m ∈ k.insnInames insn, ∀ n ∈ k.insnInames insn,
    (k.tag m).localAxis?.isSome = true → k.tag m = k.tag n → m = n

instance (k : Kernel) : Decidable k.ExclusiveAxes :=
  inferInstanceAs (Decidable (∀ insn ∈ k.instructions, ∀ m ∈ k.insnInames insn, _))

variable {k k' : Kernel} {lengths : List Int} {n : String}

/-! ## Exclusive axes -/

/-- An index may get a tag whose axis is free alongside it. -/
theorem ExclusiveAxes.insert {tag : IndexTag} (h : k.ExclusiveAxes)
    (htag : ∀ axis, tag.localAxis? = some axis → axis ∉ k.axesAlongside n) :
    ({ k with tags := k.tags.insert n tag } : Kernel).ExclusiveAxes := by
  intro insn hinsn a ha b hb hlocal hab
  -- Another index of an instruction that runs over `n` has another tag.
  have hother : n ∈ k.insnInames insn → ∀ m ∈ k.insnInames insn,
      tag.localAxis?.isSome = true → k.tag m ≠ tag := by
    intro hn m hm hsome he
    obtain ⟨axis, haxis⟩ := Option.isSome_iff_exists.mp hsome
    exact htag axis haxis (mem_axesAlongside.mpr ⟨insn, hinsn, hn, m, hm, he ▸ haxis⟩)
  rw [tag_insert, tag_insert] at hab
  rw [tag_insert] at hlocal
  by_cases han : a = n
  · by_cases hbn : b = n
    · rw [han, hbn]
    · rw [if_pos han, if_neg hbn] at hab
      rw [if_pos han] at hlocal
      exact absurd hab.symm (hother (han ▸ ha) b hb hlocal)
  · by_cases hbn : b = n
    · rw [if_neg han, if_pos hbn] at hab
      rw [if_neg han, hab] at hlocal
      exact absurd hab (hother (hbn ▸ hb) a ha hlocal)
    · rw [if_neg han, if_neg hbn] at hab
      rw [if_neg han] at hlocal
      exact h insn hinsn a ha b hb hlocal hab

/-- An index may be split onto an axis that is free alongside it, if no instruction mentions the new
indices yet. -/
theorem ExclusiveAxes.splitIname {axis : Nat} {available : Int} (hwf : k.WellFormed)
    (h : k.ExclusiveAxes) (hmentions : ∀ insn ∈ k.instructions, ∀ m, insn.Mentions m → m ∈ k.names)
    (hfree : axis ∉ k.axesAlongside n)
    (hk : k.splitIname n available (some .unroll) (some (.localAxis axis)) = .ok k') :
    k'.ExclusiveAxes := by
  have hwf' := hwf.splitIname hk
  intro insn hinsn a ha b hb hlocal hab
  have hdims : ∀ m ∈ k'.insnInames insn, m = (k.indexSplit n available).outer ∨
      m = (k.indexSplit n available).inner ∨ m ≠ n ∧ m ∈ k.domain.dims := fun m hm =>
    (mem_dims_splitIname hk).mp (mem_dims_of_mem_insnInames (hwf'.instructions insn hinsn) hm)
  obtain ⟨before, hbefore, rfl⟩ : ∃ before ∈ k.instructions,
      (k.indexSplit n available).splitInsn before = insn := by
    obtain ⟨-, -, domain, -, rfl⟩ := splitIname_spec hk
    exact List.mem_map.mp hinsn
  set s := k.indexSplit n available with hs
  have houter : s.outer ∉ k.names := k.outer_indexSplit_not_mem n available
  have hinner : s.inner ∉ k.names := k.inner_indexSplit_not_mem n available
  have htag := fun m => tag_splitIname (n := m) hk
  rw [← hs] at htag
  -- Every index with a local axis is the inner one or an old one, where the index was an old one.
  have hcases : ∀ m ∈ k'.insnInames (s.splitInsn before), (k'.tag m).localAxis?.isSome = true →
      m = s.inner ∧ k'.tag m = .localAxis axis ∧ n ∈ k.insnInames before ∨
        m ≠ s.inner ∧ m ∈ k.insnInames before ∧ k'.tag m = k.tag m := by
    intro m hm hsome
    rw [htag] at hsome ⊢
    by_cases hmi : m = s.inner
    · refine .inl ⟨hmi, if_pos hmi, of_new_mem_insnInames_splitIname hk
        (hwf.instructions before hbefore) (.inr hmi) (fun hold => ?_) hm⟩
      exact hinner (hmi ▸ hmentions before hbefore m hold)
    · rw [if_neg hmi] at hsome ⊢
      by_cases hmo : m = s.outer
      · rw [if_pos hmo] at hsome
        cases hsome
      · have hmn : m ≠ n := (((hdims m hm).resolve_left hmo).resolve_left hmi).1
        rw [if_neg hmo, if_neg hmn]
        exact .inr ⟨hmi, (mem_insnInames_splitIname_of_ne hk hmn hmo hmi).mp hm, rfl⟩
  have hnew : ∀ m ∈ k.insnInames before, n ∈ k.insnInames before →
      k.tag m ≠ .localAxis axis := fun m hm hn he =>
    hfree (mem_axesAlongside.mpr ⟨before, hbefore, hn, m, hm, he ▸ rfl⟩)
  rcases hcases a ha hlocal with ⟨hai, hatag, hn⟩ | ⟨hai, haold, hatag⟩
  · rcases hcases b hb (hab ▸ hlocal) with ⟨hbi, -⟩ | ⟨hbi, hbold, hbtag⟩
    · rw [hai, hbi]
    · exact absurd (hbtag.symm.trans (hab.symm.trans hatag)) (hnew b hbold hn)
  · rcases hcases b hb (hab ▸ hlocal) with ⟨hbi, hbtag, hn⟩ | ⟨hbi, hbold, hbtag⟩
    · exact absurd (hatag.symm.trans (hab.trans hbtag)) (hnew a haold hn)
    · rw [hatag] at hlocal
      exact h before hbefore a haold b hbold hlocal (hatag.symm.trans (hab.trans hbtag))

/-- What steps keep up: besides exclusive axes, that instructions mention names of the kernel only,
and that a split leaves no name of an index whose axis is open behind. -/
structure Orderly (k : Kernel) : Prop where
  wellFormed : k.WellFormed
  mentions : ∀ insn ∈ k.instructions, ∀ m, insn.Mentions m → m ∈ k.names
  fixed : ∀ insn ∈ k.instructions, ∀ m ∈ insn.fixedNames, (k.tag m).isAuto = false
  exclusive : k.ExclusiveAxes

/-- Another tag, which is no open axis, leaves no open index behind. -/
private theorem Orderly.insert {tag : IndexTag} (h : k.Orderly) (hwf : WellFormed
    { k with tags := k.tags.insert n tag }) (hauto : tag.isAuto = false)
    (htag : ∀ axis, tag.localAxis? = some axis → axis ∉ k.axesAlongside n) :
    Orderly { k with tags := k.tags.insert n tag } := by
  refine ⟨hwf, h.mentions, fun insn hinsn m hm => ?_, h.exclusive.insert htag⟩
  rw [tag_insert]
  split
  · exact hauto
  · exact h.fixed insn hinsn m hm

/-- A step keeps a kernel orderly. -/
theorem Orderly.axisStep (h : k.Orderly) (hstep : AxisStep lengths k k') : k'.Orderly := by
  have hwf := h.wellFormed.axisStep hstep
  cases hstep with
  | demote hauto hruns => exact h.insert hwf rfl fun axis haxis => by cases haxis
  | assign hmay =>
    refine h.insert hwf rfl fun axis haxis => ?_
    cases haxis
    exact hmay.free
  | @split k' n axis available hmay havailable hsplit =>
    have htag := fun m => tag_splitIname (n := m) hsplit
    have hinsns : k'.instructions = k.instructions.map (k.indexSplit n available).splitInsn := by
      obtain ⟨-, -, domain, -, rfl⟩ := splitIname_spec hsplit
      rfl
    refine ⟨hwf, fun insn hinsn m hm => ?_, fun insn hinsn m hm => ?_,
      h.exclusive.splitIname h.wellFormed h.mentions hmay.free hsplit⟩
    · rw [hinsns] at hinsn
      obtain ⟨before, hbefore, rfl⟩ := List.mem_map.mp hinsn
      rcases IndexSplit.of_mentions_splitInsn hm with ⟨hne, hold⟩ | ⟨-, hfixed⟩ | ⟨hnew, -⟩
      · exact mem_names_splitIname hsplit (h.mentions before hbefore m hold) hne
      · have hclosed := h.fixed before hbefore n hfixed
        rw [hmay.auto] at hclosed
        cases hclosed
      · exact mem_names_of_mem_dims ((mem_dims_splitIname hsplit).mpr
          (hnew.imp_right .inl))
    · rw [hinsns] at hinsn
      obtain ⟨before, hbefore, rfl⟩ := List.mem_map.mp hinsn
      rw [IndexSplit.fixedNames_splitInsn] at hm
      rw [htag]
      split_ifs
      · rfl
      · rfl
      · rfl
      · exact h.fixed before hbefore m hm

/-- Steps keep a kernel orderly. -/
theorem Orderly.axisSteps (h : k.Orderly)
    (hsteps : Relation.ReflTransGen (AxisStep lengths) k k') : k'.Orderly := by
  induction hsteps with
  | refl => exact h
  | tail _ hstep ih => exact ih.axisStep hstep

/-! ## Lengths -/

/-- Whether two points are less than the length of a local axis apart in every index with the
axis. -/
def FitsAxes (k : Kernel) (lengths : List Int) : Prop :=
  ∀ n axis, k.tag n = .localAxis axis → ∃ length, lengths[axis]? = some length ∧
    ∀ x y, k.domain.Holds x → k.domain.Holds y → x n - y n < length

/-- At the start the axes are as long as their indices. -/
theorem fitsAxes_of_localAxisLengths (h : k.localAxisLengths = .ok lengths) :
    k.FitsAxes lengths := by
  intro n axis htag
  have hget : k.tags.get? n = some (.localAxis axis) :=
    htag ▸ get?_tags_of_ne_sequential (by simp [htag])
  obtain ⟨length, l, hlength, hl, hle⟩ := exists_of_localAxisLengths h hget
  exact ⟨l, hl, fun x y hx hy => (sub_lt_of_inameLength hlength hx hy).trans_le hle⟩

/-- A step keeps the indices with a local axis as short as the axis. -/
theorem FitsAxes.axisStep (h : k.FitsAxes lengths)
    (hstep : AxisStep lengths k k') : k'.FitsAxes lengths := by
  cases hstep with
  | @demote m hauto hruns =>
    intro n axis htag
    rw [tag_insert] at htag
    split at htag
    · cases htag
    · exact h n axis htag
  | @assign m _ available length hmay havailable hlength hfits =>
    intro n axis htag
    rw [tag_insert] at htag
    split at htag
    · next hn =>
      cases htag
      subst hn
      exact ⟨available, havailable, fun x y hx hy =>
        (sub_lt_of_inameLength hlength hx hy).trans_le hfits⟩
    · exact h n axis htag
  | @split k' m _ available hmay havailable hsplit =>
    intro n axis htag
    rw [tag_splitIname hsplit, Option.getD_some, Option.getD_some] at htag
    obtain ⟨hm, -, domain, hdomain, rfl⟩ := splitIname_spec hsplit
    obtain ⟨-, -, -, -, hholds⟩ := IndexSplit.splitDomain_spec hdomain fun he =>
      k.inner_indexSplit_not_mem m available (mem_names_of_mem_dims (he ▸ hm))
    split_ifs at htag with hinner houter hn
    · cases htag
      refine ⟨available, havailable, fun x y hx hy => ?_⟩
      have hlt : x (k.indexSplit m available).inner < available := ((hholds x).mp hx).2.2
      have hnonneg : 0 ≤ y (k.indexSplit m available).inner := ((hholds y).mp hy).2.1
      rw [hinner]
      omega
    · obtain ⟨length, hlength, hfits⟩ := h n axis htag
      refine ⟨length, hlength, fun x y hx hy => ?_⟩
      have hsame : ∀ z, (k.indexSplit m available).join z n = z n := fun z =>
        Function.update_of_ne hn _ z
      have hold := hfits _ _ ((hholds x).mp hx).1 ((hholds y).mp hy).1
      rwa [hsame, hsame] at hold

/-- Steps keep the indices with a local axis as short as the axis. -/
theorem FitsAxes.axisSteps (h : k.FitsAxes lengths)
    (hsteps : Relation.ReflTransGen (AxisStep lengths) k k') : k'.FitsAxes lengths := by
  induction hsteps with
  | refl => exact h
  | tail _ hstep ih => exact ih.axisStep hstep

/-! ## Chosen axes -/

/-- After axes are chosen, two points are less than the length of a local axis apart in every index
with the axis, for the lengths at the start. If the instructions refer to names of the kernel, no
name under a tag and no array has the name of an index whose axis is open, and no two indices of an
instruction had the same local axis, then none have. -/
theorem exclusiveAxes_assignAutomaticAxes (h : k.WellFormed)
    (hk : k.assignAutomaticAxes = .ok k') :
    ∃ lengths, k.localAxisLengths = .ok lengths ∧
      (∀ n axis, k'.tag n = .localAxis axis → ∃ length, lengths[axis]? = some length ∧
        ∀ x y, k'.domain.Holds x → k'.domain.Holds y → x n - y n < length) ∧
      ((∀ insn ∈ k.instructions, insn.Declared k) →
        (∀ insn ∈ k.instructions, ∀ n ∈ insn.fixedNames, (k.tag n).isAuto = false) →
        k.ExclusiveAxes → k'.ExclusiveAxes) := by
  obtain ⟨lengths, hlengths, hsteps, -⟩ := assignAutomaticAxes_spec hk
  refine ⟨lengths, hlengths, (fitsAxes_of_localAxisLengths hlengths).axisSteps hsteps,
    fun hdeclared hfixed hexclusive => ?_⟩
  have hmentions : ∀ insn ∈ k.instructions, ∀ m, insn.Mentions m → m ∈ k.names :=
    fun insn hinsn m hm => hm.elim ((hdeclared insn hinsn).expression m)
      ((hdeclared insn hinsn).assignee m)
  have horderly : k.Orderly := ⟨h, hmentions, hfixed, hexclusive⟩
  exact (horderly.axisSteps hsteps).exclusive

/-- A tile with a row whose axis is open, beside local axes of four and eight lanes. -/
def openRowSource : String :=
  "domain [i, j, m] : 0 <= i < 16 and 0 <= j < 4 and 0 <= m < 8\narg global float32 b[8]\n" ++
    "temp float32 t[16, 4]\ntag i = l.auto, j = l.0, m = l.1\n" ++
    "insn p: t[i, j] = 1\ninsn q: b[m] = 1\n"

/-- The row is split onto the axis that the instruction does not use yet. -/
theorem exclusiveAxes_assignAutomaticAxes_openRow :
    ∃ k k', Source.load openRowSource .fermi = .ok k ∧ k.assignAutomaticAxes = .ok k' ∧
      k'.tag "i_inner" = .localAxis 1 ∧ k'.ExclusiveAxes ∧
      ∃ lengths length, k.localAxisLengths = .ok lengths ∧ lengths[1]? = some length ∧
        ∀ x y, k'.domain.Holds x → k'.domain.Holds y → x "i_inner" - y "i_inner" < length := by
  obtain ⟨k, hload, hdeclared, hfixed, hexclusive, k', hk, htag⟩ :
      ∃ k, Source.load openRowSource .fermi = .ok k ∧
        (∀ insn ∈ k.instructions, insn.Declared k) ∧
        (∀ insn ∈ k.instructions, ∀ n ∈ insn.fixedNames, (k.tag n).isAuto = false) ∧
        k.ExclusiveAxes ∧
        ∃ k', k.assignAutomaticAxes = .ok k' ∧ k'.tag "i_inner" = .localAxis 1 := by
    decide +kernel
  obtain ⟨lengths, hlengths, hfits, hkept⟩ :=
    exclusiveAxes_assignAutomaticAxes (Source.wellFormed_of_load hload) hk
  obtain ⟨length, hlength, hlt⟩ := hfits "i_inner" 1 htag
  exact ⟨k, k', hload, hk, htag, hkept hdeclared hfixed hexclusive, lengths, length, hlengths,
    hlength, hlt⟩

end LoopKernel.Kernel
