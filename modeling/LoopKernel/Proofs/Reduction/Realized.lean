import LoopKernel.Proofs.Reduction.Accumulator
import LoopKernel.Proofs.Reduction.Emission

/-!
# Realized expressions

An expression whose reductions have become accumulators has the value of the original expression,
once the instructions of the accumulators have run. The values are compared at two parts of one
assignment: the original expression stands under all indices around it, the realized one under those
that the instruction it ends up in runs under.
-/

namespace LoopKernel

/-! ## Values -/

/-- Two sets of indices that expressions stand under, the wider one in the original place. -/
structure Surrounds (k : Kernel) (own around here : NameSet) (es : List Expr) : Prop where
  containsOwn : ∀ n ∈ own, n ∈ here
  within : ∀ n ∈ here, n ∈ around
  indices : ∀ n ∈ around, n ∈ own ∨ k.domain.hasDim n = true
  mentioned : ∀ n ∈ Expr.dependenciesOfAll es, k.domain.hasDim n = true → n ∈ here
  declared : ∀ n ∈ Expr.dependenciesOfAll es, n ∈ k.names

namespace Surrounds

variable {k : Kernel} {own around here : NameSet} {es es' : List Expr}

/-- Fewer expressions stand under the same indices. -/
theorem mono (h : Surrounds k own around here es)
    (hsub : ∀ n ∈ Expr.dependenciesOfAll es', n ∈ Expr.dependenciesOfAll es) :
    Surrounds k own around here es' :=
  ⟨h.containsOwn, h.within, h.indices, fun n hn => h.mentioned n (hsub n hn),
    fun n hn => h.declared n (hsub n hn)⟩

/-- What the expressions mention is hidden by both sets of indices or by neither. -/
theorem mem_iff (h : Surrounds k own around here es) {n : String}
    (hn : n ∈ Expr.dependenciesOfAll es) : n ∈ here ↔ n ∈ around := by
  refine ⟨h.within n, fun ha => ?_⟩
  rcases h.indices n ha with ho | hd
  · exact h.containsOwn n ho
  · exact h.mentioned n hn hd

end Surrounds

/-- Whether realized expressions have the values of the original ones, over the memory `after` that
the instructions of their accumulators leave. Reductions of the original see the memory `base`. -/
def SameValues {V : Type} (k : Kernel) (M : Machine V) (env : String → Int)
    (temporaries : SortedMap String Temporary) (base after : Memory V) (around here : NameSet)
    (es es' : List Expr) : Prop :=
  ∀ (past' : Reader V) (now now' : Memory V), (∀ n ∈ k.names, now' n = now n) →
    (∀ n, temporaries.contains n = true → now' n = after n) →
    ∀ x ∈ k.domain.pointsAt env,
      Expr.meaningAll M.arithmetic M.points past' (now'.reader M.privateTo)
          (Point.ofNames x here) es' =
        Expr.meaningAll M.arithmetic M.points (base.reader fun _ => ∅) (now.reader fun _ => ∅)
          (Point.ofNames x around) es

/-- What becomes of several expressions when their reductions are realized: names outside reductions
stay, lanes and accumulators come in, and values are the same. -/
structure Realized {V : Type} (k : Kernel) (M : Machine V) (env : String → Int)
    (owner : ReductionOwner) (r : Realization) (es es' : List Expr) (new : List Instruction)
    (s : Realization) : Prop extends Realization.Extends k r new s where
  surface : ∀ n ∈ Expr.surfaceNamesOfAll es, n ∈ Expr.dependenciesOfAll es'
  names : ∀ n ∈ Expr.dependenciesOfAll es', n ∈ Expr.surfaceNamesOfAll es ∨ n ∈ owner.laneNames ∨
    s.temporaries.contains n = true
  values : ∀ base m : Memory V, (∀ n ∈ k.names, m n = base n) → Realization.HasCells k M s →
    ∀ around here, Surrounds k owner.inames around here es →
      k.RealizableAll env owner.inames owner.laneNames around es →
        SameValues k M env s.temporaries base (m.writeAll (k.storesOf M m new)) around here es es'

namespace Realized

variable {V : Type} {k : Kernel} {M : Machine V} {env : String → Int} {owner : ReductionOwner}
  {r s t : Realization} {new more : List Instruction} {es es' fs fs' : List Expr}

/-- No expressions. -/
theorem nil (hr : r.Sound k) : Realized k M env owner r [] [] [] r where
  toExtends := .refl hr
  surface := by simp [Expr.surfaceNamesOfAll]
  names := by simp [Expr.dependenciesOfAll]
  values _ _ _ _ _ _ _ _ _ _ _ _ _ _ _ := by simp [Expr.meaningAll]

/-- One more expression in front. -/
theorem cons {e e' : Expr} (h : Realized k M env owner r [e] [e'] new s)
    (h' : Realized k M env owner s es es' more t) :
    Realized k M env owner r (e :: es) (e' :: es') (new ++ more) t where
  toExtends := h.toExtends.trans h'.toExtends
  surface n hn := by
    have hone := h.surface n
    rw [Expr.mem_surfaceNamesOfAll_singleton, Expr.mem_dependenciesOfAll_singleton] at hone
    simp only [Expr.surfaceNamesOfAll, Expr.dependenciesOfAll, NameSet.mem_union] at hn ⊢
    exact hn.imp hone (h'.surface n)
  names n hn := by
    have hone := h.names n
    rw [Expr.mem_surfaceNamesOfAll_singleton, Expr.mem_dependenciesOfAll_singleton] at hone
    simp only [Expr.surfaceNamesOfAll, Expr.dependenciesOfAll, NameSet.mem_union] at hn ⊢
    rcases hn with hn | hn
    · rcases hone hn with hn | hn | hn
      · exact .inl (.inl hn)
      · exact .inr (.inl hn)
      · exact .inr (.inr (h'.keeps n hn))
    · exact (h'.names n hn).imp_left .inr
  values base m hm hM around here hsurrounds hrealizable past' now now' hnow hafter x hx := by
    have hsub : ∀ n, n ∈ Expr.dependenciesOfAll (e :: es) ↔
        n ∈ Expr.dependenciesOfAll [e] ∨ n ∈ Expr.dependenciesOfAll es := by
      simp [Expr.dependenciesOfAll]
    have hbetween : ∀ n ∈ k.names, m.writeAll (k.storesOf M m new) n = base n :=
      fun n hn => (h.writeAll_of_mem m (.inl hn)).trans (hm n hn)
    rw [Kernel.storesOf_append, Memory.writeAll_append] at hafter
    have hfirst := h.values base m hm (hM.of_extends h.sound h'.toExtends) around here
      (hsurrounds.mono fun n hn => (hsub n).mpr (.inl hn)) ⟨hrealizable.1, trivial⟩ past' now now'
      hnow (fun n hn => (hafter n (h'.keeps n hn)).trans (h'.writeAll_of_mem _ (.inr hn))) x hx
    have hrest := h'.values base _ hbetween hM around here
      (hsurrounds.mono fun n hn => (hsub n).mpr (.inr hn)) hrealizable.2 past' now now' hnow hafter
      x hx
    simp only [Expr.meaningAll, List.cons.injEq, and_true] at hfirst ⊢
    exact ⟨hfirst, hrest⟩

/-- An expression around others that has no reduction of its own. What it mentions of its own stands
at the same values in both places. -/
theorem node {e e' : Expr} (own : NameSet) (h : Realized k M env owner r es es' new s)
    (hsurface : ∀ n, n ∈ e.surfaceNames ↔ n ∈ own ∨ n ∈ Expr.surfaceNamesOfAll es)
    (hdeps : ∀ n, n ∈ e.dependencies ↔ n ∈ own ∨ n ∈ Expr.dependenciesOfAll es)
    (hdeps' : ∀ n, n ∈ e'.dependencies ↔ n ∈ own ∨ n ∈ Expr.dependenciesOfAll es')
    (hrealizable : ∀ around, k.Realizable env owner.inames owner.laneNames around e →
      k.RealizableAll env owner.inames owner.laneNames around es)
    (hmeaning : ∀ (past past' now now' : Reader V) (p p' : Point),
      Expr.meaningAll M.arithmetic M.points past' now' p' es' =
        Expr.meaningAll M.arithmetic M.points past now p es →
      (∀ n ∈ own, p'.get? n = p.get? n ∧ ∀ index, now' p' n index = now p n index) →
      e'.meaning M.arithmetic M.points past' now' p' =
        e.meaning M.arithmetic M.points past now p) :
    Realized k M env owner r [e] [e'] new s where
  toExtends := h.toExtends
  surface n hn := by
    rw [Expr.mem_surfaceNamesOfAll_singleton, hsurface] at hn
    rw [Expr.mem_dependenciesOfAll_singleton, hdeps']
    exact hn.imp_right (h.surface n)
  names n hn := by
    rw [Expr.mem_dependenciesOfAll_singleton, hdeps'] at hn
    rw [Expr.mem_surfaceNamesOfAll_singleton, hsurface]
    rcases hn with hn | hn
    · exact .inl (.inl hn)
    · exact (h.names n hn).imp_left .inr
  values base m hm hM around here hsurrounds hrealizable' past' now now' hnow hafter x hx := by
    have hmem : ∀ n, n ∈ Expr.dependenciesOfAll [e] ↔ n ∈ own ∨ n ∈ Expr.dependenciesOfAll es := by
      intro n
      rw [Expr.mem_dependenciesOfAll_singleton, hdeps]
    have hinner := h.values base m hm hM around here
      (hsurrounds.mono fun n hn => (hmem n).mpr (.inr hn)) (hrealizable around hrealizable'.1) past'
      now now' hnow hafter x hx
    simp only [Expr.meaningAll, List.cons.injEq, and_true]
    apply hmeaning _ _ _ _ _ _ hinner
    intro n hn
    have hn' := (hmem n).mpr (.inl hn)
    refine ⟨?_, fun index => ?_⟩
    · rw [Point.get?_ofNames, Point.get?_ofNames]
      exact if_congr (hsurrounds.mem_iff hn') rfl rfl
    · have hdeclared := hsurrounds.declared n hn'
      rw [Memory.reader, Memory.reader, hM.declared n hdeclared, hnow n hdeclared,
        Point.restrict_empty, Point.restrict_empty]

private theorem readAt_congr {A : Arithmetic V} {now now' : Reader V} {p p' : Point} {n : String}
    (h : p'.get? n = p.get? n ∧ ∀ index, now' p' n index = now p n index) (index : List V) :
    Expr.readAt A now' p' n index = Expr.readAt A now p n index := by
  rw [Expr.readAt, Expr.readAt, h.1, h.2]

private theorem readName_congr {A : Arithmetic V} {now now' : Reader V} {p p' : Point} {n : String}
    (h : p'.get? n = p.get? n ∧ ∀ index, now' p' n index = now p n index) :
    Expr.readName A now' p' n = Expr.readName A now p n := by
  rw [Expr.readName, Expr.readName, h.1, readAt_congr h]

/-- A literal or a name. -/
theorem leaf {e : Expr} (hr : r.Sound k) (hsurface : e.surfaceNames = e.dependencies)
    (hmeaning : ∀ (past past' now now' : Reader V) (p p' : Point),
      (∀ n ∈ e.dependencies, p'.get? n = p.get? n ∧ ∀ index, now' p' n index = now p n index) →
      e.meaning M.arithmetic M.points past' now' p' =
        e.meaning M.arithmetic M.points past now p) :
    Realized k M env owner r [e] [e] [] r :=
  (nil hr).node e.dependencies (by simp [hsurface, Expr.surfaceNamesOfAll])
    (by simp [Expr.dependenciesOfAll]) (by simp [Expr.dependenciesOfAll]) (fun _ _ => trivial)
    fun past past' now now' p p' _ => hmeaning past past' now now' p p'

/-- An element of an array. -/
theorem subscript (aggregate : String) (h : Realized k M env owner r es es' new s) :
    Realized k M env owner r [.subscript aggregate es] [.subscript aggregate es'] new s := by
  refine h.node (NameSet.ofList [aggregate]) (by simp [Expr.surfaceNames])
    (by simp [Expr.dependencies]) (by simp [Expr.dependencies]) (fun _ h => h) ?_
  intro past past' now now' p p' hes hown
  simp only [Expr.meaning]
  rw [hes, readAt_congr (hown aggregate (by simp))]

/-- An operation on all of several operands. -/
theorem operation (build : List Expr → Expr) (value : List V → V)
    (hsurface : ∀ es, (build es).surfaceNames = Expr.surfaceNamesOfAll es)
    (hdeps : ∀ es, (build es).dependencies = Expr.dependenciesOfAll es)
    (hrealizable : ∀ around, k.Realizable env owner.inames owner.laneNames around (build es) →
      k.RealizableAll env owner.inames owner.laneNames around es)
    (hmeaning : ∀ (past now : Reader V) (p : Point) (es : List Expr),
      (build es).meaning M.arithmetic M.points past now p =
        value (Expr.meaningAll M.arithmetic M.points past now p es))
    (h : Realized k M env owner r es es' new s) :
    Realized k M env owner r [build es] [build es'] new s := by
  refine h.node ∅ (by simp [hsurface]) (by simp [hdeps]) (by simp [hdeps]) hrealizable ?_
  intro past past' now now' p p' hes _
  rw [hmeaning, hmeaning, hes]

/-- An operation on two operands. -/
theorem binary {a a' b b' : Expr} (op : BinaryOp)
    (h : Realized k M env owner r [a, b] [a', b'] new s) :
    Realized k M env owner r [.binary op a b] [.binary op a' b'] new s := by
  refine h.node ∅ (by simp [Expr.surfaceNames, Expr.surfaceNamesOfAll])
    (by simp [Expr.dependencies, Expr.dependenciesOfAll])
    (by simp [Expr.dependencies, Expr.dependenciesOfAll]) (fun _ h => ⟨h.1, h.2, trivial⟩) ?_
  intro past past' now now' p p' hes _
  simp only [Expr.meaningAll, List.cons.injEq, and_true] at hes
  simp only [Expr.meaning]
  rw [hes.1, hes.2]

end Realized

/-! ## Reductions -/

namespace Realized

variable {V : Type} {k : Kernel} {M : Machine V} {env : String → Int} {owner : ReductionOwner}
  {r s : Realization} {new : List Instruction} {op : ReductionOp} {binders : List Binder}
  {body body' : Expr} {s' : Realization} {init update : Instruction} {a : String}
  {base m : Memory V} {around here : NameSet}

/-- The indices of the cells are not bound, and the element stands under them. -/
theorem mem_of_mem_cellInames
    (hsurrounds : Surrounds k owner.inames around here [.reduction op binders body]) {n : String}
    (hn : n ∈ k.cellInames owner.inames (Expr.boundNames binders) body) :
    n ∈ here ∧ n ∉ Expr.boundNames binders := by
  obtain ⟨hn | ⟨hn, hdim⟩, hb⟩ := Kernel.mem_cellInames.mp hn
  · exact ⟨hsurrounds.containsOwn n hn, hb⟩
  · refine ⟨hsurrounds.mentioned n ?_ hdim, hb⟩
    rw [Expr.mem_dependenciesOfAll_singleton, Expr.mem_dependencies_reduction]
    exact ⟨Expr.mem_dependencies_of_mem_surfaceNames body hn, hb⟩

/-- The body of a reduction stands under the indices of the cells and the bound ones. -/
theorem surrounds_body
    (hsurrounds : Surrounds k owner.inames around here [.reduction op binders body])
    (hseparates : k.Separates env owner.inames owner.laneNames around op
      (Expr.boundNames binders) body) :
    Surrounds k owner.inames (around.union (Expr.boundNames binders))
      ((k.cellInames owner.inames (Expr.boundNames binders) body).union (Expr.boundNames binders))
      [body] := by
  have hcell : ∀ n, (n ∈ owner.inames ∨ n ∈ body.surfaceNames ∧ k.domain.hasDim n = true) →
      n ∈ (k.cellInames owner.inames (Expr.boundNames binders) body).union
        (Expr.boundNames binders) := by
    intro n hn
    by_cases hb : n ∈ Expr.boundNames binders
    · exact NameSet.mem_union.mpr (.inr hb)
    · exact NameSet.mem_union.mpr (.inl (Kernel.mem_cellInames.mpr ⟨hn, hb⟩))
  refine ⟨fun n hn => hcell n (.inl hn), fun n hn => ?_, fun n hn => ?_, fun n hn hdim => ?_,
    fun n hn => ?_⟩
  · rw [NameSet.mem_union] at hn ⊢
    exact hn.imp_left fun hc => hsurrounds.within n (mem_of_mem_cellInames hsurrounds hc).1
  · rcases NameSet.mem_union.mp hn with ha | hb
    · exact hsurrounds.indices n ha
    · exact .inr (hseparates.dims n hb)
  · rw [Expr.mem_dependenciesOfAll_singleton] at hn
    rcases hseparates.mentions n hn hdim with ho | hb | hs
    · exact hcell n (.inl ho)
    · exact NameSet.mem_union.mpr (.inr hb)
    · exact hcell n (.inr ⟨hs, hdim⟩)
  · rw [Expr.mem_dependenciesOfAll_singleton] at hn
    by_cases hb : n ∈ Expr.boundNames binders
    · exact Kernel.mem_names_of_hasDim (hseparates.dims n hb)
    · apply hsurrounds.declared n
      rw [Expr.mem_dependenciesOfAll_singleton, Expr.mem_dependencies_reduction]
      exact ⟨hn, hb⟩

/-- The indices around a realized body, as far as they are not bound, are those of the cells. -/
theorem outerInames_diff (h : Realized k M env owner r [body] [body'] new s) (bound : NameSet)
    (hlanes : ∀ n ∈ owner.laneNames, n ∈ owner.inames) :
    (Realization.outerInames k owner bound body').diff bound =
      k.cellInames owner.inames bound body := by
  apply Realization.outerInames_diff
  · intro n hn
    exact Expr.mem_dependenciesOfAll_singleton.mp
      (h.surface n (Expr.mem_surfaceNamesOfAll_singleton.mpr hn))
  · intro n hn hd
    have hnames := h.names n (Expr.mem_dependenciesOfAll_singleton.mpr hn)
    rw [Expr.mem_surfaceNamesOfAll_singleton] at hnames
    rcases hnames with hs | hl | ht
    · exact .inl hs
    · exact .inr (hlanes n hl)
    · exact (h.sound.fresh n ht (Kernel.mem_names_of_hasDim hd)).elim

variable (hown : ∀ n ∈ owner.inames, n ∈ k.names)

include hown

/-- The two instructions of a new accumulator accumulate the reduction. -/
theorem accumulates {initId updateId : String} {deps : NameSet}
    (hlanes : ∀ n ∈ owner.laneNames, n ∈ owner.inames)
    (h : Realized k M env owner r [body] [body'] new s)
    (hseparates : k.Separates env owner.inames owner.laneNames around op
      (Expr.boundNames binders) body)
    (hfresh : a ∉ k.names) (hinfinity : a ≠ "INFINITY")
    (hinit : init = Realization.initInsn initId (owner.element a) op
      (Realization.outerInames k owner (Expr.boundNames binders) body') (Expr.boundNames binders))
    (hupdate : update = Realization.updateInsn updateId deps (owner.element a) op body'
      (Realization.outerInames k owner (Expr.boundNames binders) body') (Expr.boundNames binders))
    (hprivate : M.privateTo a = k.insnInames init) :
    Accumulates k M owner op (k.cellInames owner.inames (Expr.boundNames binders) body)
      (Expr.boundNames binders) body' a init update := by
  have hdim : k.domain.hasDim a = false :=
    Bool.eq_false_iff.mpr fun h => hfresh (Kernel.mem_names_of_hasDim h)
  have hcells := h.outerInames_diff (Expr.boundNames binders) hlanes
  have hinitInames := Realization.insnInames_initInsn hlanes hdim initId op body' hseparates.lanes
    fun n hn => (hseparates.neutral n hn).2
  have hupdateInames := Realization.insnInames_updateInsn hlanes hdim updateId deps op
    (Expr.boundNames binders) body'
  rw [Realization.outerInames_union, hcells] at hupdateInames
  rw [hcells] at hinitInames
  subst hinit hupdate
  refine ⟨fun n hn => ?_, fun hn => ?_, hinfinity, fun n hn hc => ?_, hprivate.trans hinitInames,
    rfl, rfl, hinitInames, rfl, rfl, hupdateInames⟩
  · exact Kernel.mem_cellInames.mpr ⟨.inl (hlanes n hn), hseparates.lanes n hn⟩
  · rcases NameSet.mem_union.mp hn with hc | hb
    · rcases (Kernel.mem_cellInames.mp hc).1 with ho | ⟨-, hd⟩
      · exact hfresh (hown a ho)
      · exact hfresh (Kernel.mem_names_of_hasDim hd)
    · exact hfresh (Kernel.mem_names_of_hasDim (hseparates.dims a hb))
  · obtain ⟨hno, hnd⟩ := hseparates.neutral n hn
    rcases (Kernel.mem_cellInames.mp hc).1 with ho | ⟨-, hd⟩
    · exact hno ho
    · rw [hnd] at hd
      cases hd

omit hown in
/-- A realized body has the value of the original one in any memory that holds what its accumulators
are left with. -/
theorem meaning_body (h : Realized k M env owner r [body] [body'] new s)
    (hm : ∀ n ∈ k.names, m n = base n) (hM : Realization.HasCells k M s)
    (hsurrounds : Surrounds k owner.inames around here [body])
    (hbody : k.Realizable env owner.inames owner.laneNames around body) (past : Reader V)
    {memory : Memory V} (hmemory : ∀ n, n ∈ k.names ∨ s.temporaries.contains n = true →
      memory n = m.writeAll (k.storesOf M m new) n)
    {z : String → Int} (hz : z ∈ k.domain.pointsAt env) :
    body'.meaning M.arithmetic M.points past (memory.reader M.privateTo) (Point.ofNames z here) =
      body.meaning M.arithmetic M.points (base.reader fun _ => ∅) (base.reader fun _ => ∅)
        (Point.ofNames z around) := by
  have hvalues := h.values base m hm hM around here hsurrounds ⟨hbody, trivial⟩ past base memory
    (fun n hn => ?_) (fun n hn => hmemory n (.inr hn)) z hz
  · simpa only [Expr.meaningAll, List.cons.injEq, and_true] using hvalues
  · rw [hmemory n (.inl hn), h.writeAll_of_mem m (.inl hn), hm n hn]

variable (hA : M.arithmetic.Reorders) (hpoints : Projects k.domain env M.points)

include hA hpoints

/-- Over the instructions of an accumulator, its element has the value of the reduction. -/
theorem sameValues_of_accumulates (h : Realized k M env owner r [body] [body'] new s)
    (hextends : Realization.Extends k s [init, update] s')
    (haccumulates : Accumulates k M owner op
      (k.cellInames owner.inames (Expr.boundNames binders) body) (Expr.boundNames binders) body' a
      init update)
    (hm : ∀ n ∈ k.names, m n = base n) (hM : Realization.HasCells k M s)
    (hsurrounds : Surrounds k owner.inames around here [.reduction op binders body])
    (hseparates : k.Separates env owner.inames owner.laneNames around op
      (Expr.boundNames binders) body)
    (hbody : k.Realizable env owner.inames owner.laneNames
      (around.union (Expr.boundNames binders)) body) :
    SameValues k M env s'.temporaries base (m.writeAll (k.storesOf M m (new ++ [init, update])))
      around here [.reduction op binders body] [owner.element a] := by
  intro past' now now' hnow hafter x hx
  have htarget := ReductionOwner.target_of_element haccumulates.initAssignee
  obtain ⟨hin, hout⟩ := hextends.targets init List.mem_cons_self
  rw [htarget] at hin hout
  have hfresh := hextends.sound.fresh a hin
  have hsurrounds' := surrounds_body hsurrounds hseparates
  have hcells : ∀ n ∈ k.cellInames owner.inames (Expr.boundNames binders) body,
      n ∈ here ∧ n ∉ Expr.boundNames binders := fun n hn => mem_of_mem_cellInames hsurrounds hn
  have hindependent := hseparates.independent x hx
  simp only [Expr.meaningAll, Expr.meaning, List.cons.injEq, and_true]
  generalize Expr.boundNames binders = bound at *
  generalize k.cellInames owner.inames bound body = cells at *
  generalize hbetween : m.writeAll (k.storesOf M m new) = between
  have hne : ∀ n, n ∈ k.names ∨ s.temporaries.contains n = true → n ≠ a := by
    rintro n (hn | hn) rfl
    · exact hfresh hn
    · rw [hout] at hn
      cases hn
  -- The body has its value at the points that the second instruction runs over.
  have hvalues : ∀ (past : Reader V) (memory : Memory V), (∀ n, n ≠ a → memory n = between n) →
      ∀ z ∈ k.domain.pointsAt env,
        body'.meaning M.arithmetic M.points past (memory.reader M.privateTo)
            (Point.ofNames z (cells.union bound)) =
          body.meaning M.arithmetic M.points (base.reader fun _ => ∅) (base.reader fun _ => ∅)
            (Point.ofNames z (around.union bound)) :=
    fun past memory hmemory z hz => h.meaning_body hm hM hsurrounds' hbody past
      (fun n hn => hbetween ▸ hmemory n (hne n hn)) hz
  have hstored := haccumulates.writeAll_stores hpoints (m := between)
    (fun q => body'.meaning M.arithmetic M.points (between.reader M.privateTo)
      (between.reader M.privateTo) q) (fun past memory hmemory q hq => ?_) hx
  · have hnot : a ∉ here := by
      intro ha
      rcases hsurrounds.indices a (hsurrounds.within a ha) with ho | hd
      · exact hfresh (hown a ho)
      · exact hfresh (Kernel.mem_names_of_hasDim hd)
    rw [haccumulates.meaning_element (fun n hn => (hcells n hn).1) hnot, hafter a hin,
      Kernel.storesOf_append, Memory.writeAll_append, hbetween, hstored]
    refine (foldl_extensions hA hpoints
      (fun n hn => ⟨hsurrounds.within n (hcells n hn).1, (hcells n hn).2⟩) hindependent
      op.kind _ fun y hy => ?_).symm
    exact (hvalues _ between (fun _ _ => rfl) y hy).symm
  · obtain ⟨z, hz, rfl⟩ := (hpoints.mem _ _).mp hq
    rw [hvalues past memory hmemory z hz, hvalues _ between (fun _ _ => rfl) z hz]

/-- A reduction becomes an element of its accumulator. -/
theorem reduction (op : ReductionOp) (binders : List Binder)
    (hlanes : ∀ n ∈ owner.laneNames, n ∈ owner.inames)
    (h : Realized k M env owner r [body] [body'] new s) :
    ∃ more, Realized k M env owner r [.reduction op binders body]
      [(Realization.realize k owner op binders body' s).1] (new ++ more)
      (Realization.realize k owner op binders body' s).2 := by
  obtain ⟨a, initId, updateId, s', hrealize, ha, htemporaries, -, -, -, -, hemitted⟩ :=
    Realization.realize_spec k owner op binders body' s
  obtain ⟨hnames, hnew, hinfinity⟩ := Realization.freshVar_acc k s.temporaries.keys
  rw [← ha] at hnames hnew hinfinity
  rw [hrealize]
  generalize hinit : Realization.initInsn initId (owner.element a) op _ _ = init at hemitted
  generalize hupdate : Realization.updateInsn updateId _ (owner.element a) op body' _ _ = update
    at hemitted
  have hinitAssignee : init.assignee = owner.element a := hinit ▸ rfl
  have hupdateAssignee : update.assignee = owner.element a := hupdate ▸ rfl
  have hinitTarget := ReductionOwner.target_of_element hinitAssignee
  have hextends := Realization.extends_accumulator h.sound hnames hnew hinitTarget
    (ReductionOwner.target_of_element hupdateAssignee) htemporaries hemitted
  obtain ⟨hhere, hout⟩ := hextends.targets init List.mem_cons_self
  rw [hinitTarget] at hhere hout
  refine ⟨[init, update], h.toExtends.trans hextends, ?_, fun n hn => ?_, ?_⟩
  · simp [Expr.surfaceNamesOfAll, Expr.surfaceNames]
  · rw [Expr.mem_dependenciesOfAll_singleton, ReductionOwner.mem_dependencies_element] at hn
    rcases hn with rfl | hn
    · exact .inr (.inr hhere)
    · exact .inr (.inl hn)
  · intro base m hm hM around here hsurrounds hrealizable
    obtain ⟨⟨hseparates, hbody⟩, -⟩ := hrealizable
    have hprivate : M.privateTo a = k.insnInames init := by
      rw [hM.temporaries a hhere, hemitted]
      refine Realization.cellsIn_append_cons (fun other hother he => ?_) hinitTarget
      rcases h.sound.targets other hother with hn | ht
      · exact hnames (he ▸ hn)
      · rw [he, hout] at ht
        cases ht
    have haccumulates := accumulates hown hlanes h hseparates hnames hinfinity hinit.symm
      hupdate.symm hprivate
    exact sameValues_of_accumulates hown hA hpoints h hextends haccumulates hm
      (hM.of_extends h.sound hextends) hsurrounds hseparates hbody

omit hown hA hpoints

mutual

/-- What becomes of an expression when its reductions are realized. -/
theorem exists_of_mapReductionsM (hlanes : ∀ n ∈ owner.laneNames, n ∈ owner.inames)
    (hown : ∀ n ∈ owner.inames, n ∈ k.names) (hA : M.arithmetic.Reorders)
    (hpoints : Projects k.domain env M.points) {r : Realization} (hr : r.Sound k) : (e : Expr) →
    ∃ new, Realized k M env owner r [e]
      [(e.mapReductionsM (Realization.realize k owner) r).1] new
      (e.mapReductionsM (Realization.realize k owner) r).2
  | .int n => ⟨[], leaf hr rfl fun _ _ _ _ _ _ _ => rfl⟩
  | .float x => ⟨[], leaf hr rfl fun _ _ _ _ _ _ _ => rfl⟩
  | .var name => ⟨[], leaf hr rfl fun _ _ _ _ _ _ h => by
      simp only [Expr.meaning]
      exact readName_congr (h name (by simp [Expr.dependencies]))⟩
  | .tagged name _ => ⟨[], leaf hr rfl fun _ _ _ _ _ _ h => by
      simp only [Expr.meaning]
      exact readName_congr (h name (by simp [Expr.dependencies]))⟩
  | .subscript aggregate index => by
    obtain ⟨new, h⟩ := exists_of_mapReductionsAllM hlanes hown hA hpoints hr index
    exact ⟨new, h.subscript aggregate⟩
  | .sum es => by
    obtain ⟨new, h⟩ := exists_of_mapReductionsAllM hlanes hown hA hpoints hr es
    exact ⟨new, h.operation .sum M.arithmetic.sum (fun _ => rfl) (fun _ => rfl) (fun _ hr => hr)
      fun _ _ _ _ => by simp only [Expr.meaning]⟩
  | .product es => by
    obtain ⟨new, h⟩ := exists_of_mapReductionsAllM hlanes hown hA hpoints hr es
    exact ⟨new, h.operation .product M.arithmetic.product (fun _ => rfl) (fun _ => rfl)
      (fun _ hr => hr) fun _ _ _ _ => by simp only [Expr.meaning]⟩
  | .binary op a b => by
    obtain ⟨new, h⟩ := exists_of_mapReductionsM hlanes hown hA hpoints hr a
    obtain ⟨more, h'⟩ := exists_of_mapReductionsM hlanes hown hA hpoints h.sound b
    exact ⟨new ++ (more ++ []), (h.cons (h'.cons (nil h'.sound))).binary op⟩
  | .call function args => by
    obtain ⟨new, h⟩ := exists_of_mapReductionsAllM hlanes hown hA hpoints hr args
    exact ⟨new, h.operation (.call function) (M.arithmetic.call function) (fun _ => rfl)
      (fun _ => rfl) (fun _ hr => hr) fun _ _ _ _ => by simp only [Expr.meaning]⟩
  | .reduction op binders body => by
    obtain ⟨new, h⟩ := exists_of_mapReductionsM hlanes hown hA hpoints hr body
    obtain ⟨more, h'⟩ := reduction hown hA hpoints op binders hlanes h
    exact ⟨new ++ more, h'⟩

/-- What becomes of several expressions when their reductions are realized. -/
theorem exists_of_mapReductionsAllM (hlanes : ∀ n ∈ owner.laneNames, n ∈ owner.inames)
    (hown : ∀ n ∈ owner.inames, n ∈ k.names) (hA : M.arithmetic.Reorders)
    (hpoints : Projects k.domain env M.points) {r : Realization} (hr : r.Sound k) :
    (es : List Expr) →
    ∃ new, Realized k M env owner r es
      (Expr.mapReductionsAllM (Realization.realize k owner) es r).1 new
      (Expr.mapReductionsAllM (Realization.realize k owner) es r).2
  | [] => ⟨[], nil hr⟩
  | e :: rest => by
    obtain ⟨new, h⟩ := exists_of_mapReductionsM hlanes hown hA hpoints hr e
    obtain ⟨more, h'⟩ := exists_of_mapReductionsAllM hlanes hown hA hpoints h.sound rest
    exact ⟨new ++ more, h.cons h'⟩

end

end Realized

end LoopKernel
