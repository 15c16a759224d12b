import LoopKernel.Proofs.Polyhedron.Basic

/-!
# Changing dimensions

What happens to the points of a polyhedron when a dimension is added, copied, or replaced by a form
in other variables.
-/

namespace LoopKernel.Polyhedron

variable {s t : Polyhedron} {name old new : String} {value : Affine}

/-- A new dimension comes last and is free. -/
theorem addDim_eq_ok : s.addDim name = .ok t ↔
    name ∉ s.dims ∧ t = { s with dims := s.dims ++ [name] } := by
  unfold addDim
  split
  · next h =>
    simp [hasDim_iff.mp h]
  · next h =>
    rw [hasDim_iff] at h
    rw [Attempt.pure_eq_ok, and_iff_right h, eq_comm]

/-- Constraints in which a variable is replaced hold where the original ones hold for the value that
takes its place. -/
private theorem foldlM_substitute {cs : List Constraint}
    (h : cs.foldlM (fun (out : Polyhedron) c => (do
      out.constrain (← c.substitute name value) : Attempt PolyhedronError Polyhedron)) s = .ok t) :
    t.dims = s.dims ∧ ∀ x, t.Holds x ↔
      s.Holds x ∧ ∀ c ∈ cs, c.Holds (Function.update x name (value.value x)) := by
  apply Attempt.foldlM_induction (P := fun done out => out.dims = s.dims ∧ ∀ x, out.Holds x ↔
    s.Holds x ∧ ∀ c ∈ done, c.Holds (Function.update x name (value.value x))) _ _ h
  · simp
  · rintro done out c next - ⟨hdims, hout⟩ hnext
    simp only [Attempt.bind_eq_ok, Attempt.liftM_eq_ok] at hnext
    obtain ⟨d, hd, hnext⟩ := hnext
    refine ⟨(dims_constrain hnext).trans hdims, fun x => ?_⟩
    rw [constrain_holds hnext, hout, Constraint.substitute_holds hd]
    simp only [List.mem_append, List.mem_singleton, or_imp, forall_and, forall_eq, and_assoc]

/-- Replacing a dimension is giving it the value of the form that takes its place. -/
theorem substituteDim_spec (h : s.substituteDim name value = .ok t) :
    name ∈ s.dims ∧ t.dims = s.dims.filter (· != name) ∧
      ∀ x, t.Holds x ↔ s.Holds (Function.update x name (value.value x)) := by
  unfold substituteDim at h
  split at h
  · simp at h
  · next hdim =>
    rw [Bool.not_eq_true', Bool.not_eq_false] at hdim
    obtain ⟨hdims, hholds⟩ := foldlM_substitute h
    refine ⟨hasDim_iff.mp hdim, hdims, fun x => ?_⟩
    rw [hholds, and_iff_right]
    · rfl
    · intro c hc
      cases hc

/-- A point of a polyhedron with a copied dimension is one of the original in which the dimension
may take the value of its copy. -/
theorem duplicateAxis_spec (h : s.duplicateAxis old new = .ok t) :
    old ∈ s.dims ∧ new ∉ s.dims ∧ t.dims = s.dims ++ [new] ∧
      ∀ x, t.Holds x ↔ s.Holds x ∧ s.Holds (Function.update x old (x new)) := by
  unfold duplicateAxis at h
  split at h
  · simp at h
  · next hdim =>
    rw [Bool.not_eq_true', Bool.not_eq_false] at hdim
    simp only [Attempt.bind_eq_ok, addDim_eq_ok] at h
    obtain ⟨_, ⟨hnew, rfl⟩, h⟩ := h
    obtain ⟨hdims, hholds⟩ := foldlM_substitute h
    refine ⟨hasDim_iff.mp hdim, hnew, hdims, fun x => ?_⟩
    rw [hholds, Affine.value_var]
    refine and_congr_right fun hx => ⟨fun hcopied c hc => ?_, fun hall c hc => ?_⟩
    · by_cases hinvolves : c.involves old = true
      · exact hcopied c (List.mem_filter.mpr ⟨hc, hinvolves⟩)
      · rw [Constraint.not_involves_iff] at hinvolves
        exact (Constraint.holds_update hinvolves (x new)).mpr (hx c hc)
    · exact hall c (List.mem_filter.mp hc).1

/-! ## Variables that stay -/

/-- Whether a variable occurs in a constraint. -/
def Mentions (s : Polyhedron) (name : String) : Prop := ∃ c ∈ s.constraints, name ∈ c.form.vars

/-- One more constraint brings its variables in and keeps the others. -/
theorem mentions_constrain {c : Constraint} (h : s.constrain c = .ok t)
    (hname : s.Mentions name ∨ name ∈ c.form.vars) : t.Mentions name := by
  obtain ⟨d, hd, rfl⟩ := constrain_eq_ok_iff.mp h
  rw [← Constraint.vars_normalize hd] at hname
  unfold Mentions Constraint.pushUnique
  split
  · next hpresent =>
    rcases hname with hold | hnew
    · exact hold
    · rw [Bool.or_eq_true, List.contains_eq_mem, decide_eq_true_eq] at hpresent
      rcases hpresent with htautology | hmem
      · rw [Constraint.isTautology, Bool.and_eq_true] at htautology
        rw [Affine.vars, SortedMap.keys, List.isEmpty_iff.mp htautology.1] at hnew
        cases hnew
      · exact ⟨d, hmem, hnew⟩
  · rcases hname with ⟨c, hc, hcname⟩ | hnew
    · exact ⟨c, List.mem_append_left _ hc, hcname⟩
    · exact ⟨d, List.mem_append_right _ List.mem_cons_self, hnew⟩

/-- Replacing a dimension keeps the other variables that the form in its place lacks. -/
theorem mentions_substituteDim {other : String} (h : s.substituteDim name value = .ok t)
    (hother : s.Mentions other) (hne : other ≠ name) (hvalue : other ∉ value.vars) :
    t.Mentions other := by
  unfold substituteDim at h
  split at h
  · simp at h
  · obtain ⟨c, hc, hcother⟩ := hother
    have hdone : ∀ c ∈ s.constraints, other ∈ c.form.vars → t.Mentions other := by
      apply Attempt.foldlM_induction (P := fun done out => ∀ c ∈ done, other ∈ c.form.vars →
        out.Mentions other) _ _ h
      · exact fun c hc => absurd hc List.not_mem_nil
      · rintro done out c after - hout hnext d hd hdother
        simp only [Attempt.bind_eq_ok, Attempt.liftM_eq_ok] at hnext
        obtain ⟨replaced, hreplaced, hnext⟩ := hnext
        rcases List.mem_append.mp hd with hd | hd
        · exact mentions_constrain hnext (.inl (hout d hd hdother))
        · rw [List.mem_singleton.mp hd] at hdother
          exact mentions_constrain hnext
            (.inr (Constraint.mem_vars_substitute hreplaced hdother hne hvalue))
    exact hdone c hc hcother

/-! ## Several copies -/

/-- Make copies of dimensions one after the other, each of the first index of a pair under the name
of the second. -/
def duplicateAxes (s : Polyhedron) (copies : List (String × String)) :
    Attempt PolyhedronError Polyhedron :=
  copies.foldlM (fun s copy => s.duplicateAxis copy.1 copy.2) s

variable {copies : List (String × String)}

theorem duplicateAxes_cons {copy : String × String} :
    s.duplicateAxes (copy :: copies) = .ok t ↔
      ∃ next, s.duplicateAxis copy.1 copy.2 = .ok next ∧ next.duplicateAxes copies = .ok t := by
  rw [duplicateAxes, List.foldlM_cons, Attempt.bind_eq_ok]
  rfl

theorem duplicateAxes_append {more : List (String × String)} :
    s.duplicateAxes (copies ++ more) = .ok t ↔
      ∃ next, s.duplicateAxes copies = .ok next ∧ next.duplicateAxes more = .ok t := by
  rw [duplicateAxes, List.foldlM_append, Attempt.bind_eq_ok]
  rfl

/-- Copies come last, in the order in which they are made. -/
theorem dims_duplicateAxes (h : s.duplicateAxes copies = .ok t) :
    t.dims = s.dims ++ copies.map Prod.snd := by
  induction copies generalizing s with
  | nil =>
    rw [duplicateAxes, List.foldlM_nil, Attempt.pure_eq_ok] at h
    simp [h]
  | cons copy rest ih =>
    obtain ⟨next, hnext, hrest⟩ := duplicateAxes_cons.mp h
    rw [ih hrest, (duplicateAxis_spec hnext).2.2.1]
    simp

/-- A point at which every copy has the value of the dimension it copies stays a point. -/
theorem holds_duplicateAxes (h : s.duplicateAxes copies = .ok t) {x : String → Int}
    (hcopies : ∀ copy ∈ copies, x copy.2 = x copy.1) (hx : s.Holds x) : t.Holds x := by
  induction copies generalizing s with
  | nil =>
    rw [duplicateAxes, List.foldlM_nil, Attempt.pure_eq_ok] at h
    exact h ▸ hx
  | cons copy rest ih =>
    obtain ⟨next, hnext, hrest⟩ := duplicateAxes_cons.mp h
    refine ih hrest (fun c hc => hcopies c (List.mem_cons_of_mem copy hc)) ?_
    obtain ⟨-, -, -, hholds⟩ := duplicateAxis_spec hnext
    rw [hholds, hcopies copy List.mem_cons_self, Function.update_eq_self]
    exact ⟨hx, hx⟩

/-- At a point, every dimension may take the value of any of its copies instead of its own. -/
theorem holds_of_duplicateAxes (h : s.duplicateAxes copies = .ok t)
    (hnew : ∀ copy ∈ copies, ∀ other ∈ copies, other.1 ≠ copy.2) {x : String → Int}
    (hx : t.Holds x) {choice : String → String}
    (hchoice : ∀ n, choice n = n ∨ (n, choice n) ∈ copies) : s.Holds (x ∘ choice) := by
  induction copies generalizing s choice with
  | nil =>
    rw [duplicateAxes, List.foldlM_nil, Attempt.pure_eq_ok] at h
    have hid : x ∘ choice = x := by
      funext n
      rw [Function.comp_apply, (hchoice n).resolve_right List.not_mem_nil]
    rw [hid, h]
    exact hx
  | cons copy rest ih =>
    obtain ⟨next, hnext, hrest⟩ := duplicateAxes_cons.mp h
    obtain ⟨-, -, -, hholds⟩ := duplicateAxis_spec hnext
    have hrestNew : ∀ c ∈ rest, ∀ other ∈ rest, other.1 ≠ c.2 := fun c hc other hother =>
      hnew c (List.mem_cons_of_mem copy hc) other (List.mem_cons_of_mem copy hother)
    by_cases hfirst : choice copy.1 = copy.2
    · -- Among the later copies the dimension itself is chosen; the first copy comes in after that.
      have hlater : ∀ n, Function.update choice copy.1 copy.1 n = n ∨
          (n, Function.update choice copy.1 copy.1 n) ∈ rest := by
        intro n
        by_cases hn : n = copy.1
        · exact .inl (by rw [hn, Function.update_self])
        · rw [Function.update_of_ne hn]
          exact (hchoice n).imp_right fun hmem => (List.mem_cons.mp hmem).resolve_left fun he =>
            hn (congrArg Prod.fst he)
      have hcopy : choice copy.2 = copy.2 := (hchoice copy.2).resolve_right fun hmem =>
        hnew copy List.mem_cons_self _ hmem rfl
      have hne : copy.2 ≠ copy.1 := (hnew copy List.mem_cons_self copy List.mem_cons_self).symm
      have hpoint := ((hholds _).mp (ih hrest hrestNew hlater)).2
      convert hpoint using 1
      funext n
      by_cases hn : n = copy.1
      · rw [hn, Function.update_self, Function.comp_apply, Function.comp_apply, hfirst,
          Function.update_of_ne hne, hcopy]
      · rw [Function.update_of_ne hn, Function.comp_apply, Function.comp_apply,
          Function.update_of_ne hn]
    · have hlater : ∀ n, choice n = n ∨ (n, choice n) ∈ rest := fun n =>
        (hchoice n).imp_right fun hmem => (List.mem_cons.mp hmem).resolve_left fun he =>
          hfirst (by rw [← he])
      exact ((hholds _).mp (ih hrest hrestNew hlater)).1

end LoopKernel.Polyhedron
