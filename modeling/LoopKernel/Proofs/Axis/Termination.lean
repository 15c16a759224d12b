import LoopKernel.Proofs.Axis.Assignment
import LoopKernel.Proofs.Overflow
import LoopKernel.Proofs.Source.WellFormed

/-!
# The search for axes ends

The search goes from axis to axis and starts again with the first one after each decision, for as
long as there are decisions, without a limit on their number. On a well-formed kernel every decision
settles exactly one open index, so there are at most as many as open indices at the start. Choosing
axes within its limit therefore does what the search does, and no decision is ever about an index
whose axis is fixed.
-/

namespace LoopKernel

/-- Where the search for decisions stands: the kernel so far, and the axis that is looked at. -/
structure AxisSearch where
  kernel : Kernel
  axis : Nat

namespace AxisSearch

/-- The decision for the axis that is looked at. -/
def decision (lengths : List Int) (s : AxisSearch) : Attempt Diagnostic (Option AxisDecision) :=
  s.kernel.decideAmong s.axis lengths s.kernel.instructions

/-- Rounds of the search, with the number of decisions carried out in them. Without a decision the
search goes on to the next axis, up to what is left over; after one it starts again. -/
inductive Rounds (lengths : List Int) (start : AxisSearch) : Nat → AxisSearch → Prop where
  | refl : Rounds lengths start 0 start
  | advance {n : Nat} {s : AxisSearch} (hrounds : Rounds lengths start n s)
      (hdecision : s.decision lengths = .ok none) (hlt : s.axis < lengths.length) :
      Rounds lengths start n ⟨s.kernel, s.axis + 1⟩
  | decide {n : Nat} {s : AxisSearch} {d : AxisDecision} {k : Kernel}
      (hrounds : Rounds lengths start n s) (hdecision : s.decision lengths = .ok (some d))
      (happly : s.kernel.applyDecision d lengths = .ok k) : Rounds lengths start (n + 1) ⟨k, 0⟩

/-- How the search ends where it stands: nothing is left to decide, or it fails in finding a
decision or in carrying it out. -/
inductive Ends (lengths : List Int) (s : AxisSearch) : Attempt Diagnostic Kernel → Prop where
  | done (hdecision : s.decision lengths = .ok none) (hlast : lengths.length ≤ s.axis) :
      Ends lengths s (.ok s.kernel)
  | undecided {e : Failure Diagnostic} (hdecision : s.decision lengths = .error e) :
      Ends lengths s (.error e)
  | stuck {d : AxisDecision} {e : Failure Diagnostic}
      (hdecision : s.decision lengths = .ok (some d))
      (happly : s.kernel.applyDecision d lengths = .error e) : Ends lengths s (.error e)

variable {lengths : List Int} {start s t : AxisSearch} {n m : Nat} {d : AxisDecision}

/-- Rounds after rounds are rounds. -/
theorem Rounds.trans (h : Rounds lengths start n s) (h' : Rounds lengths s m t) :
    Rounds lengths start (n + m) t := by
  induction h' with
  | refl => exact h
  | advance _ hdecision hlt ih => exact ih.advance hdecision hlt
  | decide _ hdecision happly ih => exact ih.decide hdecision happly

/-! ## What a round does -/

/-- A decision that is found can be carried out. -/
theorem permits_of_decision (h : s.decision lengths = .ok (some d)) : s.kernel.Permits lengths d :=
  let ⟨_, hinsn, hfor⟩ := (Kernel.decideAmong_spec h).1 d rfl
  Kernel.permits_of_decideFor hinsn hfor

/-- Rounds keep a kernel well-formed, and every decision in them settles one open index. -/
theorem Rounds.wellFormed (h : Rounds lengths start n s) (hwf : start.kernel.WellFormed) :
    s.kernel.WellFormed ∧ s.kernel.openCount + n = start.kernel.openCount := by
  induction h with
  | refl => exact ⟨hwf, rfl⟩
  | advance _ _ _ ih => exact ih
  | decide _ hdecision happly ih =>
    have hstep := Kernel.axisStep_of_applyDecision (permits_of_decision hdecision) happly
    have hless := ih.1.openCount_axisStep hstep
    exact ⟨ih.1.axisStep hstep, by dsimp only; omega⟩

/-- Rounds do not go beyond what is left over. -/
theorem Rounds.axis_le (h : Rounds lengths start n s) (hstart : start.axis ≤ lengths.length) :
    s.axis ≤ lengths.length := by
  induction h with
  | refl => exact hstart
  | advance _ _ hlt _ => exact hlt
  | decide _ _ _ _ => exact Nat.zero_le _

end AxisSearch

namespace Kernel

open AxisSearch

variable {k : Kernel} {lengths : List Int} {insn : Instruction} {d : AxisDecision}

/-- A decision that is found is about an open index. -/
theorem isAuto_of_decision {s : AxisSearch} (h : s.decision lengths = .ok (some d)) :
    (s.kernel.tag d.iname).isAuto = true :=
  let ⟨_, _, hfor⟩ := (decideAmong_spec h).1 d rfl
  (mem_openInames.mp (of_decideFor hfor).1).2

/-! ## The limit is never reached -/

/-- Looking for a decision over several axes in turn is what the search does up to the first axis
for which there is one. -/
theorem exists_rounds_of_decideOver {count axis : Nat} (hcount : axis + count = lengths.length) :
    ∃ last, Rounds lengths ⟨k, axis⟩ 0 ⟨k, last⟩ ∧
      decision lengths ⟨k, last⟩ = k.decideOver lengths (List.range' axis (count + 1)) ∧
      (decision lengths ⟨k, last⟩ = .ok none → lengths.length ≤ last) := by
  induction count generalizing axis with
  | zero =>
    refine ⟨axis, .refl, ?_, fun _ => hcount.ge⟩
    rw [List.range'_succ, List.range'_zero, decideOver, decision]
    rcases k.decideAmong axis lengths k.instructions with e | (_ | d) <;> rfl
  | succ count ih =>
    rw [List.range'_succ, decideOver]
    cases hdecision : k.decideAmong axis lengths k.instructions with
    | error e => exact ⟨axis, .refl, hdecision, fun hnone => by simp [decision, hdecision] at hnone⟩
    | ok found =>
      cases found with
      | some d =>
        exact ⟨axis, .refl, hdecision, fun hnone => by simp [decision, hdecision] at hnone⟩
      | none =>
        obtain ⟨last, hrounds, hrest, hlast⟩ := ih (show axis + 1 + count = _ by omega)
        have hnext : Rounds lengths ⟨k, axis⟩ 0 ⟨k, axis + 1⟩ :=
          Rounds.refl.advance hdecision (by dsimp only; omega)
        exact ⟨last, hnext.trans hrounds, hrest, hlast⟩

/-- The next decision is what the search finds from the first axis on. -/
theorem exists_rounds_of_nextDecision (k : Kernel) (lengths : List Int) :
    ∃ last, Rounds lengths ⟨k, 0⟩ 0 ⟨k, last⟩ ∧
      decision lengths ⟨k, last⟩ = k.nextDecision lengths ∧
      (decision lengths ⟨k, last⟩ = .ok none → lengths.length ≤ last) := by
  rw [nextDecision, List.range_eq_range']
  exact exists_rounds_of_decideOver (Nat.zero_add _)

/-- With a limit above the number of open indices, choosing axes ends where the search ends. -/
theorem WellFormed.exists_rounds_of_assignAxesWithin (h : k.WellFormed) {fuel : Nat}
    (hfuel : k.openCount < fuel) :
    ∃ n s, Rounds lengths ⟨k, 0⟩ n s ∧ s.Ends lengths (assignAxesWithin lengths fuel k) := by
  -- The limit goes down by one with each decision, and the number of open indices with it.
  induction fuel generalizing k with
  | zero => exact absurd hfuel (Nat.not_lt_zero _)
  | succ fuel ih =>
    obtain ⟨last, hrounds, hdecision, hlast⟩ := exists_rounds_of_nextDecision k lengths
    rw [assignAxesWithin, ← hdecision]
    cases hfound : decision lengths ⟨k, last⟩ with
    | error e => exact ⟨0, _, hrounds, .undecided hfound⟩
    | ok found =>
      cases found with
      | none => exact ⟨0, _, hrounds, .done hfound (hlast hfound)⟩
      | some d =>
        change ∃ n s, _ ∧ Ends lengths s (k.applyDecision d lengths >>= _)
        cases happly : k.applyDecision d lengths with
        | error e => exact ⟨0, _, hrounds, .stuck hfound happly⟩
        | ok next =>
          have hstep := axisStep_of_applyDecision (permits_of_decision hfound) happly
          have hless := h.openCount_axisStep hstep
          obtain ⟨n, s, hmore, hends⟩ := ih (h.axisStep hstep) (by omega)
          exact ⟨_, s, (hrounds.decide hfound happly).trans hmore, hends⟩

/-! ## Why choosing axes fails -/

/-- Whether a diagnostic is about the length of an index or about a split that is not possible. -/
def Unmeasured (e : Diagnostic) : Prop := e.problem.code = "E0703" ∨ e.problem.code = "E0706"

theorem failsOnly_inameLength (k : Kernel) (n : String) :
    (k.inameLength n).FailsOnly Unmeasured := by
  unfold inameLength
  split
  · exact Attempt.failsOnly_mapCause (fun _ => .inl rfl) _
  · exact Attempt.failsOnly_fail (.inr rfl)

theorem failsOnly_localAxisLengths (k : Kernel) : k.localAxisLengths.FailsOnly Unmeasured := by
  refine Attempt.FailsOnly.foldlM fun lengths e _ => ?_
  dsimp only [addAxisLength]
  split
  · refine (failsOnly_inameLength k _).bind fun length _ => ?_
    split
    · exact Attempt.failsOnly_pure _
    · exact Attempt.failsOnly_overflow
  · exact Attempt.failsOnly_pure _

theorem failsOnly_longest {names : List String} {best : Option (String × Int)} :
    (k.longest names best).FailsOnly Unmeasured := by
  induction names generalizing best with
  | nil => exact Attempt.failsOnly_pure _
  | cons iname rest ih =>
    rw [longest]
    refine (failsOnly_inameLength k iname).bind fun length _ => ?_
    split <;> exact ih

theorem failsOnly_decideFor (axis : Nat) :
    (k.decideFor axis lengths insn).FailsOnly Unmeasured := by
  unfold decideFor
  simp only
  split
  · exact Attempt.failsOnly_pure _
  split
  · split
    · exact Attempt.failsOnly_pure _
    · refine (Attempt.failsOnly_liftM _).bind fun ranking _ => ?_
      split <;> exact Attempt.failsOnly_pure _
  · refine failsOnly_longest.bind fun found _ => ?_
    split <;> exact Attempt.failsOnly_pure _

theorem failsOnly_decision (s : AxisSearch) : (s.decision lengths).FailsOnly Unmeasured := by
  unfold decision
  induction s.kernel.instructions with
  | nil => exact Attempt.failsOnly_pure _
  | cons insn rest ih =>
    rw [decideAmong]
    refine (failsOnly_decideFor s.axis).bind fun found _ => ?_
    split
    · exact Attempt.failsOnly_pure _
    · exact ih

theorem failsOnly_splitIname {iname : String} {length : Int} {outerTag innerTag : Option IndexTag} :
    (k.splitIname iname length outerTag innerTag).FailsOnly Unmeasured := by
  unfold splitIname
  split
  · exact Attempt.failsOnly_fail (.inr rfl)
  split
  · exact Attempt.failsOnly_fail (.inr rfl)
  · exact (Attempt.failsOnly_mapCause (fun _ => .inr rfl) _).bind fun _ _ =>
      Attempt.failsOnly_pure _

/-- A decision about an open index fails in carrying it out only for its length or its split. -/
theorem failsOnly_applyDecision (hauto : (k.tag d.iname).isAuto = true) :
    (k.applyDecision d lengths).FailsOnly Unmeasured := by
  unfold applyDecision
  rw [hauto]
  refine (failsOnly_inameLength k d.iname).bind fun desired _ => ?_
  extract_lets chosen
  rcases chosen with _ | axis
  · exact Attempt.failsOnly_pure _
  · dsimp only
    split
    · exact failsOnly_splitIname
    · exact Attempt.failsOnly_pure _

/-- The search fails only for a length or a split. -/
theorem failsOnly_of_ends {s : AxisSearch} {result : Attempt Diagnostic Kernel}
    (h : s.Ends lengths result) : result.FailsOnly Unmeasured := by
  cases h with
  | done => exact Attempt.failsOnly_pure _
  | undecided hdecision =>
    intro e he
    cases he
    exact failsOnly_decision s e hdecision
  | stuck hdecision happly =>
    intro e he
    cases he
    exact failsOnly_applyDecision (isAuto_of_decision hdecision) e happly

/-! ## Termination -/

/-- Choosing the axes of a well-formed kernel is a search that ends. A round raises the number of
decisions or else the axis, and neither goes beyond a bound: as many decisions are made as there are
fewer open indices than at the start. Each decision is about an open index and lowers their number
by exactly one, and none is refused because the axis of its index is fixed. -/
theorem WellFormed.axisSearch_ends (h : k.WellFormed) :
    (∀ lengths, k.localAxisLengths = .ok lengths →
      (∃ n s, Rounds lengths ⟨k, 0⟩ n s ∧ s.Ends lengths k.assignAutomaticAxes) ∧
        ∀ n s, Rounds lengths ⟨k, 0⟩ n s →
          s.kernel.openCount + n = k.openCount ∧ s.axis ≤ lengths.length ∧
            ∀ d, s.decision lengths = .ok (some d) →
              (s.kernel.tag d.iname).isAuto = true ∧
                ∀ k', s.kernel.applyDecision d lengths = .ok k' →
                  k'.openCount + 1 = s.kernel.openCount) ∧
      ∀ e, k.assignAutomaticAxes = .error (.cause e) → e.problem.code ≠ "E0701" := by
  have hends : ∀ lengths, k.localAxisLengths = .ok lengths →
      ∃ n s, Rounds lengths ⟨k, 0⟩ n s ∧ s.Ends lengths k.assignAutomaticAxes := by
    intro lengths hlengths
    rw [Kernel.assignAutomaticAxes, hlengths]
    exact h.exists_rounds_of_assignAxesWithin (Nat.lt_succ_self _)
  refine ⟨fun lengths hlengths => ⟨hends lengths hlengths, fun n s hrounds => ?_⟩, fun e he => ?_⟩
  · obtain ⟨hwf, hcount⟩ := hrounds.wellFormed h
    have haxis : s.axis ≤ lengths.length := hrounds.axis_le (Nat.zero_le _)
    refine ⟨hcount, haxis, fun d hd => ⟨isAuto_of_decision hd, fun k' hk => ?_⟩⟩
    exact hwf.openCount_axisStep (axisStep_of_applyDecision (permits_of_decision hd) hk)
  · have hkind : Unmeasured e := by
      cases hlengths : k.localAxisLengths with
      | ok lengths =>
        obtain ⟨n, s, -, hs⟩ := hends lengths hlengths
        exact failsOnly_of_ends hs e he
      | error f =>
        rw [Kernel.assignAutomaticAxes, hlengths] at he
        cases he
        exact failsOnly_localAxisLengths k e hlengths
    rcases hkind with hcode | hcode <;> simp [hcode]

/-- A copy by an index that is longer than the only local axis. -/
def longIndexSource : String :=
  "domain [i, k] : 0 <= i < 64 and 0 <= k < 16\narg global float32 a[64]\ntemp float32 z[16]\n" ++
    "tag i = l.auto, k = l.0\ninsn copy: x = a[i]\ninsn zero: z[k] = 0\n"

/-- The search makes one decision, by which the index is split. -/
theorem WellFormed.axisSearch_ends_longIndex :
    ∃ k lengths s, Source.load longIndexSource .fermi = .ok k ∧
      k.localAxisLengths = .ok lengths ∧ k.openCount = 1 ∧ Rounds lengths ⟨k, 0⟩ 1 s ∧
      k.assignAutomaticAxes = .ok s.kernel ∧
      s.kernel.domain.dims = ["i_outer", "i_inner", "k"] := by
  obtain ⟨k, hload, lengths, hlengths, hcount, k', hk, hdims, hclosed⟩ :
      ∃ k, Source.load longIndexSource .fermi = .ok k ∧
        ∃ lengths, k.localAxisLengths = .ok lengths ∧ k.openCount = 1 ∧
          ∃ k', k.assignAutomaticAxes = .ok k' ∧
            k'.domain.dims = ["i_outer", "i_inner", "k"] ∧ k'.openCount = 0 := by decide +kernel
  obtain ⟨hsearch, -⟩ := WellFormed.axisSearch_ends (Source.wellFormed_of_load hload)
  obtain ⟨⟨n, s, hrounds, hends⟩, hall⟩ := hsearch lengths hlengths
  have hsettled := (hall n s hrounds).1
  rw [hk] at hends
  cases hends
  obtain rfl : n = 1 := by omega
  exact ⟨k, lengths, s, hload, hlengths, hcount, hrounds, hk, hdims⟩

end Kernel

end LoopKernel
